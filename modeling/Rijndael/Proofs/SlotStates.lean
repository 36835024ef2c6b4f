import Rijndael.Proofs.HandleHistory

/-!
# The life of a slot

A slot is live while it holds a context, free while it waits to be used again,
and retired once it has had its last generation. The table does not write the
state down. It has to be told from the context in the slot, from the free list
and from the generation, and `Store.InOrder` says that these never contradict
one another, nor the count of live contexts.

`Store.Advances` says what no change takes back: a slot stays in the table, its
generation does not fall, and a retired slot is left as it is.

## Main results

* `WellFormed.inOrder` — a table in which the parts fit together is in order.
* `Changed.advances` — each change advances the table.
* `Session.run_inOrder` — every run leads to a table in order, and every
  continuation advances it.
-/

namespace Rijndael

/-- What a slot is used for. -/
inductive SlotState where
  | live
  | free
  | retired
  deriving DecidableEq

namespace Store

/-- The places on the free list, as positions in the table. -/
def freeIndices (s : Store) : List ℕ := s.free.map UInt32.toNat

/-- The slot at a position is in a state. -/
def InState (s : Store) (i : ℕ) (slot : Slot) : SlotState → Prop
  | .live => slot.context.isSome ∧ i ∉ s.freeIndices
  | .free => slot.context = none ∧ s.freeIndices.count i = 1
  | .retired => slot.context = none ∧ i ∉ s.freeIndices ∧ slot.generation = .last

/-- Every slot is in one state. The free list points into the table, so that a
place taken from it is always found, and the count of live contexts is right, so
that a destruction can always lower it. -/
structure InOrder (s : Store) : Prop where
  existsUnique_state : ∀ i slot, s.slots[i]? = some slot → ∃! state, s.InState i slot state
  lt_of_free : ∀ i ∈ s.freeIndices, i < s.slots.size
  live_eq : s.live = occupied s.slots
  live_destroy : ∀ h, (s.destroy h).result = .ok () → (s.destroy h).store.live + 1 = s.live

/-- No slot of `s` is lost in `t` or falls back there, and the retired ones are
as they were. -/
structure Advances (s t : Store) : Prop where
  generation_le : ∀ (i : ℕ) (slot : Slot), s.slots[i]? = some slot →
    ∃ slot', t.slots[i]? = some slot' ∧ slot.generation.number ≤ slot'.generation.number
  retired : ∀ (i : ℕ) (slot : Slot), s.slots[i]? = some slot → s.InState i slot .retired →
    t.slots[i]? = some slot ∧ t.InState i slot .retired

/-! ## States -/

private theorem mem_freeIndices {s : Store} {index : UInt32} :
    index.toNat ∈ s.freeIndices ↔ index ∈ s.free :=
  List.mem_map_of_injective fun _ _ => UInt32.toNat_inj.mp

theorem WellFormed.nodup_freeIndices {s : Store} (hs : s.WellFormed) : s.freeIndices.Nodup :=
  hs.free_nodup.map fun _ _ => UInt32.toNat_inj.mp

/-- The position of a slot is the number of its index. -/
private theorem WellFormed.exists_index {s : Store} (hs : s.WellFormed) {i : ℕ} {slot : Slot}
    (hslot : s.slots[i]? = some slot) : ∃ index : UInt32, index.toNat = i := by
  obtain ⟨hlt, -⟩ := Array.getElem?_eq_some_iff.mp hslot
  exact ⟨UInt32.ofNat i, UInt32.toNat_ofNat_of_lt' (Nat.lt_of_lt_of_le hlt hs.size_le)⟩

/-- The states exclude each other. -/
theorem InState.unique {s : Store} {i : ℕ} {slot : Slot} {a b : SlotState}
    (ha : s.InState i slot a) (hb : s.InState i slot b) : a = b := by
  -- A context tells live from the others, and the free list those two apart.
  have hone : s.freeIndices.count i = 1 → i ∈ s.freeIndices := fun h =>
    List.one_le_count_iff.mp h.ge
  cases a <;> cases b <;> simp_all [InState]

/-- Every slot is in one of the states. -/
theorem WellFormed.exists_state {s : Store} (hs : s.WellFormed) {i : ℕ} {slot : Slot}
    (hslot : s.slots[i]? = some slot) : ∃ state, s.InState i slot state := by
  obtain ⟨index, rfl⟩ := hs.exists_index hslot
  rcases slot with ⟨generation, _ | c⟩
  · by_cases hfree : index ∈ s.free
    · have hmem := mem_freeIndices.mpr hfree
      exact ⟨.free, rfl, List.count_eq_one_of_mem hs.nodup_freeIndices hmem⟩
    · have hlast := hs.retired index _ hslot rfl hfree
      exact ⟨.retired, rfl, mt mem_freeIndices.mp hfree, hlast⟩
  · exact ⟨.live, rfl, mt mem_freeIndices.mp (hs.index_notMem_free hslot)⟩

theorem WellFormed.inOrder {s : Store} (hs : s.WellFormed) : s.InOrder where
  existsUnique_state i slot hslot := by
    obtain ⟨state, hstate⟩ := hs.exists_state hslot
    exact ⟨state, hstate, fun _ hother => hother.unique hstate⟩
  lt_of_free i hi := by
    obtain ⟨index, hfree, rfl⟩ := List.mem_map.mp hi
    obtain ⟨generation, hslot⟩ := hs.free_empty index hfree
    exact (Array.getElem?_eq_some_iff.mp hslot).1
  live_eq := hs.live_eq
  live_destroy h hok := (destroy_destroyed s h).live_eq hs hok

/-! ## Advancing -/

theorem Advances.refl (s : Store) : s.Advances s where
  generation_le _ slot hslot := ⟨slot, hslot, UInt32.le_refl _⟩
  retired _ _ hslot hstate := ⟨hslot, hstate⟩

theorem Advances.trans {s t u : Store} (hst : s.Advances t) (htu : t.Advances u) :
    s.Advances u where
  generation_le i slot hslot := by
    obtain ⟨slot', hslot', hle⟩ := hst.generation_le i slot hslot
    obtain ⟨slot'', hslot'', hle'⟩ := htu.generation_le i slot' hslot'
    exact ⟨slot'', hslot'', UInt32.le_trans hle hle'⟩
  retired i slot hslot hstate := by
    obtain ⟨hslot', hstate'⟩ := hst.retired i slot hslot hstate
    exact htu.retired i slot hslot' hstate'

/-- A table that differs in one slot, which is not retired and does not fall
back, has advanced. -/
theorem Advances.of_slots {s t : Store} {index : UInt32} {new : Slot}
    (hslots : ∀ i, t.slots[i]? = if i = index.toNat then some new else s.slots[i]?)
    (hfree : ∀ i ∈ t.free, i = index ∨ i ∈ s.free)
    (hold : ∀ old, s.slots[index.toNat]? = some old →
      old.generation.number ≤ new.generation.number ∧
        ¬ s.InState index.toNat old .retired) : s.Advances t where
  generation_le i slot hslot := by
    by_cases hi : i = index.toNat
    · rw [hi] at hslot ⊢
      exact ⟨new, by rw [hslots, if_pos rfl], (hold slot hslot).1⟩
    · exact ⟨slot, by rw [hslots, if_neg hi, hslot], UInt32.le_refl _⟩
  retired i slot hslot hstate := by
    have hi : i ≠ index.toNat := by
      rintro rfl
      exact (hold slot hslot).2 hstate
    obtain ⟨hempty, hnotMem, hlast⟩ := hstate
    refine ⟨by rw [hslots, if_neg hi, hslot], hempty, ?_, hlast⟩
    intro hmem
    obtain ⟨index', hmem', rfl⟩ := List.mem_map.mp hmem
    rcases hfree index' hmem' with rfl | hmem'
    · exact hi rfl
    · exact hnotMem (mem_freeIndices.mpr hmem')

/-- If the slot of a new handle was in the table before, it was free and had
the generation of the handle. -/
private theorem Inserted.slot_eq {s : Store} {c : Context} {r : Reply Handle} {h : Handle}
    {slot : Slot} (hr : Inserted s c r) (hok : r.result = .ok h)
    (hslot : s.slots[h.index.toNat]? = some slot) :
    slot = ⟨h.generation, none⟩ ∧ h.index ∈ s.free := by
  cases hr with
  | full | exhausted => cases hok
  | reused index rest generation _ hfree hslot' =>
      cases hok
      rw [hslot'] at hslot
      cases hslot
      exact ⟨rfl, by simp [hfree]⟩
  | appended _ _ hsize =>
      cases hok
      rw [UInt32.toNat_ofNat_of_lt' hsize, Array.getElem?_size] at hslot
      cases hslot

/-- A slot is reused at the generation it has waited with. -/
theorem Inserted.advances {s : Store} {c : Context} {r : Reply Handle} {h : Handle}
    (hs : s.WellFormed) (hr : Inserted s c r) (hok : r.result = .ok h) : s.Advances r.store := by
  refine .of_slots (hr.getElem?_slots hok) ?_ ?_
  · intro i hi
    exact .inr ((hr.mem_free_iff hs hok i).mp hi).2
  · intro old hslot
    obtain ⟨rfl, hfree⟩ := hr.slot_eq hok hslot
    exact ⟨UInt32.le_refl _, fun hretired => hretired.2.1 (mem_freeIndices.mpr hfree)⟩

/-- A slot that is emptied goes on to the next generation, or is retired. -/
theorem Destroyed.advances {s : Store} {h : Handle} {r : Reply Unit} (hr : Destroyed s h r) :
    s.Advances r.store := by
  -- The slot that is emptied held a context, so it was not retired.
  have hlive : ∀ {generation : Generation} {c : Context},
      ¬ s.InState h.index.toNat ⟨generation, some c⟩ .retired := by
    rintro generation c ⟨hempty, -⟩
    cases hempty
  cases hr with
  | rejected => exact .refl s
  | freed c generation hslot hnext =>
      refine .of_slots (getElem?_setSlot hslot _) (by simp) ?_
      intro old hold
      rw [hslot] at hold
      cases hold
      refine ⟨UInt32.le_iff_toNat_le.mpr ?_, hlive⟩
      exact (Generation.toNat_of_next? hnext).symm ▸ Nat.le_succ _
  | retired c hslot =>
      refine .of_slots (getElem?_setSlot hslot _) (fun i hi => .inr hi) ?_
      intro old hold
      rw [hslot] at hold
      cases hold
      exact ⟨UInt32.le_refl _, hlive⟩

theorem Changed.advances {s t : Store} {change : Change} (hs : s.WellFormed)
    (hc : Changed s change t) : s.Advances t := by
  cases hc with
  | nothing => exact .refl s
  | created hr hok => exact hr.advances hs hok
  | destroyed hr => exact hr.advances

end Store

namespace Session

open Store

theorem advances_run {s : Session} (hs : s.store.WellFormed) (requests : List Request) :
    s.store.Advances (s.run requests).1.store :=
  preserved_run (fun hs hchanged hadvances => hadvances.trans (hchanged.advances hs)) hs
    (.refl s.store) requests

/-- After every run each slot is in one of the three states and the counts are
right, and whatever is asked afterwards, no generation falls and no retired
slot holds a context again. -/
theorem run_inOrder (limit : Option ℕ) (requests later : List Request) :
    let s := ((ofStore (.empty limit)).run requests).1
    s.store.InOrder ∧ s.store.Advances (s.run later).1.store := by
  intro s
  have hs : s.store.WellFormed :=
    wellFormed_run (s := ofStore (.empty limit)) (wellFormed_empty limit) requests
  exact ⟨hs.inOrder, advances_run hs later⟩

end Session

end Rijndael
