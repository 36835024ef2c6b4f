import Rijndael.Proofs.SlotStates

/-!
# How many slots a store needs

A slot is appended to the table only when no slot is free, so that all of them are
live or retired then, the new one included. Otherwise the table keeps its size. It
therefore has as many slots as were ever live or retired at the same time, however
many contexts came and went. As long as no slot was retired, that is the greatest
number of contexts that were live at the same time.

## Main results

* `WellFormed.size_slots_eq` — the three states divide the slots up.
* `Changed.size_slots_eq` — a change leaves the size or takes every slot.
* `Session.run_isGreatest_taken` — the number of slots after every run of requests.
-/

namespace Rijndael

namespace Store

open Finset

instance decidableInState (s : Store) (i : ℕ) (slot : Slot) :
    (state : SlotState) → Decidable (s.InState i slot state)
  | .live => inferInstanceAs (Decidable (_ ∧ _))
  | .free => inferInstanceAs (Decidable (_ ∧ _))
  | .retired => inferInstanceAs (Decidable (_ ∧ _))

/-- The positions of the slots that are in a state. -/
def slotsIn (s : Store) (state : SlotState) : Finset ℕ :=
  {i ∈ range s.slots.size | ∃ slot, s.slots[i]? = some slot ∧ s.InState i slot state}

/-- The number of slots that are live or retired. -/
def taken (s : Store) : ℕ := s.size + #(s.slotsIn .retired)

/-! ## The slots by their states -/

theorem mem_slotsIn {s : Store} {state : SlotState} {i : ℕ} :
    i ∈ s.slotsIn state ↔ ∃ slot, s.slots[i]? = some slot ∧ s.InState i slot state := by
  rw [slotsIn, mem_filter, mem_range, and_iff_right_iff_imp]
  rintro ⟨slot, hslot, -⟩
  exact (Array.getElem?_eq_some_iff.mp hslot).1

/-- The places of a list at which a condition holds are as many as the members that
it holds of. -/
private theorem card_places (p : Slot → Bool) (slots : List Slot) :
    #{i ∈ range slots.length | (slots[i]?).any p} = slots.countP p := by
  induction slots using List.reverseRecOn with
  | nil => rfl
  | append_singleton slots last ih =>
      have hbefore : ∀ i ∈ range slots.length, (slots ++ [last])[i]? = slots[i]? := fun i hi =>
        List.getElem?_append_left (mem_range.mp hi)
      rw [List.length_append, List.length_singleton, range_add_one, filter_insert,
        filter_congr fun i hi => by rw [hbefore i hi], List.countP_append, List.countP_singleton,
        ← ih, List.getElem?_concat_length, Option.any_some]
      split
      · rw [card_insert_of_notMem (by simp)]
      · rfl

variable {s t : Store}

private theorem WellFormed.card_slotsIn_live (hs : s.WellFormed) : #(s.slotsIn .live) = s.live := by
  rw [hs.live_eq, occupied, ← Array.countP_toList, ← card_places]
  congr 1
  ext i
  rw [mem_slotsIn, mem_filter, mem_range, Option.any_eq_true, Array.getElem?_toList]
  constructor
  · rintro ⟨slot, hslot, hlive, -⟩
    exact ⟨(Array.getElem?_eq_some_iff.mp hslot).1, slot, hslot, hlive⟩
  · rintro ⟨-, ⟨generation, context⟩, hslot, hlive⟩
    obtain ⟨state, hstate⟩ := hs.exists_state hslot
    cases state with
    | live => exact ⟨_, hslot, hstate⟩
    | free | retired =>
        obtain ⟨rfl, -⟩ := hstate
        cases hlive

private theorem WellFormed.slotsIn_free (hs : s.WellFormed) :
    s.slotsIn .free = s.freeIndices.toFinset := by
  ext i
  rw [mem_slotsIn, List.mem_toFinset]
  constructor
  · rintro ⟨slot, -, -, hcount⟩
    exact List.one_le_count_iff.mp hcount.ge
  · intro hmem
    obtain ⟨index, hfree, rfl⟩ := List.mem_map.mp hmem
    obtain ⟨generation, hslot⟩ := hs.free_empty index hfree
    exact ⟨_, hslot, rfl, List.count_eq_one_of_mem hs.nodup_freeIndices hmem⟩

private theorem WellFormed.card_slotsIn_free (hs : s.WellFormed) :
    #(s.slotsIn .free) = s.free.length := by
  rw [hs.slotsIn_free, List.toFinset_card_of_nodup hs.nodup_freeIndices, freeIndices,
    List.length_map]

private theorem disjoint_slotsIn (s : Store) {a b : SlotState} (hne : a ≠ b) :
    Disjoint (s.slotsIn a) (s.slotsIn b) := by
  rw [Finset.disjoint_left]
  intro i ha hb
  obtain ⟨slot, hslot, hstate⟩ := mem_slotsIn.mp ha
  obtain ⟨slot', hslot', hstate'⟩ := mem_slotsIn.mp hb
  rw [hslot] at hslot'
  cases hslot'
  exact hne (hstate.unique hstate')

private theorem WellFormed.range_eq_slotsIn (hs : s.WellFormed) :
    range s.slots.size = s.slotsIn .live ∪ s.slotsIn .retired ∪ s.slotsIn .free := by
  ext i
  simp only [mem_range, mem_union, mem_slotsIn]
  constructor
  · intro hi
    have hslot := Array.getElem?_eq_getElem hi
    obtain ⟨state, hstate⟩ := hs.exists_state hslot
    cases state with
    | live => exact .inl (.inl ⟨_, hslot, hstate⟩)
    | retired => exact .inl (.inr ⟨_, hslot, hstate⟩)
    | free => exact .inr ⟨_, hslot, hstate⟩
  · rintro ((⟨slot, hslot, -⟩ | ⟨slot, hslot, -⟩) | ⟨slot, hslot, -⟩)
    all_goals exact (Array.getElem?_eq_some_iff.mp hslot).1

/-- Every slot is taken or free. -/
theorem WellFormed.size_slots_eq (hs : s.WellFormed) :
    s.slots.size = s.taken + s.free.length := by
  have hdisjoint : Disjoint (s.slotsIn .live ∪ s.slotsIn .retired) (s.slotsIn .free) :=
    disjoint_union_left.mpr ⟨s.disjoint_slotsIn (by decide), s.disjoint_slotsIn (by decide)⟩
  rw [← card_range s.slots.size, hs.range_eq_slotsIn, card_union_of_disjoint hdisjoint,
    card_union_of_disjoint (s.disjoint_slotsIn (by decide)), hs.card_slotsIn_live,
    hs.card_slotsIn_free, taken, size]

/-! ## One change -/

/-- The table keeps its size, or else no slot is free after the change. -/
theorem Changed.size_slots_eq {change : Change} (hs : s.WellFormed) (hc : Changed s change t) :
    t.slots.size = s.slots.size ∨ t.slots.size = t.taken := by
  have ht := (hc.wellFormed hs).size_slots_eq
  cases hc with
  | nothing => exact .inl rfl
  | created hr =>
      cases hr with
      | full | exhausted => exact .inl rfl
      | reused => exact .inl (Array.size_setIfInBounds ..)
      | appended _ hfree =>
          refine .inr (ht.trans ?_)
          simp only [hfree, List.length_nil, Nat.add_zero]
  | destroyed hr =>
      cases hr with
      | rejected => exact .inl rfl
      | freed | retired => exact .inl (Array.size_setIfInBounds ..)

/-- A slot that is retired stays so. -/
private theorem Advances.slotsIn_retired_subset (hst : s.Advances t) :
    s.slotsIn .retired ⊆ t.slotsIn .retired := by
  intro i hi
  obtain ⟨slot, hslot, hstate⟩ := mem_slotsIn.mp hi
  exact mem_slotsIn.mpr ⟨slot, hst.retired i slot hslot hstate⟩

end Store

/-! ## Runs of requests -/

namespace Session

open Store

theorem run_append (s : Session) (earlier later : List Request) :
    (s.run (earlier ++ later)).1 = ((s.run earlier).1.run later).1 := by
  induction earlier generalizing s with
  | nil => rfl
  | cons request rest ih => exact ih (s.perform request).1

variable {s : Session} {earlier requests : List Request}

/-- What a run leads to is reached from every point of it. -/
private theorem exists_run_eq_of_prefix (s : Session) (hearlier : earlier <+: requests) :
    ∃ later, (s.run requests).1 = ((s.run earlier).1.run later).1 := by
  obtain ⟨later, rfl⟩ := hearlier
  exact ⟨later, s.run_append earlier later⟩

private theorem size_slots_run_le (hs : s.store.WellFormed) (hearlier : earlier <+: requests) :
    (s.run earlier).1.store.slots.size ≤ (s.run requests).1.store.slots.size := by
  obtain ⟨later, hrun⟩ := s.exists_run_eq_of_prefix hearlier
  rw [hrun]
  exact preserved_run (P := fun t => (s.run earlier).1.store.slots.size ≤ t.slots.size)
    (fun _ hchanged hle => hle.trans hchanged.size_slots_le) (wellFormed_run hs earlier)
    (Nat.le_refl _) later

/-- If no slot is retired in the end, none was at any point. -/
private theorem taken_run_eq_size (hs : s.store.WellFormed) (hearlier : earlier <+: requests)
    (hnone : (s.run requests).1.store.slotsIn .retired = ∅) :
    (s.run earlier).1.store.taken = (s.run earlier).1.store.size := by
  obtain ⟨later, hrun⟩ := s.exists_run_eq_of_prefix hearlier
  have hsubset := (advances_run (wellFormed_run hs earlier) later).slotsIn_retired_subset
  rw [← hrun, hnone, Finset.subset_empty] at hsubset
  rw [taken, hsubset, Finset.card_empty, Nat.add_zero]

/-- The table has its final size from the start, or no slot of it was free at some point,
by induction on the requests. -/
private theorem size_slots_run_eq (hs : s.store.WellFormed) (requests : List Request) :
    (s.run requests).1.store.slots.size = s.store.slots.size ∨
      ∃ earlier, earlier <+: requests ∧
        (s.run requests).1.store.slots.size = (s.run earlier).1.store.taken := by
  induction requests generalizing s with
  | nil => exact .inl rfl
  | cons request rest ih =>
      obtain ⟨change, hchanged, -⟩ := perform_changed hs request
      rcases ih (hchanged.wellFormed hs) with hsize | ⟨earlier, hearlier, htaken⟩
      · rcases hchanged.size_slots_eq hs with hsame | hfirst
        · exact .inl (hsize.trans hsame)
        · exact .inr ⟨[request], by simp, hsize.trans hfirst⟩
      · exact .inr ⟨request :: earlier, List.cons_prefix_cons.mpr ⟨rfl, hearlier⟩, htaken⟩

private theorem isGreatest_taken_run (hs : s.store.WellFormed) (hfree : s.store.free = [])
    (requests : List Request) :
    IsGreatest {n | ∃ earlier, earlier <+: requests ∧ (s.run earlier).1.store.taken = n}
      (s.run requests).1.store.slots.size := by
  constructor
  · rcases size_slots_run_eq hs requests with hsize | ⟨earlier, hearlier, htaken⟩
    · have hstart := hs.size_slots_eq
      rw [hfree, List.length_nil, Nat.add_zero] at hstart
      exact ⟨[], List.nil_prefix, (hsize.trans hstart).symm⟩
    · exact ⟨earlier, hearlier, htaken.symm⟩
  · rintro n ⟨earlier, hearlier, rfl⟩
    have hsize := (wellFormed_run hs earlier).size_slots_eq
    have hle := size_slots_run_le hs hearlier
    omega

/-- After every run of requests on a store that was empty at first, the number of slots is
the greatest number of them that were live or retired at one point of the run, and there
were never more slots. If none was retired, it is the greatest number of contexts that
were live at one point. -/
theorem run_isGreatest_taken (limit : Option ℕ) (requests : List Request) :
    let after (earlier : List Request) : Store := ((ofStore (.empty limit)).run earlier).1.store
    let slots := (after requests).slots.size
    (∀ earlier, earlier <+: requests → (after earlier).slots.size ≤ slots) ∧
      IsGreatest {n | ∃ earlier, earlier <+: requests ∧ (after earlier).taken = n} slots ∧
      ((after requests).slotsIn .retired = ∅ →
        IsGreatest {n | ∃ earlier, earlier <+: requests ∧ (after earlier).size = n} slots) := by
  intro after slots
  have hempty : (ofStore (.empty limit)).store.WellFormed := wellFormed_empty limit
  have hgreatest := isGreatest_taken_run hempty rfl requests
  refine ⟨fun _ => size_slots_run_le hempty, hgreatest, fun hnone => ?_⟩
  have htaken : ∀ earlier, earlier <+: requests → (after earlier).taken = (after earlier).size :=
    fun _ hearlier => taken_run_eq_size hempty hearlier hnone
  have hsame : {n | ∃ earlier, earlier <+: requests ∧ (after earlier).size = n} =
      {n | ∃ earlier, earlier <+: requests ∧ (after earlier).taken = n} := by
    ext n
    exact exists_congr fun _ => and_congr_right fun hearlier => by rw [htaken _ hearlier]
  exact hsame ▸ hgreatest

/-- Three contexts, of which no more than two are live at one point, and a lease after
they are gone: two slots are enough. -/
theorem run_isGreatest_taken_reused_slot :
    let key := List.replicate 16 0
    let requests : List Request :=
      [.create key, .create key, .destroy ⟨0, .first⟩, .create key, .destroy ⟨1, .first⟩,
        .destroy ⟨0, ⟨2, by decide⟩⟩, .lease key, .endScope 0]
    let after (earlier : List Request) : Store := ((ofStore (.empty none)).run earlier).1.store
    (after requests).slotsIn .retired = ∅ ∧ (after requests).slots.size = 2 ∧
      IsGreatest {n | ∃ earlier, earlier <+: requests ∧ (after earlier).size = n} 2 :=
  have hnone : _ := by decide
  ⟨hnone, by decide, (run_isGreatest_taken none _).2.2 hnone⟩

end Session

end Rijndael
