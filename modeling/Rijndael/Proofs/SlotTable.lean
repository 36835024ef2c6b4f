import Mathlib
import Rijndael.Store.Lease

/-!
# The slot table of a store

A store says three times which of its slots are in use: by the contexts in
them, by the list of free slots and by the number of live contexts.
`Store.WellFormed` is what keeps the three together. Every operation preserves
it, and under it an operation can only do what `Store.Inserted` and
`Store.Destroyed` list, one constructor for each way.

For the context behind a handle this means that inserting changes the answer
for the new handle alone, which named nothing before, and that destroying
changes it for the destroyed handle alone. A slot that is used again answers to
none of its old handles, for its generation has moved on.

## Main results

* `insert_inserted`, `destroy_destroyed` — all that the two operations can do.
* `Inserted.wellFormed`, `Destroyed.wellFormed` — both keep the table in order.
* `Inserted.get?_eq`, `Destroyed.get?_eq` — both change one handle only.
-/

namespace Rijndael

/-- Only the last generation has none after it. -/
theorem Generation.next?_eq_none {g : Generation} : g.next? = none ↔ g = .last := by
  have hnumber : g = .last ↔ g.number = 0xffffffff := Generation.ext_iff
  rw [hnumber, next?, ofNumber?]
  constructor
  · intro hnone
    by_cases hzero : g.number + 1 = 0
    · grind
    · rw [dif_neg hzero] at hnone
      cases hnone
  · intro hlast
    rw [dif_pos (by rw [hlast]; decide)]

theorem Handle.eq_iff_generation_eq {k h : Handle} (hindex : k.index = h.index) :
    k = h ↔ h.generation = k.generation := by
  rcases k with ⟨index, generation⟩
  rcases h with ⟨index', generation'⟩
  simpa [Handle.mk.injEq, show index = index' from hindex] using eq_comm

namespace Store

/-- The number of slots that hold a context. -/
def occupied (slots : Array Slot) : ℕ := slots.countP fun slot => slot.context.isSome

/-- The slots, the free list and the count of live contexts fit together. -/
structure WellFormed (s : Store) : Prop where
  size_le : s.slots.size ≤ maxSlots
  free_nodup : s.free.Nodup
  free_empty : ∀ index ∈ s.free, ∃ generation, s.slots[index.toNat]? = some ⟨generation, none⟩
  /-- A slot that is empty and not to be used again has no generation left. -/
  retired : ∀ (index : UInt32) (slot : Slot), s.slots[index.toNat]? = some slot →
    slot.context = none → index ∉ s.free → slot.generation = .last
  live_eq : s.live = occupied s.slots

theorem wellFormed_empty (limit : Option ℕ) : (empty limit).WellFormed where
  size_le := Nat.zero_le _
  free_nodup := List.nodup_nil
  free_empty := by simp [empty]
  retired := by simp [empty]
  live_eq := rfl

/-! ## Looking up and writing one slot -/

/-- A handle names a context when its slot has the same generation and is occupied. -/
theorem get?_eq_some {s : Store} {h : Handle} {c : Context} :
    s.get? h = some c ↔ s.slots[h.index.toNat]? = some ⟨h.generation, some c⟩ := by
  unfold get?
  rcases hslot : s.slots[h.index.toNat]? with _ | ⟨generation, context⟩
  · simp
  · simp [Slot.mk.injEq]

/-- The answers of a table that differs from another in one slot. -/
private theorem get?_of_slots {s t : Store} {index : UInt32} {slot : Slot}
    (hslots : ∀ i, t.slots[i]? = if i = index.toNat then some slot else s.slots[i]?)
    (k : Handle) :
    t.get? k = if k.index = index then
      (if slot.generation = k.generation then slot.context else none) else s.get? k := by
  unfold get?
  rw [hslots]
  by_cases hindex : k.index = index
  · simp [hindex]
  · have hne : k.index.toNat ≠ index.toNat := fun h => hindex (UInt32.toNat_inj.mp h)
    simp [hindex, hne]

/-- A slot that is overwritten in the table, and the others as before. -/
theorem getElem?_setSlot {slots : Array Slot} {n : ℕ} {old : Slot}
    (hold : slots[n]? = some old) (new : Slot) (i : ℕ) :
    (slots.setIfInBounds n new)[i]? = if i = n then some new else slots[i]? := by
  obtain ⟨hn, -⟩ := Array.getElem?_eq_some_iff.mp hold
  rw [Array.getElem?_setIfInBounds]
  by_cases hi : n = i
  · subst hi
    simp [hn]
  · rw [if_neg hi, if_neg (Ne.symm hi)]

/-- Overwriting a slot moves the number of occupied ones by what leaves the slot and
what comes in. -/
private theorem occupied_setSlot {slots : Array Slot} {n : ℕ} {old : Slot}
    (hold : slots[n]? = some old) (new : Slot) :
    occupied (slots.setIfInBounds n new) =
      occupied slots - (if old.context.isSome then 1 else 0) +
        (if new.context.isSome then 1 else 0) := by
  obtain ⟨hn, hget⟩ := Array.getElem?_eq_some_iff.mp hold
  rw [Array.setIfInBounds_def, dif_pos hn, occupied, Array.countP_set hn, hget]
  rfl

private theorem getElem?_setSlot_of_ne {i index : UInt32} (hne : i ≠ index) (slots : Array Slot)
    (new : Slot) : (slots.setIfInBounds index.toNat new)[i.toNat]? = slots[i.toNat]? :=
  Array.getElem?_setIfInBounds_ne fun h => hne (UInt32.toNat_inj.mp h).symm

theorem one_le_occupied {slots : Array Slot} {n : ℕ} {slot : Slot}
    (hslot : slots[n]? = some slot) (hcontext : slot.context.isSome) : 1 ≤ occupied slots :=
  Array.one_le_countP_iff.mpr ⟨slot, Array.mem_of_getElem? hslot, hcontext⟩

/-! ## Inserting a context -/

/-- The ways in which a store can reply to a new context. -/
inductive Inserted (s : Store) (c : Context) : Reply Handle → Prop
  /-- The store holds as many contexts as it may. -/
  | full (limit : ℕ) (hlimit : s.limit = some limit) (hlive : limit ≤ s.live) :
      Inserted s c ⟨.error (.full limit), s, [.refused limit]⟩
  /-- The slot that was freed last takes the context. -/
  | reused (index : UInt32) (rest : List UInt32) (generation : Generation)
      (hlimit : ∀ limit, s.limit = some limit → s.live < limit)
      (hfree : s.free = index :: rest)
      (hslot : s.slots[index.toNat]? = some ⟨generation, none⟩) :
      Inserted s c
        ⟨.ok ⟨index, generation⟩,
          { s with
            slots := s.slots.setIfInBounds index.toNat ⟨generation, some c⟩
            free := rest
            live := s.live + 1 },
          [.created c.size ⟨index, generation⟩ (s.live + 1)]⟩
  /-- A slot at the end of the table takes the context. -/
  | appended (hlimit : ∀ limit, s.limit = some limit → s.live < limit)
      (hfree : s.free = []) (hsize : s.slots.size < maxSlots) :
      Inserted s c
        ⟨.ok ⟨UInt32.ofNat s.slots.size, .first⟩,
          { s with slots := s.slots.push ⟨.first, some c⟩, live := s.live + 1 },
          [.created c.size ⟨UInt32.ofNat s.slots.size, .first⟩ (s.live + 1)]⟩
  /-- Every index is in use. -/
  | exhausted (hlimit : ∀ limit, s.limit = some limit → s.live < limit)
      (hfree : s.free = []) (hsize : maxSlots ≤ s.slots.size) :
      Inserted s c ⟨.error (.full (maxSlots - 1)), s, []⟩

private theorem reachedLimit?_eq_none {s : Store} :
    s.reachedLimit? = none ↔ ∀ limit, s.limit = some limit → s.live < limit := by
  simp [reachedLimit?, Option.filter_eq_none_iff]

private theorem reachedLimit?_eq_some {s : Store} {limit : ℕ} :
    s.reachedLimit? = some limit ↔ s.limit = some limit ∧ limit ≤ s.live := by
  simp [reachedLimit?, Option.filter_eq_some_iff]

/-- Every insertion is one of the cases of `Inserted`. -/
theorem insert_inserted {s : Store} (hs : s.WellFormed) (c : Context) :
    Inserted s c (s.insert c) := by
  unfold insert
  rcases hreached : s.reachedLimit? with _ | limit
  · have hlimit := reachedLimit?_eq_none.mp hreached
    unfold place?
    rcases hfree : s.free with _ | ⟨index, rest⟩
    · by_cases hsize : s.slots.size < maxSlots
      · simp only [placeFresh?, if_pos hsize, hfree]
        simpa only [hfree] using Inserted.appended (c := c) hlimit hfree hsize
      · simp only [placeFresh?, if_neg hsize]
        exact .exhausted hlimit hfree (Nat.le_of_not_lt hsize)
    · obtain ⟨generation, hslot⟩ := hs.free_empty index (by simp [hfree])
      simp only [hslot]
      exact .reused index rest generation hlimit hfree hslot
  · obtain ⟨hlimit, hlive⟩ := reachedLimit?_eq_some.mp hreached
    exact .full limit hlimit hlive

theorem Inserted.wellFormed {s : Store} {c : Context} {r : Reply Handle}
    (hs : s.WellFormed) (hr : Inserted s c r) : r.store.WellFormed := by
  cases hr with
  | full => exact hs
  | exhausted => exact hs
  | reused index rest generation _ hfree hslot =>
      have hnodup := hs.free_nodup
      rw [hfree] at hnodup
      refine
        { size_le := by simpa using hs.size_le
          free_nodup := (List.nodup_cons.mp hnodup).2
          free_empty := ?_
          retired := ?_
          live_eq := ?_ }
      · intro i hi
        have hne : i ≠ index := fun h => (List.nodup_cons.mp hnodup).1 (h ▸ hi)
        obtain ⟨generation', hi'⟩ := hs.free_empty i (by simp [hfree, hi])
        exact ⟨generation', (getElem?_setSlot_of_ne hne _ _).trans hi'⟩
      · intro i slot hslot' hempty hidle
        by_cases hi : i = index
        · rw [getElem?_setSlot hslot, if_pos (congrArg _ hi)] at hslot'
          cases hslot'
          cases hempty
        · rw [getElem?_setSlot_of_ne hi] at hslot'
          refine hs.retired i slot hslot' hempty ?_
          rw [hfree]
          exact List.not_mem_cons_of_ne_of_not_mem hi hidle
      · simp only [hs.live_eq, occupied_setSlot hslot]
        simp
  | appended _ hfree hsize =>
      refine
        { size_le := by simpa using Nat.succ_le_of_lt hsize
          free_nodup := hs.free_nodup
          free_empty := by simp [hfree]
          retired := ?_
          live_eq := by simp [hs.live_eq, occupied] }
      intro i slot hslot hempty hidle
      rw [Array.getElem?_push] at hslot
      by_cases hi : i.toNat = s.slots.size
      · rw [if_pos hi] at hslot
        cases hslot
        cases hempty
      · rw [if_neg hi] at hslot
        exact hs.retired i slot hslot hempty hidle

theorem Inserted.store_eq_of_error {s : Store} {c : Context} {r : Reply Handle} {e : StoreError}
    (hr : Inserted s c r) (herror : r.result = .error e) : r.store = s := by
  cases hr with
  | full | exhausted => rfl
  | reused | appended => cases herror

/-- The counter goes up by one with each context. -/
theorem Inserted.live_eq {s : Store} {c : Context} {r : Reply Handle} {h : Handle}
    (hr : Inserted s c r) (hok : r.result = .ok h) : r.store.live = s.live + 1 := by
  cases hr with
  | full | exhausted => cases hok
  | reused | appended => rfl

/-- A store with room puts the context in. -/
theorem Inserted.exists_eq_ok {s : Store} {c : Context} {r : Reply Handle} (hr : Inserted s c r)
    (hlimit : ∀ limit, s.limit = some limit → s.live < limit)
    (hroom : s.slots.size < maxSlots) : ∃ h, r.result = .ok h := by
  cases hr with
  | full limit hlimit' hlive => exact absurd (hlimit limit hlimit') (Nat.not_lt.mpr hlive)
  | exhausted _ _ hsize => exact absurd hroom (Nat.not_lt.mpr hsize)
  | reused | appended => exact ⟨_, rfl⟩

/-- The slot of a new handle was empty before. -/
theorem Inserted.get?_eq_none {s : Store} {c : Context} {r : Reply Handle} {h k : Handle}
    (hr : Inserted s c r) (hok : r.result = .ok h) (hindex : k.index = h.index) :
    s.get? k = none := by
  cases hr with
  | full | exhausted => cases hok
  | reused index rest generation _ _ hslot =>
      cases hok
      simp [get?, hindex, hslot]
  | appended _ _ hsize =>
      cases hok
      have hsize : (UInt32.ofNat s.slots.size).toNat = s.slots.size :=
        UInt32.toNat_ofNat_of_lt' hsize
      simp [get?, hindex, hsize]

/-- Either way one slot is written, with the generation of the new handle. -/
theorem Inserted.getElem?_slots {s : Store} {c : Context} {r : Reply Handle} {h : Handle}
    (hr : Inserted s c r) (hok : r.result = .ok h) (i : ℕ) :
    r.store.slots[i]? =
      if i = h.index.toNat then some ⟨h.generation, some c⟩ else s.slots[i]? := by
  cases hr with
  | full | exhausted => cases hok
  | reused index rest generation _ _ hslot =>
      cases hok
      exact getElem?_setSlot hslot _ i
  | appended _ _ hsize =>
      cases hok
      have hsize : (UInt32.ofNat s.slots.size).toNat = s.slots.size :=
        UInt32.toNat_ofNat_of_lt' hsize
      simp only [Array.getElem?_push, hsize]

/-- A new context answers to its handle, and every other handle names what it
named before. -/
theorem Inserted.get?_eq {s : Store} {c : Context} {r : Reply Handle} {h : Handle}
    (hr : Inserted s c r) (hok : r.result = .ok h) (k : Handle) :
    r.store.get? k = if k = h then some c else s.get? k := by
  rw [get?_of_slots (hr.getElem?_slots hok)]
  by_cases hindex : k.index = h.index
  · rw [if_pos hindex, hr.get?_eq_none hok hindex]
    simp only [Handle.eq_iff_generation_eq hindex]
  · have hne : k ≠ h := fun heq => hindex (congrArg Handle.index heq)
    rw [if_neg hindex, if_neg hne]

/-! ## Destroying a context -/

/-- The ways in which a store can reply to the destruction of a handle. -/
inductive Destroyed (s : Store) (h : Handle) : Reply Unit → Prop
  /-- The handle names no context. -/
  | rejected (hget : s.get? h = none) : Destroyed s h (s.reject h)
  /-- The slot moves to its next generation and becomes free. -/
  | freed (c : Context) (generation : Generation)
      (hslot : s.slots[h.index.toNat]? = some ⟨h.generation, some c⟩)
      (hnext : h.generation.next? = some generation) :
      Destroyed s h
        ⟨.ok (),
          { s with
            slots := s.slots.setIfInBounds h.index.toNat ⟨generation, none⟩
            free := h.index :: s.free
            live := s.live - 1 },
          [.destroyed h (s.live - 1)]⟩
  /-- The slot has had its last generation and is given up. -/
  | retired (c : Context)
      (hslot : s.slots[h.index.toNat]? = some ⟨h.generation, some c⟩)
      (hlast : h.generation = .last) :
      Destroyed s h
        ⟨.ok (),
          { s with
            slots := s.slots.setIfInBounds h.index.toNat ⟨h.generation, none⟩
            live := s.live - 1 },
          [.retiring h.index, .destroyed h (s.live - 1)]⟩

/-- Every destruction is one of the cases of `Destroyed`. -/
theorem destroy_destroyed (s : Store) (h : Handle) : Destroyed s h (s.destroy h) := by
  unfold destroy
  rcases hget : s.get? h with _ | c
  · exact .rejected hget
  · have hslot := get?_eq_some.mp hget
    rcases hnext : h.generation.next? with _ | generation
    · exact .retired c hslot (Generation.next?_eq_none.mp hnext)
    · exact .freed c generation hslot hnext

/-- The index of an occupied slot is not free. -/
theorem WellFormed.index_notMem_free {s : Store} (hs : s.WellFormed) {index : UInt32}
    {generation : Generation} {c : Context}
    (hslot : s.slots[index.toNat]? = some ⟨generation, some c⟩) : index ∉ s.free := by
  intro hmem
  obtain ⟨generation', hempty⟩ := hs.free_empty index hmem
  simp [hempty] at hslot

/-- Overwriting a slot that is not free leaves the free ones empty. -/
theorem WellFormed.free_empty_setSlot {s : Store} (hs : s.WellFormed) {index : UInt32}
    (hnotMem : index ∉ s.free) (new : Slot) :
    ∀ i ∈ s.free, ∃ generation,
      (s.slots.setIfInBounds index.toNat new)[i.toNat]? = some ⟨generation, none⟩ := by
  intro i hi
  obtain ⟨generation, hslot⟩ := hs.free_empty i hi
  have hne : i ≠ index := fun heq => hnotMem (heq ▸ hi)
  exact ⟨generation, (getElem?_setSlot_of_ne hne _ _).trans hslot⟩

theorem Destroyed.wellFormed {s : Store} {h : Handle} {r : Reply Unit}
    (hs : s.WellFormed) (hr : Destroyed s h r) : r.store.WellFormed := by
  cases hr with
  | rejected => exact hs
  | freed c generation hslot hnext =>
      have hnotMem := hs.index_notMem_free hslot
      refine
        { size_le := by simpa using hs.size_le
          free_nodup := List.nodup_cons.mpr ⟨hnotMem, hs.free_nodup⟩
          free_empty := ?_
          retired := ?_
          live_eq := by simp [hs.live_eq, occupied_setSlot hslot] }
      · intro i hi
        rcases List.mem_cons.mp hi with rfl | hi
        · exact ⟨generation, by rw [getElem?_setSlot hslot, if_pos rfl]⟩
        · exact hs.free_empty_setSlot hnotMem _ i hi
      · intro i slot hslot' hempty hidle
        obtain ⟨hne, hidle⟩ := not_or.mp (mt List.mem_cons.mpr hidle)
        rw [getElem?_setSlot_of_ne hne] at hslot'
        exact hs.retired i slot hslot' hempty hidle
  | retired c hslot hlast =>
      have hnotMem := hs.index_notMem_free hslot
      refine
        { size_le := by simpa using hs.size_le
          free_nodup := hs.free_nodup
          free_empty := hs.free_empty_setSlot hnotMem _
          retired := ?_
          live_eq := by simp [hs.live_eq, occupied_setSlot hslot] }
      · intro i slot hslot' hempty hidle
        by_cases hi : i = h.index
        · rw [getElem?_setSlot hslot, if_pos (congrArg _ hi)] at hslot'
          cases hslot'
          exact hlast
        · rw [getElem?_setSlot_of_ne hi] at hslot'
          exact hs.retired i slot hslot' hempty hidle

/-- Just the handles that name a context can be destroyed. -/
theorem Destroyed.result_eq {s : Store} {h : Handle} {r : Reply Unit} (hr : Destroyed s h r) :
    r.result = if (s.get? h).isSome then .ok () else .error (.invalidContext h) := by
  cases hr with
  | rejected hget => simp [hget, reject]
  | freed c _ hslot | retired c hslot => simp [get?_eq_some.mpr hslot]

theorem Destroyed.store_eq_of_error {s : Store} {h : Handle} {r : Reply Unit} {e : StoreError}
    (hr : Destroyed s h r) (herror : r.result = .error e) : r.store = s := by
  cases hr with
  | rejected => rfl
  | freed | retired => cases herror

/-- The count of live contexts does not run below zero. -/
theorem Destroyed.live_eq {s : Store} {h : Handle} {r : Reply Unit}
    (hs : s.WellFormed) (hr : Destroyed s h r) (hok : r.result = .ok ()) :
    r.store.live + 1 = s.live := by
  cases hr with
  | rejected => cases hok
  | freed c _ hslot | retired c hslot =>
      have hpos : 1 ≤ occupied s.slots := one_le_occupied hslot rfl
      have hlive := hs.live_eq
      show s.live - 1 + 1 = s.live
      omega

private theorem get?_of_emptied {s t : Store} {h : Handle} {c : Context} {generation : Generation}
    (hslot : s.slots[h.index.toNat]? = some ⟨h.generation, some c⟩)
    (hslots : t.slots = s.slots.setIfInBounds h.index.toNat ⟨generation, none⟩) (k : Handle) :
    t.get? k = if k = h then none else s.get? k := by
  have hget : ∀ i, t.slots[i]? =
      if i = h.index.toNat then some ⟨generation, none⟩ else s.slots[i]? := by
    rw [hslots]
    exact getElem?_setSlot hslot _
  rw [get?_of_slots hget, ite_self]
  by_cases hindex : k.index = h.index
  · have hold : s.get? k = if k = h then some c else none := by
      simp only [get?, hindex, hslot, Option.bind_some, Handle.eq_iff_generation_eq hindex]
    by_cases hk : k = h
    · rw [if_pos hindex, if_pos hk]
    · rw [if_pos hindex, if_neg hk, hold, if_neg hk]
  · have hne : k ≠ h := fun heq => hindex (congrArg Handle.index heq)
    rw [if_neg hindex, if_neg hne]

/-- A destroyed handle names nothing, and every other handle names what it
named before. -/
theorem Destroyed.get?_eq {s : Store} {h : Handle} {r : Reply Unit}
    (hr : Destroyed s h r) (k : Handle) :
    r.store.get? k = if k = h then none else s.get? k := by
  cases hr with
  | rejected hget =>
      by_cases hk : k = h
      · rw [if_pos hk, hk]
        exact hget
      · rw [if_neg hk]
        rfl
  | freed c generation hslot | retired c hslot => exact get?_of_emptied hslot rfl k

end Store

end Rijndael
