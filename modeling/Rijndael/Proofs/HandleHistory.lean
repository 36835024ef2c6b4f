import Rijndael.Proofs.StoreChange

/-!
# No handle is given out twice

A store keeps no list of the handles that it gave out, and yet they can be read
off its table. A slot has been used under every generation before its own, and
under its own unless it waits on the free list to be used again.
`Store.HasIssued` says so of one handle, and every change of the store adds to
it just the handle that is given out with the change.

A context is only ever put in under a handle that was not among them, so that
no handle names two contexts in turn, however often a slot is used again and
although there are no more than `2 ^ 32 - 1` generations.

## Main results

* `Changed.hasIssued_iff` — what one change adds to the handles given out.
* `Changed.not_hasIssued` — a handle that is given out is new.
* `Session.hasIssued_run_iff`, `Session.nodup_issued_run` — so it is for every
  run of requests.
* `Session.run_issued` — the handles that a run has given out, and what becomes
  of those that were destroyed.
-/

namespace Rijndael

namespace Generation

private theorem not_lt_first (g : Generation) : ¬ g.number < first.number := by
  intro hlt
  have hzero : g.number.toNat = 0 := by
    have : g.number.toNat < 1 := UInt32.lt_iff_toNat_lt.mp hlt
    omega
  exact g.number_ne_zero (UInt32.toNat_inj.mp hzero)

theorem toNat_of_next? {g next : Generation} (hnext : g.next? = some next) :
    next.number.toNat = g.number.toNat + 1 := by
  unfold next? ofNumber? at hnext
  by_cases hzero : g.number + 1 = 0
  · rw [dif_pos hzero] at hnext
    cases hnext
  · rw [dif_neg hzero] at hnext
    cases hnext
    have hne : (g.number + 1).toNat ≠ 0 := fun h => hzero (UInt32.toNat_inj.mp h)
    have hlt := g.number.toNat_lt
    rw [UInt32.toNat_add] at hne ⊢
    simp only [UInt32.reduceToNat] at hne ⊢
    omega

private theorem lt_next?_iff {g next : Generation} (hnext : g.next? = some next) (k : Generation) :
    k.number < next.number ↔ k.number < g.number ∨ k = g := by
  rw [Generation.ext_iff, ← UInt32.toNat_inj, UInt32.lt_iff_toNat_lt, UInt32.lt_iff_toNat_lt,
    toNat_of_next? hnext]
  omega

end Generation

namespace Store

/-- The store has given out a handle: its slot has gone past the generation, or
has just this generation and is not free. -/
def HasIssued (s : Store) (h : Handle) : Prop :=
  ∃ slot, s.slots[h.index.toNat]? = some slot ∧
    (h.generation.number < slot.generation.number ∨
      h.generation = slot.generation ∧ h.index ∉ s.free)

theorem not_hasIssued_empty (limit : Option ℕ) (h : Handle) : ¬ (empty limit).HasIssued h := by
  simp [HasIssued, empty]

/-- The handles that a table which differs from another in one slot has given
out. -/
private theorem hasIssued_of_slots {s t : Store} {index : UInt32} {slot : Slot}
    (hslots : ∀ i, t.slots[i]? = if i = index.toNat then some slot else s.slots[i]?)
    (hfree : ∀ i, i ≠ index → (i ∈ t.free ↔ i ∈ s.free)) (k : Handle) :
    t.HasIssued k ↔ if k.index = index then
      k.generation.number < slot.generation.number ∨
        k.generation = slot.generation ∧ index ∉ t.free
      else s.HasIssued k := by
  by_cases hindex : k.index = index
  · simp [HasIssued, hslots, hindex]
  · have hne : k.index.toNat ≠ index.toNat := fun h => hindex (UInt32.toNat_inj.mp h)
    simp only [HasIssued, hslots, if_neg hindex, if_neg hne, hfree k.index hindex]

/-- A handle that names a context was given out. -/
theorem WellFormed.hasIssued_of_get? {s : Store} (hs : s.WellFormed) {h : Handle} {c : Context}
    (hget : s.get? h = some c) : s.HasIssued h := by
  have hslot := get?_eq_some.mp hget
  exact ⟨_, hslot, .inr ⟨rfl, hs.index_notMem_free hslot⟩⟩

/-! ## One change -/

/-- Of the slot of a new handle, just the earlier generations were given out. -/
private theorem Inserted.hasIssued_of_index {s : Store} {c : Context} {r : Reply Handle}
    {h k : Handle} (hr : Inserted s c r) (hok : r.result = .ok h) (hindex : k.index = h.index) :
    s.HasIssued k ↔ k.generation.number < h.generation.number := by
  cases hr with
  | full | exhausted => cases hok
  | reused index rest generation _ hfree hslot =>
      cases hok
      simp [HasIssued, hindex, hslot, hfree]
  | appended _ _ hsize =>
      cases hok
      have hlast : (UInt32.ofNat s.slots.size).toNat = s.slots.size :=
        UInt32.toNat_ofNat_of_lt' hsize
      simp [HasIssued, hindex, hlast, k.generation.not_lt_first]

theorem Inserted.not_hasIssued {s : Store} {c : Context} {r : Reply Handle} {h : Handle}
    (hr : Inserted s c r) (hok : r.result = .ok h) : ¬ s.HasIssued h := by
  rw [hr.hasIssued_of_index hok rfl]
  exact UInt32.lt_irrefl _

/-- The slot of a new handle is taken off the free list, if it was on it. -/
theorem Inserted.mem_free_iff {s : Store} {c : Context} {r : Reply Handle} {h : Handle}
    (hs : s.WellFormed) (hr : Inserted s c r) (hok : r.result = .ok h) (i : UInt32) :
    i ∈ r.store.free ↔ i ≠ h.index ∧ i ∈ s.free := by
  cases hr with
  | full | exhausted => cases hok
  | reused index rest generation _ hfree =>
      cases hok
      have hnodup := hs.free_nodup
      rw [hfree] at hnodup
      have hnotMem := (List.nodup_cons.mp hnodup).1
      have hne : i ∈ rest → i ≠ index := fun hi heq => hnotMem (heq ▸ hi)
      rw [hfree, List.mem_cons]
      tauto
  | appended _ hfree =>
      cases hok
      simp [hfree]

/-- A new context adds its own handle to those that were given out. -/
theorem Inserted.hasIssued_iff {s : Store} {c : Context} {r : Reply Handle} {h : Handle}
    (hs : s.WellFormed) (hr : Inserted s c r) (hok : r.result = .ok h) (k : Handle) :
    r.store.HasIssued k ↔ s.HasIssued k ∨ h = k := by
  have hfree := hr.mem_free_iff hs hok
  rw [hasIssued_of_slots (hr.getElem?_slots hok) fun i hi => by simp [hfree, hi]]
  by_cases hindex : k.index = h.index
  · rw [if_pos hindex, hr.hasIssued_of_index hok hindex, eq_comm (a := h),
      Handle.eq_iff_generation_eq hindex, eq_comm (a := h.generation)]
    simp [hfree]
  · have hne : h ≠ k := fun heq => hindex (congrArg Handle.index heq).symm
    simp [hindex, hne]

/-- A destroyed context leaves behind that its handle was given out. -/
theorem Destroyed.hasIssued_iff {s : Store} {h : Handle} {r : Reply Unit} (hs : s.WellFormed)
    (hr : Destroyed s h r) (k : Handle) : r.store.HasIssued k ↔ s.HasIssued k := by
  cases hr with
  | rejected => exact Iff.rfl
  | freed c generation hslot hnext =>
      rw [hasIssued_of_slots (getElem?_setSlot hslot _) fun i hi => by simp [hi]]
      by_cases hindex : k.index = h.index
      · have hnotMem := hs.index_notMem_free hslot
        simp [HasIssued, hindex, hslot, hnotMem, Generation.lt_next?_iff hnext]
      · simp [hindex]
  | retired c hslot =>
      rw [hasIssued_of_slots (getElem?_setSlot hslot _) fun i _ => by rfl]
      by_cases hindex : k.index = h.index
      · simp [HasIssued, hindex, hslot]
      · simp [hindex]

theorem Changed.not_hasIssued {s t : Store} {change : Change} {h : Handle}
    (hc : Changed s change t) (hissued : change.issued? = some h) : ¬ s.HasIssued h := by
  cases hc with
  | nothing | destroyed => cases hissued
  | created hr hok =>
      cases hissued
      exact hr.not_hasIssued hok

/-- A change adds to the handles that were given out just the one that it gives
out. -/
theorem Changed.hasIssued_iff {s t : Store} {change : Change} (hs : s.WellFormed)
    (hc : Changed s change t) (k : Handle) :
    t.HasIssued k ↔ s.HasIssued k ∨ change.issued? = some k := by
  cases hc with
  | nothing => simp [Change.issued?]
  | created hr hok => simp [hr.hasIssued_iff hs hok k, Change.issued?]
  | destroyed hr => simp [hr.hasIssued_iff hs k, Change.issued?]

theorem not_hasIssued_of_create {s : Store} (hs : s.WellFormed) {key : List UInt8} {h : Handle}
    (hok : (s.create key).result = .ok h) : ¬ s.HasIssued h := by
  rcases create_changed hs key with ⟨k, hok', hchanged⟩ | ⟨e, herror, -⟩
  · rw [hok] at hok'
    cases hok'
    exact hchanged.not_hasIssued rfl
  · rw [hok] at herror
    cases herror

theorem hasIssued_create_iff {s : Store} (hs : s.WellFormed) (key : List UInt8) (k : Handle) :
    (s.create key).store.HasIssued k ↔ s.HasIssued k ∨ (s.create key).result = .ok k := by
  rcases create_changed hs key with ⟨h, hok, hchanged⟩ | ⟨e, herror, hstore⟩
  · simp [hchanged.hasIssued_iff hs, hok, Change.issued?]
  · simp [hstore, herror]

theorem hasIssued_destroy_iff {s : Store} (hs : s.WellFormed) (h k : Handle) :
    (s.destroy h).store.HasIssued k ↔ s.HasIssued k :=
  (destroy_destroyed s h).hasIssued_iff hs k

/-- A handle that was given out and names nothing will not name anything. -/
private theorem Changed.get?_eq_none {s t : Store} {change : Change} {k : Handle}
    (hc : Changed s change t) (hissued : s.HasIssued k) (hget : s.get? k = none) :
    t.get? k = none := by
  cases hc with
  | nothing => exact hget
  | @created c r h hr hok =>
      have hne : k ≠ h := by
        rintro rfl
        exact hr.not_hasIssued hok hissued
      rw [hr.get?_eq hok, if_neg hne, hget]
  | destroyed hr => rw [hr.get?_eq, hget, ite_self]

/-- The store knows nothing of a handle: every operation with it fails and
leaves the store alone. -/
structure Refuses (s : Store) (h : Handle) : Prop where
  contains_eq : s.contains h = false
  apply_result : ∀ d b, (s.apply d h b).result = .error (.invalidContext h)
  apply_store : ∀ d b, (s.apply d h b).store = s
  destroy_result : (s.destroy h).result = .error (.invalidContext h)
  destroy_store : (s.destroy h).store = s

theorem refuses_iff {s : Store} {h : Handle} : s.Refuses h ↔ s.get? h = none := by
  constructor
  · intro hrefuses
    simpa [contains] using hrefuses.contains_eq
  · intro hget
    constructor
    · simp [contains, hget]
    all_goals simp [apply, destroy, hget, reject]

end Store

/-! ## Runs of requests -/

/-- The handles that a run of requests was given, in order. -/
def issued (outcomes : List Outcome) : List Handle := outcomes.filterMap Outcome.issued?

namespace Session

open Store

theorem issued_run_cons (s : Session) (request : Request) (rest : List Request) :
    issued (s.run (request :: rest)).2 =
      (s.perform request).2.issued?.toList ++ issued ((s.perform request).1.run rest).2 := by
  simp only [issued, run, List.filterMap_cons]
  cases (s.perform request).2.issued? <;> rfl

theorem hasIssued_perform {s : Session} (hs : s.store.WellFormed) (request : Request) {h : Handle}
    (hissued : s.store.HasIssued h) : (s.perform request).1.store.HasIssued h := by
  obtain ⟨change, hchanged, -⟩ := perform_changed hs request
  exact (hchanged.hasIssued_iff hs h).mpr (.inl hissued)

/-- What is given out in a run is what the table shows more at its end than at
its beginning. -/
theorem hasIssued_run_iff {s : Session} (hs : s.store.WellFormed) (requests : List Request)
    (h : Handle) : (s.run requests).1.store.HasIssued h ↔
      s.store.HasIssued h ∨ h ∈ issued (s.run requests).2 := by
  induction requests generalizing s with
  | nil => simp [run, issued]
  | cons request rest ih =>
      obtain ⟨change, hchanged, hissued⟩ := perform_changed hs request
      rw [issued_run_cons, hissued, List.mem_append, Option.mem_toList, ← or_assoc,
        ← hchanged.hasIssued_iff hs]
      exact ih (hchanged.wellFormed hs)

private theorem not_hasIssued_of_mem_issued {s : Session} (hs : s.store.WellFormed)
    (requests : List Request) {h : Handle} (hmem : h ∈ issued (s.run requests).2) :
    ¬ s.store.HasIssued h := by
  induction requests generalizing s with
  | nil => cases hmem
  | cons request rest ih =>
      obtain ⟨change, hchanged, hissued⟩ := perform_changed hs request
      rw [issued_run_cons, hissued, List.mem_append, Option.mem_toList] at hmem
      rcases hmem with hfirst | hlater
      · exact hchanged.not_hasIssued hfirst
      · have hnot := ih (hchanged.wellFormed hs) hlater
        exact fun hbefore => hnot ((hchanged.hasIssued_iff hs h).mpr (.inl hbefore))

/-- By induction on the requests: the handle given out first is in the table
from then on, and so is none of those that are given out later. -/
theorem nodup_issued_run {s : Session} (hs : s.store.WellFormed) (requests : List Request) :
    (issued (s.run requests).2).Nodup := by
  induction requests generalizing s with
  | nil => exact List.nodup_nil
  | cons request rest ih =>
      obtain ⟨change, hchanged, hissued⟩ := perform_changed hs request
      have hrest := ih (hchanged.wellFormed hs)
      rw [issued_run_cons, hissued]
      rcases hfirst : change.issued? with _ | h
      · exact hrest
      · refine List.nodup_cons.mpr ⟨fun hmem => ?_, hrest⟩
        have hnot := not_hasIssued_of_mem_issued (hchanged.wellFormed hs) rest hmem
        exact hnot ((hchanged.hasIssued_iff hs h).mpr (.inr hfirst))

theorem get?_run_eq_none {s : Session} (hs : s.store.WellFormed) {h : Handle}
    (hissued : s.store.HasIssued h) (hget : s.store.get? h = none) (requests : List Request) :
    (s.run requests).1.store.get? h = none := by
  have hdead := preserved_run (P := fun t => t.HasIssued h ∧ t.get? h = none)
    (fun hs hchanged ⟨hissued, hget⟩ =>
      ⟨(hchanged.hasIssued_iff hs h).mpr (.inl hissued), hchanged.get?_eq_none hissued hget⟩)
    hs ⟨hissued, hget⟩ requests
  exact hdead.2

end Session

/-! ## Handles that were destroyed -/

/-- Every handle in the list of leases was given out. -/
private theorem Ledger.mem_leased_record {l : Ledger} {request : Request} {o : Outcome} {h : Handle}
    (hmem : h ∈ (l.record request o.answer).leased) :
    h ∈ l.leased ∨ o.issued? = some h := by
  unfold record at hmem
  split at hmem
  case h_3 key n k hanswer =>
    rcases List.mem_append.mp hmem with hmem | hlast
    · exact .inl hmem
    · rw [List.mem_singleton.mp hlast]
      exact .inr (by simp [Outcome.issued?, hanswer])
  all_goals exact .inl hmem

private theorem Ledger.mem_leased_replay {l : Ledger} {entries : List (Request × Outcome)}
    {h : Handle} (hmem : h ∈ (l.replay entries).leased) :
    h ∈ l.leased ∨ h ∈ issued (entries.map Prod.snd) := by
  induction entries generalizing l with
  | nil => exact .inl hmem
  | cons entry rest ih =>
      simp only [issued, List.map_cons, List.mem_filterMap, List.mem_cons, exists_eq_or_imp]
      rcases ih hmem with hfirst | hlater
      · rcases mem_leased_record hfirst with hmem | hissued
        · exact .inl hmem
        · exact .inr (.inl hissued)
      · exact .inr (.inr (List.mem_filterMap.mp hlater))

namespace Session

open Store

/-- A request that is to destroy a context does to the store what its destruction
does. A lease that is held is armed, so the end of its scope is no exception. -/
theorem store_perform_of_ends {s : Session} {l : Ledger} (hs : s.Matches l) {request : Request}
    {h : Handle} (hends : s.ends? request = some h) :
    (s.perform request).1.store = (s.store.destroy h).store := by
  cases request with
  | destroy =>
      cases hends
      rfl
  | release n =>
      obtain ⟨lease, hlease, rfl⟩ := Option.map_eq_some_iff.mp hends
      simp only [perform, withLease, hlease, settleEnded, settle, store_release]
  | endScope n =>
      obtain ⟨lease, hlease, rfl⟩ := Option.map_eq_some_iff.mp hends
      have hstore := (s.store.endScope_of_armed (hs.held n lease hlease).1).2
      simp only [perform, withLease, hlease, settleEnded, settle, hstore]
  | create | apply | contains | size | isEmpty | lease | applyLease => cases hends

/-- So it leaves nothing behind its handle, whatever it is answered. -/
theorem get?_perform_of_ends {s : Session} {l : Ledger} (hs : s.Matches l) {request : Request}
    {h : Handle} (hends : s.ends? request = some h) :
    (s.perform request).1.store.get? h = none := by
  rw [store_perform_of_ends hs hends, (destroy_destroyed s.store h).get?_eq, if_pos rfl]

private theorem length_run (s : Session) (requests : List Request) :
    (s.run requests).2.length = requests.length := by
  induction requests generalizing s with
  | nil => rfl
  | cons request rest ih => simp [run, ih]

/-- A handle that was destroyed with success had been given out. -/
private theorem hasIssued_of_ends {s : Session} {l : Ledger} (hs : s.Matches l)
    (hleased : ∀ h ∈ l.leased, s.store.HasIssued h) {request : Request} {h : Handle}
    (hends : s.ends? request = some h) (hdone : (s.perform request).2.answer = .ok .done) :
    s.store.HasIssued h := by
  have hlease : ∀ n, (s.lease? n).map Lease.handle = some h → s.store.HasIssued h := by
    intro n hhandle
    obtain ⟨lease, hlease, rfl⟩ := Option.map_eq_some_iff.mp hhandle
    exact hleased _ (List.mem_of_getElem? (hs.held n lease hlease).2)
  cases request with
  | destroy =>
      cases hends
      rcases hget : s.store.get? h with _ | c
      · have hresult := (destroy_destroyed s.store h).result_eq
        simp [perform, settle, hresult, hget, Except.map] at hdone
      · exact hs.holds.wellFormed.hasIssued_of_get? hget
  | release n => exact hlease n hends
  | endScope n => exact hlease n hends
  | create | apply | contains | size | isEmpty | lease | applyLease => cases hends

/-- No two of the handles that are given out in a run are equal, and the table
tells at every point which they are: of each slot, all the generations before
its own, and its own too unless the slot is free. A handle whose context was
destroyed, be that by the handle or through a lease, is refused for good. -/
theorem run_issued (limit : Option ℕ) (requests : List Request) :
    let run := (ofStore (.empty limit)).run requests
    (issued run.2).Nodup ∧
      (∀ h, h ∈ issued run.2 ↔ run.1.store.HasIssued h) ∧
      ∀ request h, run.1.ends? request = some h →
        (run.1.perform request).2.answer = .ok .done →
        ∀ later, ((run.1.perform request).1.run later).1.store.Refuses h := by
  intro run
  have hempty : (ofStore (.empty limit)).store.WellFormed := wellFormed_empty limit
  have hissued : ∀ h, h ∈ issued run.2 ↔ run.1.store.HasIssued h := by
    intro h
    rw [hasIssued_run_iff hempty requests h]
    exact (or_iff_right (not_hasIssued_empty limit h)).symm
  refine ⟨nodup_issued_run hempty requests, hissued, ?_⟩
  intro request h hends hdone later
  have hmatches := (matches_empty limit).run requests
  have hleased : ∀ k ∈ (Ledger.empty.replay (requests.zip run.2)).leased,
      run.1.store.HasIssued k := by
    intro k hmem
    have hleased := Ledger.mem_leased_replay hmem
    rw [List.map_snd_zip (length_run _ requests).le] at hleased
    exact (hissued k).mp (hleased.resolve_left List.not_mem_nil)
  have hbefore := hasIssued_of_ends hmatches hleased hends hdone
  have hwellFormed : run.1.store.WellFormed := hmatches.holds.wellFormed
  obtain ⟨change, hchanged, -⟩ := perform_changed hwellFormed request
  exact refuses_iff.mpr (get?_run_eq_none (hchanged.wellFormed hwellFormed)
    ((hchanged.hasIssued_iff hwellFormed h).mpr (.inl hbefore))
    (get?_perform_of_ends hmatches hends) later)

/-- The slot of a destroyed context is leased under its second generation, and
the lease is released. -/
theorem run_issued_reused_slot :
    let run := (ofStore (.empty none)).run
      [.create (.replicate 16 0), .destroy ⟨0, .first⟩, .lease (.replicate 16 0)]
    issued run.2 = [⟨0, .first⟩, ⟨0, ⟨2, by decide⟩⟩] ∧
      run.1.ends? (.release 0) = some ⟨0, ⟨2, by decide⟩⟩ ∧
      (run.1.perform (.release 0)).2.answer = .ok .done ∧
      ∀ later, ((run.1.perform (.release 0)).1.run later).1.store.Refuses
        ⟨0, ⟨2, by decide⟩⟩ :=
  ⟨by decide, by decide, by decide,
    (run_issued none _).2.2 (.release 0) _ (by decide) (by decide)⟩

end Session

end Rijndael
