import Rijndael.Proofs.HandleHistory

/-!
# The handles that a run destroys

A context can be destroyed by its handle, by the release of its lease or at the
end of the scope of its lease, and the last of the three is answered alike
whether a context was there or not. `Session.destroyed` lists the handles whose
contexts a run of requests destroyed, whichever way.

Beside the handles that the run was given, this list tells all that becomes of
the table: what was live and is not listed is live, and the contexts that are
live are those that were given out less those that are listed.

## Main results

* `Session.exists_changed_destroyed?` — one request and the change it makes.
* `Session.get?_run_of_get?` — the context behind a live handle after a run.
* `Session.size_run_add_length_destroyed` — the number of live contexts after a
  run.
-/

namespace Rijndael

namespace Store

private theorem Changed.get?_of_get? {s t : Store} {change : Change} {h : Handle} {c : Context}
    (hc : Changed s change t) (hget : s.get? h = some c) :
    t.get? h = if change.destroyed? = some h then none else some c := by
  cases hc with
  | nothing => exact hget
  | @created _ _ k hr hok =>
      have hne : h ≠ k := by
        rintro rfl
        rw [hr.get?_eq_none hok rfl] at hget
        cases hget
      rw [hr.get?_eq hok, if_neg hne, hget]
      rfl
  | @destroyed _ k hr =>
      rw [hr.get?_eq, hget]
      simp only [Change.destroyed?, Option.some.injEq, eq_comm]

/-- A change leaves as many contexts more as it gives out, and as many less as it
takes out. -/
private theorem Changed.live_eq {s t : Store} {change : Change} (hs : s.WellFormed)
    (hc : Changed s change t) :
    t.live + change.destroyed?.toList.length = s.live + change.issued?.toList.length := by
  cases hc with
  | nothing => rfl
  | created hr hok => exact hr.live_eq hok
  | destroyed hr hok => exact hr.live_eq hs hok

end Store

namespace Session

open Store

/-- The handle whose context a request destroys: the one that it is to destroy, if
the store does so. -/
def destroyed? (s : Session) (request : Request) : Option Handle :=
  (s.ends? request).filter fun h => (s.store.destroy h).result.isOk

/-- The handles whose contexts a run of requests destroys, in order. -/
def destroyed (s : Session) : List Request → List Handle
  | [] => []
  | request :: rest => (s.destroyed? request).toList ++ (s.perform request).1.destroyed rest

theorem issued?_perform_of_ends {s : Session} {request : Request} {h : Handle}
    (hends : s.ends? request = some h) : (s.perform request).2.issued? = none := by
  cases request with
  | destroy => exact issued?_done _ _
  | release n | endScope n =>
      obtain ⟨lease, hlease, -⟩ := Option.map_eq_some_iff.mp hends
      simp only [perform, withLease, hlease]
      exact issued?_done _ _
  | create | apply | contains | size | isEmpty | lease | applyLease => cases hends

/-- Every request makes one of the three changes: it gives out the handle of the
change, or destroys it. -/
theorem exists_changed_destroyed? {s : Session} {l : Ledger} (hs : s.Matches l)
    (request : Request) :
    ∃ change, Changed s.store change (s.perform request).1.store ∧
      (s.perform request).2.issued? = change.issued? ∧
      s.destroyed? request = change.destroyed? := by
  rcases hends : s.ends? request with _ | h
  · obtain ⟨change, hchanged, hissued, hnone⟩ :=
      perform_changed_of_ends_eq_none hs.holds.wellFormed hends
    exact ⟨change, hchanged, hissued, by rw [hnone, destroyed?, hends, Option.filter_none]⟩
  · have hstore := store_perform_of_ends hs hends
    have hissued := issued?_perform_of_ends hends
    rcases s.store.destroy_changed h with ⟨hok, hchanged⟩ | ⟨e, herror, hsame⟩
    · refine ⟨.destroyed h, hstore ▸ hchanged, hissued, ?_⟩
      simp [destroyed?, hends, hok, Except.isOk, Except.toBool, Change.destroyed?]
    · refine ⟨.nothing, .of_store_eq (hstore.trans hsame), hissued, ?_⟩
      simp [destroyed?, hends, herror, Except.isOk, Except.toBool, Change.destroyed?]

/-- A context that is live stays behind its handle until the handle is destroyed,
by induction on the requests. -/
theorem get?_run_of_get? {s : Session} {l : Ledger} (hs : s.Matches l) {h : Handle} {c : Context}
    (hget : s.store.get? h = some c) (requests : List Request) :
    (s.run requests).1.store.get? h = if h ∈ s.destroyed requests then none else some c := by
  induction requests generalizing s l with
  | nil => exact hget
  | cons request rest ih =>
      obtain ⟨change, hchanged, -, hdestroyed⟩ := exists_changed_destroyed? hs request
      have hnext := hchanged.get?_of_get? hget
      simp only [run, destroyed, List.mem_append, Option.mem_toList, hdestroyed]
      by_cases hfirst : change.destroyed? = some h
      · have hissued := hasIssued_perform hs.holds.wellFormed request
          (hs.holds.wellFormed.hasIssued_of_get? hget)
        rw [if_pos hfirst] at hnext
        rw [if_pos (.inl hfirst)]
        exact get?_run_eq_none (hchanged.wellFormed hs.holds.wellFormed) hissued hnext rest
      · rw [if_neg hfirst] at hnext
        rw [ih (hs.perform request) hnext]
        simp only [hfirst, false_or]

/-- What is live after a run is what was live before and what was given out, less
what was destroyed. -/
theorem size_run_add_length_destroyed {s : Session} {l : Ledger} (hs : s.Matches l)
    (requests : List Request) :
    (s.run requests).1.store.size + (s.destroyed requests).length =
      s.store.size + (issued (s.run requests).2).length := by
  induction requests generalizing s l with
  | nil => rfl
  | cons request rest ih =>
      obtain ⟨change, hchanged, hissued, hdestroyed⟩ := exists_changed_destroyed? hs request
      have hlive := hchanged.live_eq hs.holds.wellFormed
      have hrest := ih (hs.perform request)
      rw [issued_run_cons, destroyed, hissued, hdestroyed, List.length_append,
        List.length_append]
      simp only [size, run] at hrest ⊢
      omega

end Session

end Rijndael
