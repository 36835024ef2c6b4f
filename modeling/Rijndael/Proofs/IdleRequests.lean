import Rijndael.Proofs.Leases

/-!
# Requests that change nothing

A request that is refused leaves the store as it was, down to the order of the
free list, and so does a request that only asks. Such requests can be left out
of a run: the others are answered as before, with the same handles, the same
leases and the same entries in the log, and the store at the end is the same.

The two runs do not hold the same leases. A lease that is released after its
context was destroyed is refused, and still it is no longer held. When that
request is left out, the lease stays held, dead as it is. `Session.Extends` is
what is true of the two sessions all along.

## Main results

* `Session.store_perform_of_isIdle` — a request that is refused or only asks
  leaves the store alone.
* `Extends.perform_of_isIdle`, `Extends.perform` — one request that is left out,
  and one that is carried out in both runs.
* `Session.run_without_idle` — what is left of a run without such requests.
-/

namespace Rijndael

/-- The request asks for something and leaves the contexts alone. -/
def Request.asks : Request → Bool
  | .apply .. | .applyLease .. | .contains _ | .size | .isEmpty => true
  | .create _ | .destroy _ | .lease _ | .release _ | .endScope _ => false

/-- The request was refused: by an error, because its lease is not held, or, at
the end of a scope, because the context was gone. The last of these is told by
the log alone. -/
def Outcome.isRefusal (o : Outcome) : Bool :=
  match o.answer with
  | .error _ | .ok .notHeld => true
  | .ok .done => o.events.any fun event => (event matches .alreadyGone _)
  | .ok _ => false

namespace Store

/-- A destruction says nothing of leases. -/
private theorem alreadyGone_notMem_destroy (s : Store) (h k : Handle) :
    .alreadyGone k ∉ (s.destroy h).events := by
  have hr := destroy_destroyed s h
  generalize s.destroy h = reply at hr
  cases hr with
  | rejected | freed | retired => simp [reject]

theorem result_endScope (s : Store) (l : Lease) : (s.endScope l).result = .ok () := by
  by_cases harmed : l.armed = true
  · exact (s.endScope_of_armed harmed).1
  · rw [endScope, if_neg harmed]

/-- The end of a scope whose context was gone. -/
private theorem store_endScope_of_alreadyGone {s : Store} {l : Lease} {k : Handle}
    (hgone : .alreadyGone k ∈ (s.endScope l).events) : (s.endScope l).store = s := by
  revert hgone
  unfold endScope
  by_cases harmed : l.armed = true
  · rw [if_pos harmed]
    rcases hresult : (s.destroy l.handle).result with e | ⟨⟩
    · simp only [hresult]
      exact fun _ => store_destroy_of_error hresult
    · simp only [hresult]
      exact fun hgone => absurd hgone (s.alreadyGone_notMem_destroy l.handle k)
  · rw [if_neg harmed]
    exact fun _ => rfl

end Store

namespace Session

open Store

/-! ## One request that changes nothing -/

/-- The request only asks or is refused. -/
def isIdle (s : Session) (request : Request) : Bool :=
  request.asks || (s.perform request).2.isRefusal

private theorem perform_of_asks (s : Session) {request : Request} (hasks : request.asks) :
    (s.perform request).1 = s := by
  cases request with
  | contains | size | isEmpty => rfl
  | apply d h b => simp only [perform, settle, store_apply]
  | applyLease d n b =>
      simp only [perform, withLease]
      rcases s.lease? n with _ | l
      · rfl
      · simp only [settle, store_apply]
  | create | destroy | lease | release | endScope => cases hasks

private theorem error_or_alreadyGone_of_isRefusal {reply : Reply Unit}
    (hrefusal : Outcome.isRefusal ⟨reply.result.map fun _ => .done, reply.events⟩) :
    (∃ e, reply.result = .error e) ∨ ∃ h, .alreadyGone h ∈ reply.events := by
  rcases hresult : reply.result with e | ⟨⟩
  · exact .inl ⟨e, rfl⟩
  · rw [hresult] at hrefusal
    obtain ⟨event, hmem, hgone⟩ := List.any_eq_true.mp hrefusal
    cases event with
    | alreadyGone h => exact .inr ⟨h, hmem⟩
    | created | destroyed | retiring | refused | rejected => cases hgone

private theorem store_destroy_of_isRefusal {s : Store} {h : Handle}
    (hrefusal : Outcome.isRefusal ⟨(s.destroy h).result.map fun _ => .done, (s.destroy h).events⟩) :
    (s.destroy h).store = s := by
  rcases error_or_alreadyGone_of_isRefusal hrefusal with ⟨e, herror⟩ | ⟨k, hgone⟩
  · exact store_destroy_of_error herror
  · exact absurd hgone (s.alreadyGone_notMem_destroy h k)

private theorem store_perform_of_isRefusal {s : Session} {request : Request}
    (hrefusal : (s.perform request).2.isRefusal) : (s.perform request).1.store = s.store := by
  cases request with
  | contains | size | isEmpty => rfl
  | apply d h b => rw [perform_of_asks s rfl]
  | applyLease d n b => rw [perform_of_asks s rfl]
  | create key =>
      simp only [perform, settle] at hrefusal ⊢
      rcases hresult : (s.store.create key).result with e | h
      · exact store_create_of_error hresult
      · rw [hresult] at hrefusal
        cases hrefusal
  | lease key =>
      simp only [perform, Store.lease, Reply.map] at hrefusal ⊢
      rcases hresult : (s.store.create key).result with e | h
      · exact store_create_of_error hresult
      · rw [hresult] at hrefusal
        cases hrefusal
  | destroy h => exact store_destroy_of_isRefusal hrefusal
  | release n =>
      rcases hlease : s.lease? n with _ | l
      · simp only [perform, withLease, hlease]
      · rw [perform_release hlease] at hrefusal ⊢
        exact store_destroy_of_isRefusal hrefusal
  | endScope n =>
      simp only [perform, withLease] at hrefusal ⊢
      rcases hlease : s.lease? n with _ | l
      · rfl
      · simp only [hlease] at hrefusal ⊢
        rcases error_or_alreadyGone_of_isRefusal hrefusal with ⟨e, herror⟩ | ⟨k, hgone⟩
        · rw [result_endScope] at herror
          cases herror
        · exact store_endScope_of_alreadyGone hgone

theorem store_perform_of_isIdle {s : Session} {request : Request} (hidle : s.isIdle request) :
    (s.perform request).1.store = s.store := by
  rcases Bool.or_eq_true_iff.mp hidle with hasks | hrefusal
  · rw [s.perform_of_asks hasks]
  · exact store_perform_of_isRefusal hrefusal

/-- Only a lease that is taken makes the list of leases longer. -/
private theorem size_leases_perform {s : Session} {request : Request}
    (hlease : ∀ key, request = .lease key → (s.perform request).2.isRefusal) :
    (s.perform request).1.leases.size = s.leases.size := by
  cases request with
  | create | apply | destroy | contains | size | isEmpty => rfl
  | applyLease d n b => rw [perform_of_asks s rfl]
  | lease key =>
      have hrefusal := hlease key rfl
      simp only [perform] at hrefusal ⊢
      rcases hresult : (s.store.lease key).result with e | l
      · rfl
      · rw [hresult] at hrefusal
        cases hrefusal
  | release n | endScope n =>
      simp only [perform, withLease]
      rcases s.lease? n with _ | l
      · rfl
      · simp [settleEnded, settle]

/-! ## Two sessions that differ in dead leases -/

/-- The session has the same store as another and holds all leases that the other
holds, under the same numbers. -/
structure Extends (t s : Session) : Prop where
  store_eq : t.store = s.store
  size_eq : t.leases.size = s.leases.size
  lease?_eq : ∀ n l, s.lease? n = some l → t.lease? n = some l

theorem Extends.refl (s : Session) : s.Extends s := ⟨rfl, rfl, fun _ _ => id⟩

private theorem lt_size_of_lease? {s : Session} {n : ℕ} {l : Lease} (hlease : s.lease? n = some l) :
    n < s.leases.size := by
  by_contra hn
  rw [lease?, Array.getElem?_eq_none (Nat.le_of_not_lt hn)] at hlease
  cases hlease

variable {s t : Session}

/-- A request that is left out in the second run. -/
theorem Extends.perform_of_isIdle (ht : t.Extends s) {request : Request}
    (hidle : s.isIdle request) : t.Extends (s.perform request).1 := by
  have hsize : (s.perform request).1.leases.size = s.leases.size := by
    refine size_leases_perform fun key hlease => ?_
    subst hlease
    exact hidle
  refine
    { store_eq := ht.store_eq.trans (store_perform_of_isIdle hidle).symm
      size_eq := ht.size_eq.trans hsize.symm
      lease?_eq := fun n l hlease => ht.lease?_eq n l ?_ }
  rw [lease?_perform (hsize ▸ lt_size_of_lease? hlease)] at hlease
  split at hlease
  · cases hlease
  · exact hlease

/-- The same reply settled in both sessions. -/
theorem Extends.settleEnded (ht : t.Extends s) (n : ℕ) (reply : Reply Unit) :
    (t.settleEnded n reply).1.Extends (s.settleEnded n reply).1 where
  store_eq := rfl
  size_eq := by simp [Session.settleEnded, settle, ht.size_eq]
  lease?_eq m l hlease := by
    rw [lease?_settleEnded] at hlease ⊢
    split at hlease
    · cases hlease
    · rename_i hne
      rw [if_neg hne]
      exact ht.lease?_eq m l hlease

/-- A lease that is taken in both sessions, under the same number. -/
theorem Extends.push (ht : t.Extends s) (store : Store) (l : Lease) :
    Extends ⟨store, t.leases.push (some l)⟩ ⟨store, s.leases.push (some l)⟩ where
  store_eq := rfl
  size_eq := by simp [ht.size_eq]
  lease?_eq n k hlease := by
    simp only [lease?, Array.getElem?_push, ht.size_eq] at hlease ⊢
    split at hlease
    · rename_i hn
      rw [if_pos hn]
      exact hlease
    · rename_i hn
      rw [if_neg hn]
      exact ht.lease?_eq n k hlease

theorem Extends.withStore (ht : t.Extends s) (store : Store) :
    Extends { t with store } { s with store } :=
  ⟨rfl, ht.size_eq, ht.lease?_eq⟩

/-- A request that ends a lease, unless it is refused because the lease is not
held. -/
theorem Extends.withLease (ht : t.Extends s) {n : ℕ} {request : Lease → Reply Unit}
    (hheld : s.lease? n ≠ none) :
    (t.withLease n fun l => t.settleEnded n (request l)).2 =
        (s.withLease n fun l => s.settleEnded n (request l)).2 ∧
      (t.withLease n fun l => t.settleEnded n (request l)).1.Extends
        (s.withLease n fun l => s.settleEnded n (request l)).1 := by
  obtain ⟨l, hlease⟩ := Option.ne_none_iff_exists'.mp hheld
  simp only [Session.withLease, hlease, ht.lease?_eq n l hlease]
  exact ⟨rfl, ht.settleEnded n _⟩

/-- A request that is carried out in both runs. -/
theorem Extends.perform (ht : t.Extends s) {request : Request} (hacts : ¬ s.isIdle request) :
    (t.perform request).2 = (s.perform request).2 ∧
      (t.perform request).1.Extends (s.perform request).1 := by
  have hheld : ∀ n, request = .release n ∨ request = .endScope n → s.lease? n ≠ none := by
    rintro n hcloses hnone
    apply hacts
    rcases hcloses with rfl | rfl
    all_goals simp [isIdle, Request.asks, Session.perform, Session.withLease, hnone,
      Outcome.isRefusal]
  have hstore := ht.store_eq
  cases request with
  | apply | applyLease | contains | size | isEmpty => exact absurd rfl hacts
  | create | destroy =>
      simp only [Session.perform, settle, hstore]
      exact ⟨trivial, ht.withStore _⟩
  | lease key =>
      simp only [Session.perform, hstore, ht.size_eq]
      rcases (s.store.lease key).result with e | l
      · exact ⟨rfl, ht.withStore _⟩
      · exact ⟨rfl, ht.push _ l⟩
  | release n =>
      simp only [Session.perform, hstore]
      exact ht.withLease (hheld n (.inl rfl))
  | endScope n =>
      simp only [Session.perform, hstore]
      exact ht.withLease (hheld n (.inr rfl))

/-! ## Runs -/

/-- What is left of requests and their outcomes when those are taken away that only
ask or are refused. -/
def effective (entries : List (Request × Outcome)) : List (Request × Outcome) :=
  entries.filter fun entry => !(entry.1.asks || entry.2.isRefusal)

/-- By induction on the requests, each of which is left out or carried out. -/
theorem Extends.run (ht : t.Extends s) (requests : List Request) :
    let kept := effective (requests.zip (s.run requests).2)
    (t.run (kept.map Prod.fst)).1.Extends (s.run requests).1 ∧
      (t.run (kept.map Prod.fst)).2 = kept.map Prod.snd := by
  induction requests generalizing s t with
  | nil => exact ⟨ht, rfl⟩
  | cons request rest ih =>
      have hfilter : (!(request.asks || (s.perform request).2.isRefusal)) = !s.isIdle request := rfl
      simp only [Session.run, List.zip_cons_cons, effective, List.filter_cons, hfilter] at ih ⊢
      rcases hidle : s.isIdle request with _ | _
      · obtain ⟨houtcome, hnext⟩ := ht.perform (Bool.eq_false_iff.mp hidle)
        obtain ⟨hrest, houtcomes⟩ := ih hnext
        simp only [Bool.not_false, if_true, List.map_cons, Session.run, houtcome, houtcomes]
        exact ⟨hrest, trivial⟩
      · exact ih (ht.perform_of_isIdle hidle)

/-- At every point of a course of requests, one that only asks changes nothing, and
one that is refused leaves the store as it is: its slots with their generations and
contexts, the free list in its order and the count of live contexts. So all such
requests can be left out. What remains is answered and logged as before, with the
same handles, and leads to the same store. -/
theorem run_without_idle (start : Session) (requests : List Request) :
    let run := start.run requests
    let kept := effective (requests.zip run.2)
    (∀ request, request.asks → (run.1.perform request).1 = run.1) ∧
      (∀ request, (run.1.perform request).2.isRefusal →
        (run.1.perform request).1.store = run.1.store) ∧
      (start.run (kept.map Prod.fst)).1.store = run.1.store ∧
      (start.run (kept.map Prod.fst)).2 = kept.map Prod.snd := by
  intro run kept
  obtain ⟨hextends, houtcomes⟩ := (Extends.refl start).run requests
  refine ⟨fun request hasks => ?_, fun request hrefusal => ?_, hextends.store_eq, houtcomes⟩
  · exact run.1.perform_of_asks hasks
  · exact store_perform_of_isRefusal hrefusal

/-- A lease whose context is destroyed before its scope ends, in a store for one
context: of six requests three have an effect. -/
theorem run_without_idle_dead_lease :
    let start := ofStore (.empty (some 1))
    let requests : List Request := [.lease (.replicate 16 0), .create (.replicate 16 0),
      .destroy ⟨0, .first⟩, .endScope 0, .contains ⟨0, .first⟩, .create (.replicate 24 0)]
    let run := start.run requests
    let kept : List Request :=
      [.lease (.replicate 16 0), .destroy ⟨0, .first⟩, .create (.replicate 24 0)]
    (effective (requests.zip run.2)).map Prod.fst = kept ∧
      (start.run kept).1.store = run.1.store ∧
      (run.1.perform (.contains ⟨0, ⟨2, by decide⟩⟩)).1 = run.1 ∧
      (run.1.perform (.destroy ⟨0, .first⟩)).2.isRefusal = true ∧
      (run.1.perform (.destroy ⟨0, .first⟩)).1.store = run.1.store := by
  intro start requests
  obtain ⟨hasks, hrefusal, hstore, -⟩ := run_without_idle start requests
  intro run kept
  have hkept : (effective (requests.zip (start.run requests).2)).map Prod.fst = kept := by
    decide
  rw [hkept] at hstore
  have hrefused : (run.1.perform (.destroy ⟨0, .first⟩)).2.isRefusal = true := by decide
  exact ⟨hkept, hstore, hasks (.contains ⟨0, ⟨2, by decide⟩⟩) rfl, hrefused,
    hrefusal (.destroy ⟨0, .first⟩) hrefused⟩

end Session

end Rijndael
