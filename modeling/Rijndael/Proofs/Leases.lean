import Rijndael.Proofs.DestroyedHandles
import Rijndael.Proofs.PlainKeys

/-!
# Contexts for the length of a scope

A lease gives its holder a context until the lease is released or its scope
ends, and anyone who knows the handle can destroy the context before that. So a
lease is in one of three conditions. It works while it is held and its context
is live. It is dead while it is held and its context is gone: it refuses every
block, and to end it changes nothing, whoever uses the slot by then. And it is
spent once it has ended.

What is left when no lease is held was created without one: then the store is
the map of the keys that were created by plain requests and not destroyed.

## Main results

* `Session.lease?_run` — what a run makes of a lease that was taken before it.
* `Session.guards_of_get?`, `Session.idles_of_get?` — a lease whose context is
  live, and one whose context is gone.
* `Session.run_leases` — the three conditions of a lease, and what is left when
  no lease is held.
-/

namespace Rijndael

/-- The request ends the lease of a number. -/
def Request.closes (n : ℕ) : Request → Bool
  | .release m | .endScope m => m == n
  | _ => false

private theorem Request.closes_iff {n : ℕ} {request : Request} :
    request.closes n ↔ request = .release n ∨ request = .endScope n := by
  cases request <;> simp [closes]

namespace Session

open Store

/-! ## The conditions of a lease -/

/-- A lease that works. Blocks are transformed under its context, and its end,
either way, takes out this context and no other. To release it is to destroy the
handle once. -/
structure Guards (s : Session) (n : ℕ) (h : Handle) (c : Context) : Prop where
  apply_eq : ∀ d b, (s.perform (.applyLease d n b)).2.answer = .ok (.block (c.apply d b))
  answer_eq : ∀ request, request.closes n → (s.perform request).2.answer = .ok .done
  get?_eq : ∀ request, request.closes n → ∀ k,
    (s.perform request).1.store.get? k = if k = h then none else s.store.get? k
  size_eq : ∀ request, request.closes n →
    (s.perform request).1.store.size + 1 = s.store.size
  release_eq : (s.perform (.release n)).2 = (s.perform (.destroy h)).2

/-- A lease that is held and whose context is gone. Its release tells so, the end
of its scope does not, and neither changes the store. -/
structure Idles (s : Session) (n : ℕ) (h : Handle) : Prop where
  apply_eq : ∀ d b, (s.perform (.applyLease d n b)).2.answer = .error (.invalidContext h)
  release_answer : (s.perform (.release n)).2.answer = .error (.invalidContext h)
  endScope_answer : (s.perform (.endScope n)).2.answer = .ok .done
  store_eq : ∀ request, request.closes n → (s.perform request).1.store = s.store
  release_eq : (s.perform (.release n)).2 = (s.perform (.destroy h)).2

/-- A lease that has ended: nothing is done through it any more, and its handle is
refused. -/
structure Spent (s : Session) (n : ℕ) (h : Handle) : Prop where
  apply_eq : ∀ d b, s.perform (.applyLease d n b) = (s, ⟨.ok .notHeld, []⟩)
  close_eq : ∀ request, request.closes n → s.perform request = (s, ⟨.ok .notHeld, []⟩)
  refuses : s.store.Refuses h

private theorem ends?_of_closes {s : Session} {n : ℕ} {h : Handle}
    (hlease : s.lease? n = some (.ofHandle h)) {request : Request}
    (hcloses : request.closes n) : s.ends? request = some h := by
  rcases Request.closes_iff.mp hcloses with rfl | rfl
  all_goals simp only [ends?, hlease, Option.map_some, Lease.ofHandle]

private theorem answer_endScope {s : Session} {n : ℕ} {h : Handle}
    (hlease : s.lease? n = some (.ofHandle h)) :
    (s.perform (.endScope n)).2.answer = .ok .done := by
  have hdone := (s.store.endScope_of_armed (l := .ofHandle h) rfl).1
  simp only [perform, withLease, hlease, settleEnded, settle, hdone, Except.map]

private theorem answer_applyLease {s : Session} {n : ℕ} {l : Lease} (hlease : s.lease? n = some l)
    (d : Direction) (b : Block) :
    (s.perform (.applyLease d n b)).2.answer = (s.store.apply d l.handle b).result.map .block := by
  simp only [perform, withLease, hlease, settle]

theorem guards_of_get? {s : Session} {l : Ledger} (hs : s.Matches l) {n : ℕ} {h : Handle}
    {c : Context} (hlease : s.lease? n = some (.ofHandle h)) (hget : s.store.get? h = some c) :
    s.Guards n h c := by
  have hdestroyed := destroy_destroyed s.store h
  have hok : (s.store.destroy h).result = .ok () := by
    rw [hdestroyed.result_eq, hget]
    rfl
  have hstore : ∀ request, request.closes n →
      (s.perform request).1.store = (s.store.destroy h).store := fun _ hcloses =>
    store_perform_of_ends hs (ends?_of_closes hlease hcloses)
  refine
    { apply_eq := fun d b => ?_
      answer_eq := fun request hcloses => ?_
      get?_eq := fun request hcloses k => ?_
      size_eq := fun request hcloses => ?_
      release_eq := ?_ }
  · rw [answer_applyLease hlease, Store.apply]
    simp only [Lease.ofHandle, hget, Except.map]
  · rcases Request.closes_iff.mp hcloses with rfl | rfl
    · rw [perform_release hlease]
      simp only [settleEnded, settle, Lease.ofHandle, hok, Except.map]
    · exact answer_endScope hlease
  · rw [hstore request hcloses, hdestroyed.get?_eq]
  · rw [hstore request hcloses]
    exact hdestroyed.live_eq hs.holds.wellFormed hok
  · rw [perform_release hlease]
    rfl

theorem idles_of_get? {s : Session} {l : Ledger} (hs : s.Matches l) {n : ℕ} {h : Handle}
    (hlease : s.lease? n = some (.ofHandle h)) (hget : s.store.get? h = none) :
    s.Idles n h := by
  have hrefuses : s.store.Refuses h := refuses_iff.mpr hget
  refine
    { apply_eq := fun d b => ?_
      release_answer := ?_
      endScope_answer := answer_endScope hlease
      store_eq := fun request hcloses => ?_
      release_eq := ?_ }
  · rw [answer_applyLease hlease]
    simp only [Lease.ofHandle, hrefuses.apply_result, Except.map]
  · rw [perform_release hlease]
    simp only [settleEnded, settle, Lease.ofHandle, hrefuses.destroy_result, Except.map]
  · rw [store_perform_of_ends hs (ends?_of_closes hlease hcloses), hrefuses.destroy_store]
  · rw [perform_release hlease]
    rfl

private theorem spent_of_lease? {s : Session} {n : ℕ} {h : Handle} (hlease : s.lease? n = none)
    (hget : s.store.get? h = none) : s.Spent n h where
  apply_eq d b := by simp only [perform, withLease, hlease]
  close_eq request hcloses := by
    rcases Request.closes_iff.mp hcloses with rfl | rfl
    all_goals simp only [perform, withLease, hlease]
  refuses := refuses_iff.mpr hget

/-! ## The list of leases -/

/-- A request leaves a lease that was taken as it is, unless it ends it. -/
theorem lease?_perform {s : Session} {n : ℕ} (hn : n < s.leases.size) (request : Request) :
    (s.perform request).1.lease? n = if request.closes n then none else s.lease? n := by
  cases request with
  | create | apply | destroy | contains | size | isEmpty => rfl
  | lease key =>
      simp only [perform]
      rcases (s.store.lease key).result with e | l
      · rfl
      · simp only [lease?, Array.getElem?_push_lt hn, Array.getElem?_eq_getElem hn]
        rfl
  | applyLease d m b =>
      simp only [perform, withLease]
      rcases s.lease? m with _ | l
      · rfl
      · rfl
  | release m | endScope m =>
      simp only [perform, withLease, Request.closes, beq_iff_eq]
      rcases hlease : s.lease? m with _ | l
      · by_cases hm : m = n
        · rw [if_pos hm, ← hm, hlease]
        · rw [if_neg hm]
      · exact s.lease?_settleEnded m n _

private theorem size_leases_le_perform (s : Session) (request : Request) :
    s.leases.size ≤ (s.perform request).1.leases.size := by
  cases request with
  | create | apply | destroy | contains | size | isEmpty => exact Nat.le_refl _
  | lease key =>
      simp only [perform]
      rcases (s.store.lease key).result with e | l
      · exact Nat.le_refl _
      · simp
  | applyLease d m b | release m | endScope m =>
      simp only [perform, withLease]
      rcases s.lease? m with _ | l
      · exact Nat.le_refl _
      · simp [settleEnded, settle]

/-- By induction on the requests: a lease stays held until a request ends it. -/
theorem lease?_run {s : Session} {n : ℕ} (hn : n < s.leases.size) (requests : List Request) :
    (s.run requests).1.lease? n =
      if requests.any (Request.closes n) then none else s.lease? n := by
  induction requests generalizing s with
  | nil => rfl
  | cons request rest ih =>
      have hnext := lease?_perform hn request
      have hrest := ih (Nat.lt_of_lt_of_le hn (s.size_leases_le_perform request))
      simp only [run, List.any_cons, Bool.or_eq_true]
      rw [hrest, hnext]
      by_cases hcloses : request.closes n = true
      · simp [hcloses]
      · simp [hcloses]

/-- By induction up to the request that ends the lease: that leaves nothing behind
its handle, which is not given out again. -/
private theorem get?_run_of_closes {s : Session} {l : Ledger} (hs : s.Matches l) {n : ℕ}
    {h : Handle} (hn : n < s.leases.size) (hlease : s.lease? n = some (.ofHandle h))
    (hissued : s.store.HasIssued h) {requests : List Request}
    (hcloses : requests.any (Request.closes n)) :
    (s.run requests).1.store.get? h = none := by
  induction requests generalizing s l with
  | nil => cases hcloses
  | cons request rest ih =>
      have hissued' := hasIssued_perform hs.holds.wellFormed request hissued
      by_cases hfirst : request.closes n = true
      · have hget := get?_perform_of_ends hs (ends?_of_closes hlease hfirst)
        exact get?_run_eq_none (hs.perform request).holds.wellFormed hissued' hget rest
      · have hnext := lease?_perform hn request
        rw [if_neg hfirst, hlease] at hnext
        rw [List.any_cons, Bool.eq_false_iff.mpr hfirst, Bool.false_or] at hcloses
        exact ih (hs.perform request)
          (Nat.lt_of_lt_of_le hn (s.size_leases_le_perform request)) hnext hissued' hcloses

/-- A lease that is taken has the next number, and its handle names the context of
the key. -/
private theorem exists_get?_of_leased {s : Session} {l : Ledger} (hs : s.Matches l)
    {key : List UInt8} {n : ℕ} {h : Handle}
    (hanswer : (s.perform (.lease key)).2.answer = .ok (.leased n h)) :
    n < (s.perform (.lease key)).1.leases.size ∧
      (s.perform (.lease key)).1.lease? n = some (.ofHandle h) ∧
      ∃ c, Context.ofBytes key = .ok c ∧ (s.perform (.lease key)).1.store.get? h = some c := by
  have hholds := (hs.perform (.lease key)).holds
  rw [hanswer] at hholds
  refine and_assoc.mp ⟨?_, hholds.get?_of_lookup h key (Finmap.lookup_insert _)⟩
  simp only [perform, Store.lease, Reply.map] at hanswer ⊢
  rcases hresult : (s.store.create key).result with e | k
  · rw [hresult] at hanswer
    cases hanswer
  · rw [hresult] at hanswer
    cases hanswer
    simp [lease?, Except.map, Lease.ofHandle]

/-! ## Runs with leases -/

/-- A lease that was taken works after any requests until a request ends it or its
context is destroyed, whoever does that. From then on it is spent or dead, also
if its slot has been taken by another context. When no lease is held, the store
is the map of the keys that were created without one and not destroyed. -/
theorem run_leases (limit : Option ℕ) (requests : List Request) :
    let run := (ofStore (.empty limit)).run requests
    let plain := (requests.zip run.2).filter fun entry => entry.1.isPlain
    (∀ key n h, (run.1.perform (.lease key)).2.answer = .ok (.leased n h) →
      ∃ c, Context.ofBytes key = .ok c ∧ ∀ later,
        let opened := (run.1.perform (.lease key)).1
        let s := (opened.run later).1
        if later.any (Request.closes n) then s.Spent n h
        else if h ∈ opened.destroyed later then s.Idles n h
        else s.Guards n h c) ∧
      ((∀ n, run.1.lease? n = none) →
        run.1.store.AnswersAs (Ledger.empty.replay plain).keys) := by
  intro run plain
  have hs := (matches_empty limit).run requests
  refine ⟨fun key n h hanswer => ?_, fun hnone => ?_⟩
  · have hopened := hs.perform (.lease key)
    obtain ⟨hn, hlease, c, hc, hget⟩ := exists_get?_of_leased hs hanswer
    refine ⟨c, hc, fun later => ?_⟩
    intro opened s
    have hlater : s.Matches _ := hopened.run later
    have hheld := lease?_run hn later
    have hnext := get?_run_of_get? hopened hget later
    split_ifs with hcloses hdestroyed
    · rw [if_pos hcloses] at hheld
      have hissued := hopened.holds.wellFormed.hasIssued_of_get? hget
      exact spent_of_lease? hheld (get?_run_of_closes hopened hn hlease hissued hcloses)
    · rw [if_neg hcloses, hlease] at hheld
      rw [if_pos hdestroyed] at hnext
      exact idles_of_get? hlater hheld hnext
    · rw [if_neg hcloses, hlease] at hheld
      rw [if_neg hdestroyed] at hnext
      exact guards_of_get? hlater hheld hnext
  · have hparted := Parted.run (p := .empty) (matches_empty limit) (parted_empty limit) requests
    exact hparted.eq hnone ▸ hs.holds.answersAs

/-- A lease whose context is destroyed and whose slot another context takes: it
works, then it is dead, then it is spent, and the two plain contexts are left. -/
theorem run_leases_reused_slot :
    let run := (ofStore (.empty none)).run [.create (.replicate 16 0)]
    let opened := (run.1.perform (.lease (.replicate 24 1))).1
    let later : List Request := [.destroy ⟨1, .first⟩, .create (.replicate 32 2)]
    let requests : List Request :=
      .create (.replicate 16 0) :: .lease (.replicate 24 1) :: later ++ [.release 0]
    let all := (ofStore (.empty none)).run requests
    let plain := (requests.zip all.2).filter fun entry => entry.1.isPlain
    (run.1.perform (.lease (.replicate 24 1))).2.answer = .ok (.leased 0 ⟨1, .first⟩) ∧
      (∃ c, opened.Guards 0 ⟨1, .first⟩ c) ∧
      (opened.run later).1.store.contains ⟨1, ⟨2, by decide⟩⟩ = true ∧
      (opened.run later).1.Idles 0 ⟨1, .first⟩ ∧
      (opened.run (later ++ [.release 0])).1.Spent 0 ⟨1, .first⟩ ∧
      (∀ n, all.1.lease? n = none) ∧
      all.1.store.size = 2 ∧ all.1.store.AnswersAs (Ledger.empty.replay plain).keys := by
  intro run opened later requests all plain
  have hanswer : (run.1.perform (.lease (.replicate 24 1))).2.answer =
      .ok (.leased 0 ⟨1, .first⟩) := by decide
  have hnone : ∀ n, all.1.lease? n = none := by
    have hleases : all.1.leases = #[none] := by decide
    intro n
    rw [lease?, hleases]
    rcases n with _ | n
    · rfl
    · rfl
  obtain ⟨c, -, hcourse⟩ := (run_leases none _).1 _ _ _ hanswer
  have hopened := hcourse []
  have hlater := hcourse later
  have hended := hcourse (later ++ [.release 0])
  refine ⟨hanswer, ⟨c, ?_⟩, by decide, ?_, ?_, hnone, by decide, (run_leases none _).2 hnone⟩
  · exact hopened
  · exact hlater
  · exact hended

end Session

end Rijndael
