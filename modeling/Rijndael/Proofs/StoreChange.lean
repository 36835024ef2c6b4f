import Rijndael.Proofs.Ledger

/-!
# What a request changes

Whatever is asked of a session, and however it is answered, the store is left
as it was, a context is put in, or a context is taken out. `Store.Changed` has
one constructor for each. What holds of every run of requests is proved from
these three and from nothing else.

## Main results

* `Changed.wellFormed` — each change keeps the table in order.
* `Session.perform_changed` — a request makes one change, and its answer gives
  out a handle just when that change is a creation.
* `Session.preserved_run` — what each change preserves, every run preserves.
-/

namespace Rijndael

/-- What becomes of a store. -/
inductive Change where
  | nothing
  /-- A context is put in, and the handle is given out for it. -/
  | created (handle : Handle)
  /-- The context behind the handle is taken out. -/
  | destroyed (handle : Handle)

/-- The handle that is given out with a change. -/
def Change.issued? : Change → Option Handle
  | created h => some h
  | nothing | destroyed _ => none

/-- The handle whose context is taken out with a change. -/
def Change.destroyed? : Change → Option Handle
  | destroyed h => some h
  | nothing | created _ => none

/-- The handle that an answer gives out. -/
def Outcome.issued? (o : Outcome) : Option Handle :=
  match o.answer with
  | .ok (.handle h) | .ok (.leased _ h) => some h
  | _ => none

namespace Store

/-- The store after a change. -/
inductive Changed (s : Store) : Change → Store → Prop
  | nothing : Changed s .nothing s
  | created {c : Context} {r : Reply Handle} {h : Handle} (hr : Inserted s c r)
      (hok : r.result = .ok h) : Changed s (.created h) r.store
  | destroyed {r : Reply Unit} {h : Handle} (hr : Destroyed s h r)
      (hok : r.result = .ok ()) : Changed s (.destroyed h) r.store

theorem Changed.of_store_eq {s t : Store} (hstore : t = s) : Changed s .nothing t := by
  rw [hstore]
  exact .nothing

theorem Changed.wellFormed {s t : Store} {change : Change} (hs : s.WellFormed)
    (hc : Changed s change t) : t.WellFormed := by
  cases hc with
  | nothing => exact hs
  | created hr => exact hr.wellFormed hs
  | destroyed hr => exact hr.wellFormed hs

theorem Changed.limit_eq {s t : Store} {change : Change} (hc : Changed s change t) :
    t.limit = s.limit := by
  cases hc with
  | nothing => rfl
  | created hr => cases hr <;> rfl
  | destroyed hr => cases hr <;> rfl

/-- The table does not shrink. -/
theorem Changed.size_slots_le {s t : Store} {change : Change} (hc : Changed s change t) :
    s.slots.size ≤ t.slots.size := by
  cases hc with
  | nothing => exact Nat.le_refl _
  | created hr => cases hr <;> simp
  | destroyed hr => cases hr <;> simp [reject]

/-- A key that is refused leaves the store as it was, whichever reason there
is. -/
theorem store_create_of_error {s : Store} {key : List UInt8} {e : StoreError}
    (herror : (s.create key).result = .error e) : (s.create key).store = s := by
  revert herror
  unfold create
  rcases Context.ofBytes key with _ | c
  · exact fun _ => rfl
  · simp only [insert]
    rcases s.reachedLimit? with _ | limit
    · rcases s.place? c with _ | placement
      · exact fun _ => rfl
      · exact nofun
    · exact fun _ => rfl

theorem store_destroy_of_error {s : Store} {h : Handle} {e : StoreError}
    (herror : (s.destroy h).result = .error e) : (s.destroy h).store = s :=
  (destroy_destroyed s h).store_eq_of_error herror

theorem create_changed {s : Store} (hs : s.WellFormed) (key : List UInt8) :
    (∃ h, (s.create key).result = .ok h ∧ Changed s (.created h) (s.create key).store) ∨
      ∃ e, (s.create key).result = .error e ∧ (s.create key).store = s := by
  unfold create
  rcases Context.ofBytes key with e | c
  · exact .inr ⟨.length e, rfl, rfl⟩
  · have hr := insert_inserted hs c
    rcases hresult : (s.insert c).result with e | h
    · exact .inr ⟨e, rfl, hr.store_eq_of_error hresult⟩
    · exact .inl ⟨h, rfl, .created hr hresult⟩

theorem destroy_changed (s : Store) (h : Handle) :
    ((s.destroy h).result = .ok () ∧ Changed s (.destroyed h) (s.destroy h).store) ∨
      ∃ e, (s.destroy h).result = .error e ∧ (s.destroy h).store = s := by
  have hr := destroy_destroyed s h
  rcases hresult : (s.destroy h).result with e | ⟨⟩
  · exact .inr ⟨e, rfl, hr.store_eq_of_error hresult⟩
  · exact .inl ⟨rfl, .destroyed hr hresult⟩

/-- The destruction of a handle as a change, whatever the answer. -/
theorem exists_changed_destroy (s : Store) (h : Handle) :
    ∃ change, Changed s change (s.destroy h).store ∧ change.issued? = none := by
  rcases s.destroy_changed h with ⟨-, hchanged⟩ | ⟨e, -, hstore⟩
  · exact ⟨_, hchanged, rfl⟩
  · exact ⟨.nothing, .of_store_eq hstore, rfl⟩

/-- The end of a scope destroys a handle or does nothing. -/
private theorem store_endScope (s : Store) (l : Lease) :
    (s.endScope l).store = s ∨ (s.endScope l).store = (s.destroy l.handle).store := by
  by_cases harmed : l.armed = true
  · exact .inr (s.endScope_of_armed harmed).2
  · exact .inl (by rw [endScope, if_neg harmed])

end Store

namespace Session

open Store

private theorem perform_create_changed {s : Session} (hs : s.store.WellFormed) (key : List UInt8) :
    ∃ change, Changed s.store change (s.perform (.create key)).1.store ∧
      (s.perform (.create key)).2.issued? = change.issued? ∧ change.destroyed? = none := by
  simp only [perform, settle]
  rcases create_changed hs key with ⟨h, hok, hchanged⟩ | ⟨e, herror, hstore⟩
  · exact ⟨.created h, hchanged, by rw [hok]; rfl, rfl⟩
  · exact ⟨.nothing, .of_store_eq hstore, by rw [herror]; rfl, rfl⟩

private theorem perform_lease_changed {s : Session} (hs : s.store.WellFormed) (key : List UInt8) :
    ∃ change, Changed s.store change (s.perform (.lease key)).1.store ∧
      (s.perform (.lease key)).2.issued? = change.issued? ∧ change.destroyed? = none := by
  simp only [perform, Store.lease, Reply.map]
  rcases create_changed hs key with ⟨h, hok, hchanged⟩ | ⟨e, herror, hstore⟩
  · rw [hok]
    exact ⟨.created h, hchanged, rfl, rfl⟩
  · rw [herror]
    exact ⟨.nothing, .of_store_eq hstore, rfl, rfl⟩

/-- An answer that gives out nothing, whether it is a success or not. -/
theorem issued?_done (result : Except StoreError Unit) (events : List StoreEvent) :
    Outcome.issued? ⟨result.map fun _ => .done, events⟩ = none := by
  cases result <;> rfl

private theorem perform_apply_changed (s : Session) (d : Direction) (h : Handle) (b : Block) :
    ∃ change, Changed s.store change (s.settle (s.store.apply d h b) .block).1.store ∧
      (s.settle (s.store.apply d h b) .block).2.issued? = change.issued? ∧
      change.destroyed? = none := by
  refine ⟨.nothing, ?_, ?_, rfl⟩
  · simp only [settle, store_apply]
    exact .nothing
  · simp only [settle]
    cases (s.store.apply d h b).result <;> rfl

/-- A request that ends a lease destroys a handle or does nothing. -/
private theorem settleEnded_changed (s : Session) (n : ℕ) {reply : Reply Unit} {h : Handle}
    (hreply : reply.store = s.store ∨ reply.store = (s.store.destroy h).store) :
    ∃ change, Changed s.store change (s.settleEnded n reply).1.store ∧
      (s.settleEnded n reply).2.issued? = change.issued? := by
  simp only [settleEnded, settle, issued?_done]
  rcases hreply with hstore | hstore
  · exact ⟨.nothing, .of_store_eq hstore, rfl⟩
  · obtain ⟨change, hchanged, hissued⟩ := s.store.exists_changed_destroy h
    exact ⟨change, hstore ▸ hchanged, hissued.symm⟩

/-- The handle whose context a request is to destroy. -/
def ends? (s : Session) : Request → Option Handle
  | .destroy h => some h
  | .release n | .endScope n => (s.lease? n).map Lease.handle
  | _ => none

private theorem perform_changed_of_ends {s : Session} {request : Request} {h : Handle}
    (hends : s.ends? request = some h) :
    ∃ change, Changed s.store change (s.perform request).1.store ∧
      (s.perform request).2.issued? = change.issued? := by
  cases request with
  | destroy =>
      cases hends
      obtain ⟨change, hchanged, hissued⟩ := s.store.exists_changed_destroy h
      exact ⟨change, hchanged, (issued?_done _ _).trans hissued.symm⟩
  | release n =>
      obtain ⟨lease, hlease, rfl⟩ := Option.map_eq_some_iff.mp hends
      simp only [perform, withLease, hlease]
      exact s.settleEnded_changed n (.inr (store_release s.store lease))
  | endScope n =>
      obtain ⟨lease, hlease, rfl⟩ := Option.map_eq_some_iff.mp hends
      simp only [perform, withLease, hlease]
      exact s.settleEnded_changed n (s.store.store_endScope lease)
  | create | apply | contains | size | isEmpty | lease | applyLease => cases hends

/-- A request that is to destroy nothing destroys nothing. -/
theorem perform_changed_of_ends_eq_none {s : Session} (hs : s.store.WellFormed)
    {request : Request} (hends : s.ends? request = none) :
    ∃ change, Changed s.store change (s.perform request).1.store ∧
      (s.perform request).2.issued? = change.issued? ∧ change.destroyed? = none := by
  cases request with
  | create key => exact perform_create_changed hs key
  | lease key => exact perform_lease_changed hs key
  | contains | size | isEmpty => exact ⟨.nothing, .nothing, rfl, rfl⟩
  | apply d h b => exact s.perform_apply_changed d h b
  | applyLease d n b =>
      simp only [perform, withLease]
      rcases s.lease? n with _ | lease
      · exact ⟨.nothing, .nothing, rfl, rfl⟩
      · exact s.perform_apply_changed d lease.handle b
  | destroy h => cases hends
  | release n | endScope n =>
      have hnotHeld : s.lease? n = none := Option.map_eq_none_iff.mp hends
      simp only [perform, withLease, hnotHeld]
      exact ⟨.nothing, .nothing, rfl, rfl⟩

/-- Every request makes one of the three changes, and hands out the handle of
the change. -/
theorem perform_changed {s : Session} (hs : s.store.WellFormed) (request : Request) :
    ∃ change, Changed s.store change (s.perform request).1.store ∧
      (s.perform request).2.issued? = change.issued? := by
  rcases hends : s.ends? request with _ | h
  · obtain ⟨change, hchanged, hissued, -⟩ := perform_changed_of_ends_eq_none hs hends
    exact ⟨change, hchanged, hissued⟩
  · exact perform_changed_of_ends hends

/-- What every change preserves is preserved by every run, by induction on the
requests. -/
theorem preserved_run {P : Store → Prop}
    (hstep : ∀ {s t : Store} {change : Change},
      s.WellFormed → Changed s change t → P s → P t)
    {s : Session} (hs : s.store.WellFormed) (hP : P s.store) (requests : List Request) :
    P (s.run requests).1.store := by
  induction requests generalizing s with
  | nil => exact hP
  | cons request rest ih =>
      obtain ⟨change, hchanged, -⟩ := perform_changed hs request
      exact ih (hchanged.wellFormed hs) (hstep hs hchanged hP)

theorem wellFormed_run {s : Session} (hs : s.store.WellFormed) (requests : List Request) :
    (s.run requests).1.store.WellFormed :=
  preserved_run (fun hs hchanged _ => hchanged.wellFormed hs) hs hs requests

end Session

end Rijndael
