import Rijndael.Store.Lease

/-!
# Sessions with a store

A `Session` is a store together with the leases that are held on it. Requests
are data, so that a whole course of events is a list of requests, and `run`
tells what each of them is answered.

A lease is known by its number in the order in which the leases were taken. A
lease that was released or whose scope has ended is no longer held.
-/

namespace Rijndael

/-- A request to a store or through a lease. -/
inductive Request where
  | create (key : List UInt8)
  | apply (d : Direction) (handle : Handle) (block : Block)
  | destroy (handle : Handle)
  | contains (handle : Handle)
  | size
  | isEmpty
  | lease (key : List UInt8)
  | applyLease (d : Direction) (lease : Nat) (block : Block)
  | release (lease : Nat)
  | endScope (lease : Nat)
  deriving DecidableEq

/-- What a request is answered when it succeeds. -/
inductive Answer where
  | done
  | handle (handle : Handle)
  | block (block : Block)
  | truth (value : Bool)
  | count (value : Nat)
  | leased (lease : Nat) (handle : Handle)
  | notHeld
  deriving DecidableEq

/-- The answer to a request and the entries that it adds to the log. -/
structure Outcome where
  answer : Except StoreError Answer
  events : List StoreEvent

structure Session where
  store : Store
  /-- The leases in the order in which they were taken, those that are no
  longer held left blank. -/
  leases : Array (Option Lease)

namespace Session

/-- The session with a store on which no lease was taken. -/
def ofStore (s : Store) : Session := ⟨s, #[]⟩

/-- The lease of a number, if it is held. -/
def lease? (s : Session) (n : Nat) : Option Lease := s.leases[n]?.join

/-- The session after a reply that leaves the leases alone, and the outcome. -/
def settle {α : Type} (s : Session) (reply : Reply α) (answer : α → Answer) :
    Session × Outcome :=
  ({ s with store := reply.store }, ⟨reply.result.map answer, reply.events⟩)

/-- The session after a reply that ends the lease of a number. -/
def settleEnded (s : Session) (n : Nat) (reply : Reply Unit) : Session × Outcome :=
  settle { s with leases := s.leases.setIfInBounds n none } reply fun _ => .done

/-- The session after a request through a lease, which does nothing if the
lease is not held. -/
def withLease (s : Session) (n : Nat) (request : Lease → Session × Outcome) :
    Session × Outcome :=
  match s.lease? n with
  | some lease => request lease
  | none => (s, ⟨.ok .notHeld, []⟩)

def perform (s : Session) : Request → Session × Outcome
  | .create key => s.settle (s.store.create key) .handle
  | .apply d handle block => s.settle (s.store.apply d handle block) .block
  | .destroy handle => s.settle (s.store.destroy handle) fun _ => .done
  | .contains handle => (s, ⟨.ok (.truth (s.store.contains handle)), []⟩)
  | .size => (s, ⟨.ok (.count s.store.size), []⟩)
  | .isEmpty => (s, ⟨.ok (.truth s.store.isEmpty), []⟩)
  | .lease key =>
    let reply := s.store.lease key
    match reply.result with
    | .ok lease =>
      ({ store := reply.store, leases := s.leases.push (some lease) },
        ⟨.ok (.leased s.leases.size lease.handle), reply.events⟩)
    | .error error => ({ s with store := reply.store }, ⟨.error error, reply.events⟩)
  | .applyLease d n block =>
    s.withLease n fun lease => s.settle (s.store.apply d lease.handle block) .block
  | .release n => s.withLease n fun lease => s.settleEnded n (s.store.release lease)
  | .endScope n => s.withLease n fun lease => s.settleEnded n (s.store.endScope lease)

/-- Carries out requests one after the other and collects their outcomes. -/
def run (s : Session) : List Request → Session × List Outcome
  | [] => (s, [])
  | request :: rest =>
    let (next, outcome) := s.perform request
    let (final, outcomes) := next.run rest
    (final, outcome :: outcomes)

end Session

end Rijndael
