import Rijndael.LogFilter
import Rijndael.Program.Failure
import Rijndael.Store.Lease

/-!
# What a command works with

A command works on a store, prints lines and writes log entries. An `Action`
is a step of a command: it changes the `Console` and succeeds or fails, and
what it did before it failed stays done.
-/

namespace Rijndael.Program

/-- An entry in the log of the program. -/
inductive Entry where
  | store (event : StoreEvent)
  /-- The demonstration uses the context behind this handle. -/
  | demoContext (handle : Handle)
  /-- A sample of the check went well. -/
  | sampleOk (sample : Nat)
  deriving DecidableEq, Repr

namespace Entry

/-- The level of an entry. -/
def level : Entry → LogLevel
  | store event => event.level
  | demoContext _ => .info
  | sampleOk _ => .debug

/-- The part of the program that an entry comes from. -/
def target : Entry → String
  | store _ => "aes_ctx::store"
  | demoContext _ | sampleOk _ => "rijndael"

/-- The text of an entry. -/
def message : Entry → String
  | store event => event.message
  | demoContext handle => s!"demo context {handle.text}"
  | sampleOk sample => s!"sample {sample} ok"

def line (entry : Entry) : String :=
  s!"{entry.level.name} {entry.target} {entry.message}"

end Entry

/-- The store that a command works on and what it has written so far. -/
structure Console where
  store : Store
  /-- The log entries to keep. -/
  filter : LogFilter
  printed : Array String
  /-- The entries logged so far, as far as they are kept. -/
  log : Array Entry

/-- The console at the start of a command. -/
def Console.start (s : Store) (filter : LogFilter) : Console := ⟨s, filter, #[], #[]⟩

def Console.record (console : Console) (entry : Entry) : Console :=
  if console.filter.shows entry.target entry.level then
    { console with log := console.log.push entry }
  else
    console

/-- A step of a command. -/
abbrev Action := EStateM Failure Console

namespace Action

def log (entry : Entry) : Action Unit := modify fun console => console.record entry

def print (line : String) : Action Unit :=
  modify fun console => { console with printed := console.printed.push line }

/-- Puts a request to the store, whose errors become failures by `failure`. -/
def ask {α : Type} (failure : StoreError → Failure) (request : Store → Reply α) : Action α :=
  fun console =>
    let reply := request console.store
    let console := reply.events.foldl (fun console event => console.record (.store event))
      { console with store := reply.store }
    match reply.result with
    | .ok value => .ok value console
    | .error error => .error (failure error) console

/-- Ends the scope of a lease, which never fails. -/
def endScope (lease : Lease) : Action Unit := ask .release fun s => s.endScope lease

/-- Runs an action and ends the scope of a lease if the action fails. -/
def guarding {α : Type} (lease : Lease) (action : Action α) : Action α := do
  try action
  catch failure =>
    endScope lease
    throw failure

/-- Runs an action with a context that lives just as long. -/
def withLease {α : Type} (c : Context) (action : Handle → Action α) : Action α := do
  let lease ← ask .create fun s => s.leaseContext c
  let value ← guarding lease (action lease.handle)
  endScope lease
  return value

end Action

end Rijndael.Program
