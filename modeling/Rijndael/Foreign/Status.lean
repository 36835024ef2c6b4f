import Rijndael.Store.Event
import Rijndael.Text.Digits

/-!
# Status codes and log entries of the foreign interface

Callers from outside see a status code in place of an error, and a raw handle
that is no handle at all is logged under its number.
-/

namespace Rijndael.Foreign

/-- What a call from outside is answered. -/
inductive Status where
  | ok
  | invalidKeyLength
  | invalidContext
  | nullPointer
  | capacityExhausted
  deriving DecidableEq, Repr

namespace Status

def code : Status → Nat
  | ok => 0
  | invalidKeyLength => 1
  | invalidContext => 2
  | nullPointer => 3
  | capacityExhausted => 4

/-- The status for an error of the store. Blocks always have sixteen bytes
here, so that a wrong block length has no status of its own. -/
def ofError : StoreError → Status
  | .length (.key _) => invalidKeyLength
  | .length (.block _) | .invalidContext _ => invalidContext
  | .full _ => capacityExhausted

/-- The status for the result of an operation on the store. -/
def ofResult {α : Type} : Except StoreError α → Status
  | .ok _ => ok
  | .error error => ofError error

theorem ofResult_eq_ok {α : Type} {result : Except StoreError α} :
    ofResult result = ok ↔ ∃ value, result = .ok value := by
  constructor
  · intro hok
    cases result with
    | ok value => exact ⟨value, rfl⟩
    | error error => rcases error with (_ | _) | _ | _ <;> cases hok
  · rintro ⟨value, rfl⟩
    rfl

end Status

/-- An entry in the log of the foreign interface. -/
inductive Event where
  | store (event : StoreEvent)
  /-- A number was passed that stands for no handle. -/
  | malformed (raw : UInt64)
  deriving DecidableEq, Repr

namespace Event

def level : Event → LogLevel
  | store event => event.level
  | malformed _ => .warn

def message : Event → String
  | store event => event.message
  | malformed raw => s!"rejected malformed context handle 0x{Text.hexNumber raw.toNat}"

end Event

end Rijndael.Foreign
