import Rijndael.Key.Size
import Rijndael.LogLevel
import Rijndael.Store.Handle

/-!
# Errors and log entries of a store

What a store answers when it refuses a request, and the entries it writes to
its log. Both are data; their texts are given by `StoreError.message` and
`StoreEvent.message`.
-/

namespace Rijndael

/-- Why a store refuses a request. -/
inductive StoreError where
  | length (error : LengthError)
  /-- The handle names no context, or one that has been destroyed. -/
  | invalidContext (handle : Handle)
  /-- As many contexts are live as the store may hold. -/
  | full (limit : Nat)
  deriving DecidableEq, Repr

def StoreError.message : StoreError → String
  | .length error => error.message
  | .invalidContext handle => s!"invalid or released context handle {handle.text}"
  | .full limit => s!"context store is full ({limit} live contexts)"

/-- An entry in the log of a store. -/
inductive StoreEvent where
  /-- A context was created; `live` contexts are live after it. -/
  | created (size : KeySize) (handle : Handle) (live : Nat)
  /-- A context was destroyed; `live` contexts are live after it. -/
  | destroyed (handle : Handle) (live : Nat)
  /-- A slot has used its last generation and is given up. -/
  | retiring (index : UInt32)
  /-- A context was not created because the store holds `limit` already. -/
  | refused (limit : Nat)
  | rejected (handle : Handle)
  /-- A lease ended whose context had been destroyed before. -/
  | alreadyGone (handle : Handle)
  deriving DecidableEq, Repr

namespace StoreEvent

/-- The level of an entry: what a store refuses is a warning. -/
def level : StoreEvent → LogLevel
  | created .. | destroyed .. | retiring .. => .debug
  | refused .. | rejected .. | alreadyGone .. => .warn

def message : StoreEvent → String
  | created size handle live => s!"created {size.name} context {handle.text} ({live} live)"
  | destroyed handle live => s!"destroyed context {handle.text} ({live} live)"
  | retiring index => s!"retiring slot {index.toNat}: generations exhausted"
  | refused limit => s!"refusing new context: {limit} contexts already live"
  | rejected handle => s!"rejected context handle {handle.text}"
  | alreadyGone handle =>
    s!"scoped context {handle.text} already gone: {(StoreError.invalidContext handle).message}"

end StoreEvent

end Rijndael
