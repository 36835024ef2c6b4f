import Rijndael.Foreign.Calls

/-!
# Courses of calls

Calls are data here, so that all that a caller does is a list of calls, and
`run` tells what each of them hands back. The memory that a call points at is
given with the call, for between two calls the caller may change it at will.
-/

namespace Rijndael.Foreign

/-- A call together with the memory that it points at. -/
inductive Call where
  | create (key : KeyPointer) (out : Option UInt64)
  | transform {size : Nat} (d : Direction) (raw : UInt64) (memory : Memory size)
      (input output : Option (Window size))
  | destroy (raw : UInt64)
  | count

/-- What a call hands back: a status and the memory after the call, or a
number. -/
inductive Returned where
  | created (status : Status) (out : Option UInt64)
  | transformed {size : Nat} (status : Status) (memory : Memory size)
  | destroyed (status : Status)
  | counted (contexts : Nat)

/-- The status, for the calls that have one. -/
def Returned.status? : Returned → Option Status
  | created status _ | transformed status _ | destroyed status => some status
  | counted _ => none

def perform (s : Store) : Call → Store × Returned
  | .create key out =>
    let called := create s key out
    (called.store, .created called.status called.memory)
  | .transform d raw memory input output =>
    let called := transform s d raw memory input output
    (called.store, .transformed called.status called.memory)
  | .destroy raw =>
    let called := destroy s raw
    (called.store, .destroyed called.status)
  | .count => (s, .counted (count s))

/-- Carries out calls one after the other and collects what they hand back. -/
def run (s : Store) : List Call → Store × List Returned
  | [] => (s, [])
  | call :: rest =>
    let (next, returned) := perform s call
    let (final, others) := run next rest
    (final, returned :: others)

end Rijndael.Foreign
