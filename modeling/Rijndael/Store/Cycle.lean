import Rijndael.Store.Basic

/-!
# Creating and destroying in turn

A turn creates a context and destroys it at once. Repeating turns on a store
uses up the generations of one slot after the other.
-/

namespace Rijndael.Store

/-- Takes `n` turns and answers with the handle of the last, or with `last` if
there are none. The log keeps only the entries of a turn that fails, which is
then the last one taken. -/
def cycle (s : Store) (key : List UInt8) : (n : Nat) → (last : Option Handle) →
    Reply (Option Handle)
  | 0, last => ⟨.ok last, s, []⟩
  | n + 1, _ =>
    let created := s.create key
    match created.result with
    | .error error => ⟨.error error, created.store, created.events⟩
    | .ok handle =>
      let destroyed := created.store.destroy handle
      match destroyed.result with
      | .error error => ⟨.error error, destroyed.store, created.events ++ destroyed.events⟩
      | .ok () => cycle destroyed.store key n (some handle)

end Rijndael.Store
