/-!
# Lengths that are refused

Keys have sixteen, twenty-four or thirty-two bytes and blocks have sixteen. A
byte string of another length is refused with a `LengthError`, which remembers
the length that was found.
-/

namespace Rijndael

/-- A byte string whose length fits no key, or no block. -/
inductive LengthError where
  | key (length : Nat)
  | block (length : Nat)
  deriving DecidableEq, Repr

def LengthError.message : LengthError → String
  | .key length =>
    s!"invalid AES key length: {length} bytes (expected 16, 24, or 32)"
  | .block length =>
    s!"invalid AES block length: {length} bytes (expected 16)"

end Rijndael
