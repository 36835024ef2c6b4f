import Rijndael.Field
import Rijndael.ByteTable

/-!
# The byte substitution and the round constants

The substitution sends a byte to its inverse in the field and then through an
affine map over the two-element field. Both directions are tabulated once: the
forward table is computed from the formula and the backward table by inverting
the forward one.
-/

namespace Rijndael

/-- The affine map of the substitution: each bit of the result is the sum of
five cyclically neighbouring bits of `b` and one bit of `0x63`. -/
def affine (b : UInt8) : UInt8 :=
  let rotated (n : Nat) : UInt8 := ⟨b.toBitVec.rotateLeft n⟩
  b ^^^ rotated 1 ^^^ rotated 2 ^^^ rotated 3 ^^^ rotated 4 ^^^ 0x63

def substitutionTable : ByteTable := .ofFn fun b => affine (Field.inv b)

def inverseTable : ByteTable := substitutionTable.invert

def subByte (b : UInt8) : UInt8 := substitutionTable.get b

def invSubByte (b : UInt8) : UInt8 := inverseTable.get b

/-- The first `n` powers of `x` in the field, from `a` on. -/
def powersFrom : (n : Nat) → UInt8 → List UInt8
  | 0, _ => []
  | n + 1, a => a :: powersFrom n (Field.xtime a)

theorem length_powersFrom (n : Nat) (a : UInt8) : (powersFrom n a).length = n := by
  induction n generalizing a with
  | zero => rfl
  | succ n ih => simp [powersFrom, ih]

/-- The ten round constants: the powers `x⁰` to `x⁹`. -/
def roundConstants : Vector UInt8 10 :=
  ⟨(powersFrom 10 1).toArray, by simp [length_powersFrom]⟩

theorem subByte_eq (b : UInt8) : subByte b = affine (Field.inv b) :=
  ByteTable.get_ofFn _ b

end Rijndael
