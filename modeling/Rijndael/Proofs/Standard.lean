import Rijndael.Proofs.ByteField
import Rijndael.Key.Schedule

/-!
# The cipher of FIPS-197

The two transformations of a block and the expansion of a key, written down
from the standard. Nothing here refers to the steps of `Rijndael.Block` or to
the tables of `Rijndael.Substitution`: bytes are elements of the field, the
state is a four by four matrix of bytes, and columns are polynomials over the
field. The definitions are there to be compared with, not to be run.

## Main definitions

* `Standard.subByte` and `Standard.invSubByte`, inversion in the field and the
  affine map, bit by bit;
* `Standard.shiftRows`, `Standard.mixColumns`, `Standard.addRoundKey` and their
  inverses on a `Standard.State`;
* `Standard.cipher` and `Standard.invCipher`, the transformations of a block;
* `Standard.temp`, the word that the key expansion adds at each place;
* `Block.matrix` and `Block.ofMatrix`, between blocks and states;
* `KeySchedule.key`, the round keys by their numbers.
-/

namespace Rijndael.Standard

open Polynomial
open Rijndael.Field (GF256 modulus element byteEquiv)

/-! ## Bytes -/

/-- The inverse of a byte as an element of the field; zero goes to zero. -/
noncomputable def invertByte (b : UInt8) : UInt8 := byteEquiv.symm (element b)⁻¹

/-- Bit `i` of a byte. Places are counted modulo eight. -/
def bit (b : UInt8) (i : ℕ) : Bool := b.toBitVec.getLsbD (i % 8)

/-- The byte of eight bits. -/
def ofBits (bits : Fin 8 → Bool) : UInt8 := ⟨BitVec.ofFnLE bits⟩

def affine (b : UInt8) : UInt8 :=
  ofBits fun i =>
    bit b i ^^ bit b (i + 4) ^^ bit b (i + 5) ^^ bit b (i + 6) ^^ bit b (i + 7) ^^ bit 0x63 i

def invAffine (b : UInt8) : UInt8 :=
  ofBits fun i => bit b (i + 2) ^^ bit b (i + 5) ^^ bit b (i + 7) ^^ bit 0x05 i

noncomputable def subByte (b : UInt8) : UInt8 := affine (invertByte b)

noncomputable def invSubByte (b : UInt8) : UInt8 := invertByte (invAffine b)

/-! ## States -/

/-- The state: rows first, then columns. -/
abbrev State := Matrix (Fin 4) (Fin 4) UInt8

noncomputable def subBytes (s : State) : State := s.map subByte

noncomputable def invSubBytes (s : State) : State := s.map invSubByte

/-- Row `r` rotated to the left by `r` places; columns are added modulo four. -/
def shiftRows (s : State) : State := Matrix.of fun r c => s r (c + r)

/-- Row `r` rotated to the right by `r` places. -/
def invShiftRows (s : State) : State := Matrix.of fun r c => s r (c - r)

/-- A column of the state as a polynomial over the field. -/
noncomputable def columnPolynomial (s : State) (c : Fin 4) : GF256[X] :=
  ∑ r : Fin 4, C (element (s r c)) * X ^ (r : ℕ)

/-- Each column multiplied by a polynomial modulo `x⁴ + 1`. -/
noncomputable def multiplyColumns (a : GF256[X]) (s : State) : State :=
  Matrix.of fun r c =>
    byteEquiv.symm (((a * columnPolynomial s c) %ₘ (X ^ 4 + 1)).coeff r)

/-- The polynomial `{03}x³ + {01}x² + {01}x + {02}`. -/
noncomputable def mixPolynomial : GF256[X] :=
  C (element 0x03) * X ^ 3 + C (element 0x01) * X ^ 2 + C (element 0x01) * X + C (element 0x02)

/-- The polynomial `{0b}x³ + {0d}x² + {09}x + {0e}`. -/
noncomputable def invMixPolynomial : GF256[X] :=
  C (element 0x0b) * X ^ 3 + C (element 0x0d) * X ^ 2 + C (element 0x09) * X + C (element 0x0e)

noncomputable def mixColumns (s : State) : State := multiplyColumns mixPolynomial s

noncomputable def invMixColumns (s : State) : State := multiplyColumns invMixPolynomial s

/-- The exclusive or of the state and a round key. -/
def addRoundKey (s k : State) : State := Matrix.of fun r c => s r c ^^^ k r c

/-! ## The cipher and its inverse -/

/-- The state after the full rounds `1` to `n`. -/
noncomputable def rounds (w : ℕ → State) : ℕ → State → State
  | 0, s => s
  | n + 1, s => addRoundKey (mixColumns (shiftRows (subBytes (rounds w n s)))) (w (n + 1))

/-- The cipher of `nr` rounds under the round keys `w 0` to `w nr`. The last
round does not mix the columns. -/
noncomputable def cipher (nr : ℕ) (w : ℕ → State) (s : State) : State :=
  addRoundKey (shiftRows (subBytes (rounds w (nr - 1) (addRoundKey s (w 0))))) (w nr)

/-- The full inverse rounds from `n` down to `1`. -/
noncomputable def invRounds (w : ℕ → State) : ℕ → State → State
  | 0, s => s
  | n + 1, s =>
    invRounds w n (invMixColumns (addRoundKey (invSubBytes (invShiftRows s)) (w (n + 1))))

/-- The inverse cipher of `nr` rounds. -/
noncomputable def invCipher (nr : ℕ) (w : ℕ → State) (s : State) : State :=
  addRoundKey (invSubBytes (invShiftRows (invRounds w (nr - 1) (addRoundKey s (w nr))))) (w 0)

/-! ## Key expansion -/

noncomputable def subWord (v : Word) : Word :=
  ⟨subByte v.b0, subByte v.b1, subByte v.b2, subByte v.b3⟩

/-- The word rotated by one byte. -/
def rotWord (v : Word) : Word := ⟨v.b1, v.b2, v.b3, v.b0⟩

/-- The round constant with `x ^ (j - 1)` in the top byte. -/
noncomputable def rcon (j : ℕ) : Word :=
  ⟨byteEquiv.symm (AdjoinRoot.root modulus ^ (j - 1)), 0, 0, 0⟩

/-- What is added at place `i` to the word `nk` places before, when `previous`
stands at place `i - 1`. -/
noncomputable def temp (nk i : ℕ) (previous : Word) : Word :=
  if nk ∣ i then
    (subWord (rotWord previous)).add (rcon (i / nk))
  else if nk = 8 ∧ i % 8 = 4 then
    subWord previous
  else
    previous

end Rijndael.Standard

namespace Rijndael

/-- The state of a block: byte `i` stands in row `i % 4` and column `i / 4`. -/
def Block.matrix (b : Block) : Standard.State :=
  Matrix.of fun r c => b.toBytes.getD (4 * c.val + r.val) 0

/-- The block of a state. -/
def Block.ofMatrix (m : Standard.State) : Block :=
  .ofPrefix (List.ofFn fun i : Fin 16 =>
    m ⟨i % 4, Nat.mod_lt _ (by decide)⟩ ⟨i / 4, by omega⟩)

/-- The round key of a number; zero past the room of the schedule. -/
def KeySchedule.key (s : KeySchedule) (round : ℕ) : Block := (s.roundKey? round).getD .zero

end Rijndael
