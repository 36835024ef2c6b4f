import Rijndael.Cipher
import Rijndael.Proofs.Columns
import Rijndael.Proofs.Substitution

/-!
# The cipher is that of the standard

Each step of a round is carried over to the state of the standard, where it
becomes the step of the same name. For the substitution and the shift this is
a matter of where the sixteen bytes stand. Mixing the columns is a division
with remainder: the quotient by `x⁴ + 1` is written down, and what is left is
the product of columns of `Rijndael.Proofs.Columns`.

The loops run over a list of inner keys here and over numbers there, so both
are compared over the keys of the rounds up to `n`.

## Main results

* `Word.polynomial_times` — the product of columns is the product of
  polynomials modulo `x⁴ + 1`.
* `Block.matrix_round`, `Block.matrix_invRound` — a full round, forwards and
  backwards.
* `KeySchedule.encrypt_decrypt_eq_standard` — under every schedule both
  transformations of a block are those of FIPS-197.
-/

namespace Rijndael

open Polynomial
open Rijndael.Field (GF256 element byteEquiv)

namespace Word

/-! ## Columns and polynomials -/

/-- The byte of a column in the row `r`. -/
def byte (w : Word) : Fin 4 → UInt8
  | 0 => w.b0
  | 1 => w.b1
  | 2 => w.b2
  | 3 => w.b3

/-- The polynomial of a column: the coefficient of `X ^ r` is the byte in row
`r`. -/
noncomputable def polynomial (w : Word) : GF256[X] :=
  C (element w.b0) + C (element w.b1) * X + C (element w.b2) * X ^ 2 + C (element w.b3) * X ^ 3

private theorem degree_polynomial_lt (w : Word) : w.polynomial.degree < (4 : ℕ) := by
  unfold polynomial
  compute_degree!

/-- A coefficient of the polynomial of a column gives the byte back. -/
theorem coeff_polynomial (w : Word) (r : Fin 4) : w.polynomial.coeff r = element (w.byte r) := by
  fin_cases r <;> simp [polynomial, byte, coeff_X, coeff_C]

private theorem sum_byte_eq_polynomial (w : Word) :
    ∑ r : Fin 4, C (element (w.byte r)) * X ^ (r : ℕ) = w.polynomial := by
  simp [Fin.sum_univ_four, polynomial, byte]

/-- The product of columns is the product of polynomials modulo `X ^ 4 + 1`.
As `X ^ 4` and `1` have the sum zero there, the quotient consists of the
coefficients from `X ^ 4` on. -/
theorem polynomial_times (a w : Word) :
    (a.polynomial * w.polynomial) %ₘ (X ^ 4 + 1) = (a.times w).polynomial := by
  have hmonic : (X ^ 4 + 1 : GF256[X]).Monic := by monicity!
  have hdegree : (X ^ 4 + 1 : GF256[X]).degree = (4 : ℕ) := by compute_degree!
  have htwo : (2 : GF256[X]) = 0 := by
    rw [← map_ofNat C 2, Field.two_eq_zero, map_zero]
  let q : GF256[X] :=
    C (element a.b1) * C (element w.b3) + C (element a.b2) * C (element w.b2) +
      C (element a.b3) * C (element w.b1) +
      (C (element a.b2) * C (element w.b3) + C (element a.b3) * C (element w.b2)) * X +
      C (element a.b3) * C (element w.b3) * X ^ 2
  have hdivision : (a.times w).polynomial + (X ^ 4 + 1) * q = a.polynomial * w.polynomial := by
    simp only [polynomial, times, Field.element_xor, Field.element_mul, C_add, C_mul, q]
    linear_combination q * htwo
  refine (div_modByMonic_unique q _ hmonic ⟨hdivision, ?_⟩).2
  rw [hdegree]
  exact degree_polynomial_lt _

/-- The column that columns are multiplied by is the polynomial of `MixColumns`. -/
theorem polynomial_mixColumn : mixColumn.polynomial = Standard.mixPolynomial := by
  simp only [polynomial, mixColumn, Standard.mixPolynomial]
  ring

/-- The column that undoes this is the polynomial of `InvMixColumns`. -/
theorem polynomial_invMixColumn : invMixColumn.polynomial = Standard.invMixPolynomial := by
  simp only [polynomial, invMixColumn, Standard.invMixPolynomial]
  ring

end Word

namespace Block

/-! ## The steps of a round -/

/-- The column of a state with the number `c`. -/
def column (s : Block) : Fin 4 → Word
  | 0 => s.c0
  | 1 => s.c1
  | 2 => s.c2
  | 3 => s.c3

/-- The state of the standard has the columns of the block for its columns. -/
theorem matrix_apply (s : Block) (r c : Fin 4) : s.matrix r c = (s.column c).byte r := by
  fin_cases r <;> fin_cases c <;> rfl

private theorem ofMatrix_matrix (s : Block) : ofMatrix s.matrix = s := rfl

theorem column_mapColumns (f : Word → Word) (s : Block) (c : Fin 4) :
    (s.mapColumns f).column c = f (s.column c) := by
  fin_cases c <;> rfl

/-- A function of bytes may be applied column by column or to the whole state. -/
theorem matrix_mapColumns_map (f : UInt8 → UInt8) (s : Block) :
    (s.mapColumns (Word.map f)).matrix = s.matrix.map f := by
  ext r c
  rw [Matrix.map_apply, matrix_apply, matrix_apply, column_mapColumns]
  fin_cases r <;> rfl

/-- The table of the S-box is the inverse in the field with the affine map after it,
byte by byte. -/
theorem matrix_subBytes (s : Block) : s.subBytes.matrix = Standard.subBytes s.matrix := by
  have htable : subByte = Standard.subByte := by
    funext b
    exact subByte_eq_standard b
  rw [Standard.subBytes, ← htable, ← matrix_mapColumns_map]
  rfl

theorem matrix_invSubBytes (s : Block) : s.invSubBytes.matrix = Standard.invSubBytes s.matrix := by
  have htable : invSubByte = Standard.invSubByte := by
    funext b
    exact invSubByte_eq_standard b
  rw [Standard.invSubBytes, ← htable, ← matrix_mapColumns_map]
  rfl

/-- Where a byte comes from in the shift of the rows, for each of the sixteen places. -/
theorem matrix_shiftRows (s : Block) : s.shiftRows.matrix = Standard.shiftRows s.matrix := by
  ext r c
  rw [Standard.shiftRows, Matrix.of_apply, matrix_apply, matrix_apply]
  fin_cases r <;> fin_cases c <;> rfl

theorem matrix_invShiftRows (s : Block) :
    s.invShiftRows.matrix = Standard.invShiftRows s.matrix := by
  ext r c
  rw [Standard.invShiftRows, Matrix.of_apply, matrix_apply, matrix_apply]
  fin_cases r <;> fin_cases c <;> rfl

theorem matrix_add (s k : Block) : (s.add k).matrix = Standard.addRoundKey s.matrix k.matrix := by
  ext r c
  fin_cases r <;> fin_cases c <;> rfl

/-- The polynomial of a column of the state is that of the column of the block. -/
private theorem columnPolynomial_matrix (s : Block) (c : Fin 4) :
    Standard.columnPolynomial s.matrix c = (s.column c).polynomial := by
  simp only [Standard.columnPolynomial, matrix_apply, Word.sum_byte_eq_polynomial]

/-- Multiplying every column by a fixed one is multiplying the column
polynomials of the state. -/
private theorem matrix_mapColumns_times (a : Word) (s : Block) :
    (s.mapColumns a.times).matrix = Standard.multiplyColumns a.polynomial s.matrix := by
  ext r c
  rw [matrix_apply, column_mapColumns, Standard.multiplyColumns, Matrix.of_apply,
    columnPolynomial_matrix, Word.polynomial_times, Word.coeff_polynomial,
    Field.byteEquiv_symm_eq rfl]

/-- Mixing the columns by doubled and summed bytes is the product of polynomials that
the standard has. -/
theorem matrix_mixColumns (s : Block) : s.mixColumns.matrix = Standard.mixColumns s.matrix := by
  rw [mixColumns, funext Word.mix_eq_times, matrix_mapColumns_times, Word.polynomial_mixColumn,
    Standard.mixColumns]

theorem matrix_invMixColumns (s : Block) :
    s.invMixColumns.matrix = Standard.invMixColumns s.matrix := by
  rw [invMixColumns, funext Word.invMix_eq_times, matrix_mapColumns_times,
    Word.polynomial_invMixColumn, Standard.invMixColumns]

/-- A full round is that of the standard under the same round key. -/
theorem matrix_round (s k : Block) :
    (s.round k).matrix =
      Standard.addRoundKey (Standard.mixColumns (Standard.shiftRows (Standard.subBytes s.matrix)))
        k.matrix := by
  rw [round, matrix_add, matrix_mixColumns, matrix_shiftRows, matrix_subBytes]

/-- A full round backwards undoes the steps in the order of the standard. -/
theorem matrix_invRound (s k : Block) :
    (s.invRound k).matrix =
      Standard.invMixColumns
        (Standard.addRoundKey (Standard.invSubBytes (Standard.invShiftRows s.matrix))
          k.matrix) := by
  rw [invRound, matrix_invMixColumns, matrix_add, matrix_invSubBytes, matrix_invShiftRows]

end Block

namespace KeySchedule

/-! ## The loops -/

/-- The keys of the rounds `1` to `n`. -/
def keysTo (s : KeySchedule) (n : ℕ) : List Block := (s.blocks.toList.take (n + 1)).drop 1

theorem keysTo_zero (s : KeySchedule) : s.keysTo 0 = [] := by
  simp [keysTo]

/-- The key of the next round comes last. -/
theorem keysTo_succ (s : KeySchedule) {n : ℕ} (hn : n < 14) :
    s.keysTo (n + 1) = s.keysTo n ++ [s.key (n + 1)] := by
  have hlength : n + 1 < s.blocks.toList.length := by simp; omega
  have hkey : s.key (n + 1) = s.blocks.toList.get ⟨n + 1, hlength⟩ := by
    simp [key, roundKey?, show n + 1 < 15 by omega]
  rw [keysTo, List.take_succ_eq_append_getElem hlength, List.drop_append_of_le_length (by simp),
    hkey]
  rfl

/-- The inner keys are those of all rounds but the last. -/
theorem innerKeys_eq (s : KeySchedule) : s.innerKeys = s.keysTo (s.rounds - 1) := by
  rw [innerKeys, keysTo]
  rcases Nat.eq_zero_or_pos s.rounds with hzero | hpos
  · simp [hzero]
  · rw [Nat.sub_add_cancel hpos]

theorem firstKey_eq (s : KeySchedule) : s.firstKey = s.key 0 := by
  simp [firstKey, key, roundKey?]

theorem lastKey_eq (s : KeySchedule) : s.lastKey = s.key s.rounds := by
  have hrounds := s.rounds_le
  simp [lastKey, key, roundKey?, show s.rounds < 15 by omega]

/-- By induction over the number of rounds: the loop of the cipher is that of the
standard. -/
private theorem matrix_foldl_round (s : KeySchedule) (b : Block) {n : ℕ} (hn : n ≤ 14) :
    ((s.keysTo n).foldl Block.round b).matrix =
      Standard.rounds (fun r => (s.key r).matrix) n b.matrix := by
  induction n with
  | zero => rw [keysTo_zero, Standard.rounds, List.foldl_nil]
  | succ n ih =>
      rw [keysTo_succ s hn, List.foldl_append, List.foldl_cons, List.foldl_nil,
        Block.matrix_round, ih (by omega), Standard.rounds]

/-- By induction over the number of rounds, the last of which is undone first. -/
private theorem matrix_foldr_invRound (s : KeySchedule) (b : Block) {n : ℕ} (hn : n ≤ 14) :
    ((s.keysTo n).foldr (fun k state => state.invRound k) b).matrix =
      Standard.invRounds (fun r => (s.key r).matrix) n b.matrix := by
  induction n generalizing b with
  | zero => rw [keysTo_zero, Standard.invRounds, List.foldr_nil]
  | succ n ih =>
      rw [keysTo_succ s hn, List.foldr_append, List.foldr_cons, List.foldr_nil, ih _ (by omega),
        Block.matrix_invRound, Standard.invRounds]

/-- The transformations of a block under a schedule, whatever its blocks and
number of rounds, are the cipher and the inverse cipher of FIPS-197 under the
same round keys. -/
theorem encrypt_decrypt_eq_standard (s : KeySchedule) (b : Block) :
    s.encrypt b =
        .ofMatrix (Standard.cipher s.rounds (fun r => (s.key r).matrix) b.matrix) ∧
      s.decrypt b =
        .ofMatrix (Standard.invCipher s.rounds (fun r => (s.key r).matrix) b.matrix) := by
  have hrounds : s.rounds - 1 ≤ 14 := Nat.le_trans (Nat.sub_le _ _) s.rounds_le
  constructor
  · rw [← Block.ofMatrix_matrix (s.encrypt b), encrypt, Block.lastRound, Block.matrix_add,
      Block.matrix_shiftRows, Block.matrix_subBytes, innerKeys_eq, matrix_foldl_round s _ hrounds,
      Block.matrix_add, firstKey_eq, lastKey_eq, Standard.cipher]
  · rw [← Block.ofMatrix_matrix (s.decrypt b), decrypt, Block.invLastRound, Block.matrix_add,
      Block.matrix_invSubBytes, Block.matrix_invShiftRows, innerKeys_eq,
      matrix_foldr_invRound s _ hrounds, Block.matrix_add, firstKey_eq, lastKey_eq,
      Standard.invCipher]

end KeySchedule

end Rijndael
