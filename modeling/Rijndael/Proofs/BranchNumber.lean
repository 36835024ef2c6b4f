import Rijndael.Proofs.StandardCipher

/-!
# The branch number of the column map

Two columns that differ and their images under `Word.mix` differ in at least
five bytes, counted together. No map of columns to columns does better: one
byte that differs can do no more than change all four bytes of the image.

The sum of two columns shows where they differ, and mixing is additive, so the
bound is one on the nonzero bytes of a single column and of its image. If one
of the two has a single nonzero byte then the other has four, since no
coefficient of the map or of its inverse is zero. What is left is that two
nonzero bytes do not make two zeros, for which the minors of two rows and two
columns have to be nonzero.

## Main results

* `element_byte_times` — a product of columns is a circulant matrix at work.
* `eq_zero_of_byte_mix_eq_zero` — two bytes of a column cannot cancel twice.
* `five_le_hammingNorm_mix` — five nonzero bytes in a column and its image.
* `five_le_hammingDist_mix` — five differing bytes in two columns and their
  images.
-/

namespace Rijndael.Word

open Rijndael.Field (mul element element_injective)

/-! ## Bytes of sums and products -/

theorem byte_injective : Function.Injective byte := by
  intro v w hbyte
  exact Word.ext (congrFun hbyte 0) (congrFun hbyte 1) (congrFun hbyte 2) (congrFun hbyte 3)

theorem byte_add (v w : Word) (r : Fin 4) : (v.add w).byte r = v.byte r ^^^ w.byte r := by
  fin_cases r <;> rfl

private theorem byte_zero : zero.byte = 0 := by
  funext r
  fin_cases r <;> rfl

/-- Byte `r` of a product: the column `a` is read downwards from its byte `r`. -/
theorem element_byte_times (a w : Word) (r : Fin 4) :
    element ((a.times w).byte r) =
      ∑ j : Fin 4, element (a.byte (r - j)) * element (w.byte j) := by
  rw [Fin.sum_univ_four]
  fin_cases r
  all_goals
    simp only [← Field.element_mul, ← Field.element_xor]
    rfl

theorem mix_injective : Function.Injective mix :=
  Function.LeftInverse.injective invMix_mix

private theorem mix_zero : zero.mix = zero := by decide

/-- Two columns differ in as many bytes as their sum has nonzero ones. -/
private theorem hammingDist_byte (v w : Word) :
    hammingDist v.byte w.byte = hammingNorm (v.add w).byte := by
  simp only [hammingDist, hammingNorm, byte_add, ne_eq, UInt8.xor_eq_zero_iff]

/-! ## Columns with few nonzero bytes -/

theorem element_eq_zero {b : UInt8} : element b = 0 ↔ b = 0 := by
  rw [← Field.element_zero, element_injective.eq_iff]

/-- If a column has one nonzero byte, every byte of a product with it comes from
that byte. -/
theorem element_byte_times_of_single {a w : Word} {j : Fin 4}
    (hw : ∀ i, i ≠ j → w.byte i = 0) (r : Fin 4) :
    element ((a.times w).byte r) = element (a.byte (r - j)) * element (w.byte j) := by
  rw [element_byte_times, Finset.sum_eq_single j]
  · intro i _ hi
    rw [hw i hi, Field.element_zero, mul_zero]
  · simp

private theorem hammingNorm_times_of_single {a w : Word} (ha : ∀ i, a.byte i ≠ 0)
    (hw : hammingNorm w.byte = 1) : hammingNorm (a.times w).byte = 4 := by
  obtain ⟨j, hj⟩ := Finset.card_eq_one.mp hw
  have hbyte : ∀ i, w.byte i ≠ 0 ↔ i = j := by
    intro i
    rw [← Finset.mem_singleton, ← hj, Finset.mem_filter]
    simp
  have hothers : ∀ i, i ≠ j → w.byte i = 0 := fun i hi => not_not.mp (mt (hbyte i).mp hi)
  have hall : ∀ r, (a.times w).byte r ≠ 0 := by
    intro r
    rw [ne_eq, ← element_eq_zero, element_byte_times_of_single hothers, mul_eq_zero,
      element_eq_zero, element_eq_zero]
    exact not_or.mpr ⟨ha _, (hbyte j).mpr rfl⟩
  rw [hammingNorm, Finset.filter_true_of_mem fun r _ => hall r]
  rfl

/-- The minors of two rows and two columns of the matrix of `mix` are not zero. -/
private theorem mul_mixColumn_ne : ∀ r r' j j' : Fin 4, r ≠ r' → j ≠ j' →
    mul (mixColumn.byte (r - j)) (mixColumn.byte (r' - j')) ≠
      mul (mixColumn.byte (r - j')) (mixColumn.byte (r' - j)) := by
  decide +kernel

private theorem element_byte_mix_of_pair {w : Word} {j j' : Fin 4} (hj : j ≠ j')
    (hw : ∀ i, i ≠ j → i ≠ j' → w.byte i = 0) (r : Fin 4) :
    element (w.mix.byte r) =
      element (mixColumn.byte (r - j)) * element (w.byte j) +
        element (mixColumn.byte (r - j')) * element (w.byte j') := by
  rw [mix_eq_times, element_byte_times, Fintype.sum_eq_add j j' hj]
  rintro i ⟨hi, hi'⟩
  rw [hw i hi hi', Field.element_zero, mul_zero]

/-- If a column has no nonzero bytes but two, these cannot cancel in two bytes of
its image. -/
theorem eq_zero_of_byte_mix_eq_zero {w : Word} {r r' j j' : Fin 4} (hr : r ≠ r') (hj : j ≠ j')
    (hw : ∀ i, i ≠ j → i ≠ j' → w.byte i = 0) (hzero : w.mix.byte r = 0)
    (hzero' : w.mix.byte r' = 0) : w.byte j = 0 := by
  have hrow := element_byte_mix_of_pair hj hw r
  have hrow' := element_byte_mix_of_pair hj hw r'
  rw [hzero, Field.element_zero] at hrow
  rw [hzero', Field.element_zero] at hrow'
  have hminor : element (mixColumn.byte (r - j)) * element (mixColumn.byte (r' - j')) -
      element (mixColumn.byte (r - j')) * element (mixColumn.byte (r' - j)) ≠ 0 := by
    rw [sub_ne_zero, ← Field.element_mul, ← Field.element_mul]
    exact element_injective.ne (mul_mixColumn_ne r r' j j' hr hj)
  -- The second byte is eliminated from the two rows.
  have hproduct : (element (mixColumn.byte (r - j)) * element (mixColumn.byte (r' - j')) -
      element (mixColumn.byte (r - j')) * element (mixColumn.byte (r' - j))) *
        element (w.byte j) = 0 := by
    linear_combination element (mixColumn.byte (r - j')) * hrow' -
      element (mixColumn.byte (r' - j')) * hrow
  exact element_eq_zero.mp ((mul_eq_zero.mp hproduct).resolve_left hminor)

/-! ## The bound -/

private theorem hammingNorm_byte_eq_zero {w : Word} : hammingNorm w.byte = 0 ↔ w = zero := by
  rw [hammingNorm_eq_zero, ← byte_zero, byte_injective.eq_iff]

private theorem hammingNorm_mix_of_single {w : Word} (hw : hammingNorm w.byte = 1) :
    hammingNorm w.mix.byte = 4 := by
  rw [mix_eq_times]
  exact hammingNorm_times_of_single (by decide) hw

/-- The coefficients of the inverse map are not zero either. -/
private theorem hammingNorm_of_mix_single {w : Word} (hw : hammingNorm w.mix.byte = 1) :
    hammingNorm w.byte = 4 := by
  rw [← invMix_mix w, invMix_eq_times]
  exact hammingNorm_times_of_single (by decide) hw

/-- Two nonzero bytes leave at most one zero in the image. -/
private theorem three_le_hammingNorm_mix_of_pair {w : Word} (hw : hammingNorm w.byte = 2) :
    3 ≤ hammingNorm w.mix.byte := by
  obtain ⟨j, j', hj, hpair⟩ := Finset.card_eq_two.mp hw
  have hbyte : ∀ i, w.byte i ≠ 0 ↔ i = j ∨ i = j' := by
    intro i
    rw [← Finset.mem_singleton (a := j'), ← Finset.mem_insert, ← hpair, Finset.mem_filter]
    simp
  have hothers : ∀ i, i ≠ j → i ≠ j' → w.byte i = 0 := fun i hi hi' =>
    not_not.mp (mt (hbyte i).mp (not_or.mpr ⟨hi, hi'⟩))
  by_contra hfew
  have hzeros : 1 < (Finset.univ.filter fun r => ¬ w.mix.byte r ≠ 0).card := by
    have hsplit := Finset.card_filter_add_card_filter_not (s := Finset.univ)
      (fun r => w.mix.byte r ≠ 0)
    have hnorm : (Finset.univ.filter fun r => w.mix.byte r ≠ 0).card ≤ 2 := by
      rw [← hammingNorm]
      omega
    rw [Finset.card_univ, Fintype.card_fin] at hsplit
    omega
  obtain ⟨r, hr, r', hr', hne⟩ := Finset.one_lt_card.mp hzeros
  have hzero := not_not.mp (Finset.mem_filter.mp hr).2
  have hzero' := not_not.mp (Finset.mem_filter.mp hr').2
  exact (hbyte j).mpr (.inl rfl) (eq_zero_of_byte_mix_eq_zero hne hj hothers hzero hzero')

/-- A column that is not zero and its image have five nonzero bytes or more. -/
theorem five_le_hammingNorm_mix {w : Word} (hw : w ≠ zero) :
    5 ≤ hammingNorm w.byte + hammingNorm w.mix.byte := by
  have hpos : hammingNorm w.byte ≠ 0 := mt hammingNorm_byte_eq_zero.mp hw
  have hpos' : hammingNorm w.mix.byte ≠ 0 := by
    intro hnorm
    apply hw
    rw [← mix_injective.eq_iff, mix_zero]
    exact hammingNorm_byte_eq_zero.mp hnorm
  have hsingle := @hammingNorm_mix_of_single w
  have hsingle' := @hammingNorm_of_mix_single w
  have hpair := @three_le_hammingNorm_mix_of_pair w
  omega

/-- Two columns and their images differ in five bytes or more. -/
theorem five_le_hammingDist_mix {v w : Word} (hne : v ≠ w) :
    5 ≤ hammingDist v.byte w.byte + hammingDist v.mix.byte w.mix.byte := by
  have hsum : v.add w ≠ zero := by
    rw [ne_eq, ← hammingNorm_byte_eq_zero, ← hammingDist_byte, hammingDist_eq_zero,
      byte_injective.eq_iff]
    exact hne
  rw [hammingDist_byte, hammingDist_byte, ← mix_add]
  exact five_le_hammingNorm_mix hsum

end Rijndael.Word
