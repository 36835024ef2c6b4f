import Rijndael.Word
import Rijndael.Proofs.ByteField

/-!
# Columns as polynomials

A column stands for a polynomial of degree at most three over the field, and
columns multiply modulo `x⁴ + 1`. Both column maps of the cipher are products
with a fixed column, so whatever holds of all products holds of them, and that
the one undoes the other comes down to a single product of two columns.

## Main results

* `mix_eq_times`, `invMix_eq_times` — the column maps as products.
* `mix_add`, `invMix_add` — the column maps are additive.
* `invMix_mix`, `mix_invMix` — the column maps undo each other.
-/

namespace Rijndael.Word

open Rijndael.Field (mul element element_injective)

/-- The product of two columns modulo `x⁴ + 1`: exponents of `x` are added
modulo four. -/
def times (a w : Word) : Word where
  b0 := mul a.b0 w.b0 ^^^ mul a.b3 w.b1 ^^^ mul a.b2 w.b2 ^^^ mul a.b1 w.b3
  b1 := mul a.b1 w.b0 ^^^ mul a.b0 w.b1 ^^^ mul a.b3 w.b2 ^^^ mul a.b2 w.b3
  b2 := mul a.b2 w.b0 ^^^ mul a.b1 w.b1 ^^^ mul a.b0 w.b2 ^^^ mul a.b3 w.b3
  b3 := mul a.b3 w.b0 ^^^ mul a.b2 w.b1 ^^^ mul a.b1 w.b2 ^^^ mul a.b0 w.b3

/-- The column `3x³ + x² + x + 2`. -/
def mixColumn : Word := ⟨0x02, 0x01, 0x01, 0x03⟩

/-- The column `0bx³ + 0dx² + 09x + 0e`. -/
def invMixColumn : Word := ⟨0x0e, 0x09, 0x0d, 0x0b⟩

/-- Columns are equal when their bytes denote the same elements. -/
theorem ext_element {v w : Word} (h0 : element v.b0 = element w.b0)
    (h1 : element v.b1 = element w.b1) (h2 : element v.b2 = element w.b2)
    (h3 : element v.b3 = element w.b3) : v = w :=
  Word.ext (element_injective h0) (element_injective h1) (element_injective h2)
    (element_injective h3)

theorem times_times (a b w : Word) : a.times (b.times w) = (a.times b).times w := by
  apply ext_element <;> simp only [times, Field.element_xor, Field.element_mul] <;> ring

/-- The column `1` is neutral. -/
theorem one_times (w : Word) : (ofTop 1).times w = w := by
  apply ext_element <;> simp [times, ofTop]

/-- Twice a byte is `xtime`, and three times a byte is that plus the byte. -/
theorem mix_eq_times (w : Word) : w.mix = mixColumn.times w := by
  have htwo : element 2 = AdjoinRoot.root Field.modulus := by
    rw [show (2 : UInt8) = Field.xtime 1 by decide, Field.element_xtime, Field.element_one, mul_one]
  have hthree : element 3 = AdjoinRoot.root Field.modulus + 1 := by
    rw [show (3 : UInt8) = 2 ^^^ 1 by decide, Field.element_xor, htwo, Field.element_one]
  apply ext_element <;>
    simp only [mix, times, mixColumn, Field.element_xor, Field.element_mul, Field.element_xtime,
      Field.element_one, htwo, hthree] <;>
    ring

theorem invMix_eq_times (w : Word) : w.invMix = invMixColumn.times w := by
  apply ext_element <;>
    simp only [invMix, times, invMixColumn, Field.element_xor, Field.element_mul] <;> ring

theorem times_add (a v w : Word) : a.times (v.add w) = (a.times v).add (a.times w) := by
  apply ext_element <;> simp only [times, add, Field.element_xor, Field.element_mul] <;> ring

theorem mix_add (v w : Word) : (v.add w).mix = v.mix.add w.mix := by
  rw [mix_eq_times, mix_eq_times, mix_eq_times, times_add]

theorem invMix_add (v w : Word) : (v.add w).invMix = v.invMix.add w.invMix := by
  rw [invMix_eq_times, invMix_eq_times, invMix_eq_times, times_add]

/-- The two columns are inverse to each other modulo `x⁴ + 1`. -/
private theorem invMixColumn_times_mixColumn : invMixColumn.times mixColumn = ofTop 1 := by
  decide +kernel

private theorem mixColumn_times_invMixColumn : mixColumn.times invMixColumn = ofTop 1 := by
  decide +kernel

@[simp] theorem invMix_mix (w : Word) : w.mix.invMix = w := by
  rw [mix_eq_times, invMix_eq_times, times_times, invMixColumn_times_mixColumn, one_times]

@[simp] theorem mix_invMix (w : Word) : w.invMix.mix = w := by
  rw [mix_eq_times, invMix_eq_times, times_times, mixColumn_times_invMixColumn, one_times]

end Rijndael.Word
