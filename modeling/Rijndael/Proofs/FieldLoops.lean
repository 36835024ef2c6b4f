import Rijndael.Proofs.ByteField
import Rijndael.Proofs.ByteTable

/-!
# Products and powers by loops

`Field.mul` takes the bits of its second argument from the highest down, and
`Field.inv` is a product of iterated squares. The usual loops take the bits of a
multiplier or of an exponent from the lowest up and carry an accumulator: one
shifts and adds, the other squares and multiplies. Both loops compute the same.

In each loop a combination of its three variables does not change from turn to
turn. For the product it is the accumulator plus the product of the other two,
for the power the accumulator times a power of the base.

## Main results

* `element_shiftAndAdd`, `mul_eq_shiftAndAdd` — products by shifting and adding.
* `element_squareAndMultiply`, `inv_eq_squareAndMultiply` — inverses by squaring and
  multiplying.
-/

namespace Rijndael.Field

private theorem toNat_shiftRight_one (b : UInt8) : (b >>> 1).toNat = b.toNat / 2 := by
  rw [UInt8.toNat_shiftRight, Nat.shiftRight_eq_div_pow]
  rfl

private theorem toNat_shiftRight_one_lt {b : UInt8} (hb : b ≠ 0) : (b >>> 1).toNat < b.toNat := by
  have hpos : b.toNat ≠ 0 := fun hzero => hb (UInt8.toNat_inj.mp hzero)
  rw [toNat_shiftRight_one]
  omega

/-- A byte is its lowest bit and `x` times the rest. -/
private theorem eq_xtime_shiftRight_one (b : UInt8) : b = xtime (b >>> 1) ^^^ (b &&& 1) := by
  revert b
  apply ByteTable.forall_byte
  decide +kernel

private theorem and_one_of_ne_zero {b : UInt8} (hb : b &&& 1 ≠ 0) : b &&& 1 = 1 := by
  revert b
  apply ByteTable.forall_byte
  decide +kernel

private theorem toNat_eq_and_one_add (b : UInt8) :
    b.toNat = (b &&& 1).toNat + 2 * (b >>> 1).toNat := by
  have hbit : (b &&& 1).toNat = b.toNat % 2 := by
    rw [UInt8.toNat_and]
    exact Nat.and_one_is_mod _
  rw [hbit, toNat_shiftRight_one]
  omega

/-! ## Products -/

/-- The product of `a` and `b`, added to `product`. The lowest bit of `b` tells
whether `a` is added; then `a` is multiplied by `x` and `b` shifted by one bit. -/
def shiftAndAdd (product a b : UInt8) : UInt8 :=
  if b = 0 then
    product
  else if b &&& 1 = 0 then
    shiftAndAdd product (xtime a) (b >>> 1)
  else
    shiftAndAdd (product ^^^ a) (xtime a) (b >>> 1)
termination_by b.toNat
decreasing_by all_goals exact toNat_shiftRight_one_lt ‹_›

/-- Every turn keeps the sum of the accumulator and the product of the other two. -/
theorem element_shiftAndAdd (product a b : UInt8) :
    element (shiftAndAdd product a b) = element product + element a * element b := by
  have hhalf (b : UInt8) :
      element b = AdjoinRoot.root modulus * element (b >>> 1) + element (b &&& 1) := by
    rw [← element_xtime, ← element_xor, ← eq_xtime_shiftRight_one]
  fun_induction shiftAndAdd product a b with
  | case1 product a => rw [element_zero, mul_zero, add_zero]
  | case2 product a b _ hbit ih =>
      rw [ih, element_xtime, hhalf b, hbit, element_zero]
      ring
  | case3 product a b _ hbit ih =>
      rw [ih, element_xtime, hhalf b, and_one_of_ne_zero hbit, element_xor, element_one]
      ring

theorem mul_eq_shiftAndAdd (a b : UInt8) : mul a b = shiftAndAdd 0 a b := by
  apply element_injective
  rw [element_mul, element_shiftAndAdd, element_zero, zero_add]

/-! ## Inverses -/

/-- The power of `base` to `exponent`, times `result`. The lowest bit of the exponent
tells whether `base` is multiplied in; then `base` is squared and the exponent
shifted by one bit. -/
def squareAndMultiply (result base exponent : UInt8) : UInt8 :=
  if exponent = 0 then
    result
  else if exponent &&& 1 = 0 then
    squareAndMultiply result (mul base base) (exponent >>> 1)
  else
    squareAndMultiply (mul result base) (mul base base) (exponent >>> 1)
termination_by exponent.toNat
decreasing_by all_goals exact toNat_shiftRight_one_lt ‹_›

/-- Every turn keeps the product of the accumulator and the power of the base. -/
theorem element_squareAndMultiply (result base exponent : UInt8) :
    element (squareAndMultiply result base exponent) =
      element result * element base ^ exponent.toNat := by
  fun_induction squareAndMultiply result base exponent with
  | case1 result base => exact (mul_one _).symm
  | case2 result base exponent _ hbit ih =>
      rw [ih, element_mul, toNat_eq_and_one_add exponent, hbit, UInt8.toNat_zero]
      ring
  | case3 result base exponent _ hbit ih =>
      rw [ih, element_mul, element_mul, toNat_eq_and_one_add exponent, and_one_of_ne_zero hbit,
        UInt8.toNat_one]
      ring

/-- The inverse of `a` is the power of `a` to `254`. -/
theorem inv_eq_squareAndMultiply (a : UInt8) : inv a = squareAndMultiply 1 a 254 := by
  apply element_injective
  rw [element_squareAndMultiply, element_one, one_mul, inv, element_squaresProduct]
  rfl

end Rijndael.Field
