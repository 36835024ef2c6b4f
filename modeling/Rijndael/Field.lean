/-!
# The field of 256 elements

A byte stands for a polynomial over the two-element field of degree at most
seven: bit `i` is the coefficient of `x ^ i`. Addition is exclusive or, and
products are reduced by `x⁸ + x⁴ + x³ + x + 1`, which makes the 256 bytes a
field.

Multiplication follows Horner's rule over the bits of its second argument, so
that it is additive in either argument by construction. Inversion uses that
every nonzero element has order dividing 255: the inverse of `a` is `a ^ 254`,
the product of `a ^ 2`, `a ^ 4`, …, `a ^ 128`.

## Main definitions

* `xtime`, multiplication by `x`;
* `mul`, the product of two elements;
* `inv`, the inverse, with `inv 0 = 0`.
-/

namespace Rijndael.Field

/-- The low eight bits of the reduction polynomial: `x⁴ + x³ + x + 1`. -/
def reduction : UInt8 := 0x1b

/-- Multiplication by `x`. The bit shifted out stands for `x⁸`, which is
replaced by its remainder. -/
def xtime (a : UInt8) : UInt8 :=
  (a <<< 1) ^^^ (if a.toBitVec.msb then reduction else 0)

/-- The product of two elements, by Horner's rule: the bits of `b` are taken
from the highest down, and the sum so far is multiplied by `x` before `a` is
added for each bit that is set. -/
def mul (a b : UInt8) : UInt8 :=
  (List.range 8).foldr
    (fun i sum => xtime sum ^^^ (if b.toBitVec.getLsbD i then a else 0)) 0

def square (a : UInt8) : UInt8 := mul a a

/-- The product of the first `n` iterated squares of `a`, that is of `a ^ 2`,
`a ^ 4`, …, `a ^ 2ⁿ`. -/
def squaresProduct : Nat → UInt8 → UInt8
  | 0, _ => 1
  | n + 1, a => mul (square a) (squaresProduct n (square a))

/-- The multiplicative inverse `a ^ 254` of `a`; zero goes to zero. -/
def inv (a : UInt8) : UInt8 := squaresProduct 7 a

end Rijndael.Field
