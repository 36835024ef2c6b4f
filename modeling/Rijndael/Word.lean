import Rijndael.Substitution

/-!
# Words: columns of four bytes

A `Word` is a column of the cipher state and equally a word of the key
schedule. Its bytes are numbered from the top of the column, which is the most
significant end when a word is written as a number.

## Main definitions

* `Word.sub` and `Word.rotate`, the two steps of the key schedule;
* `Word.mix` and `Word.invMix`, the column maps of the cipher. A column stands
  for a polynomial of degree at most three over the field, and `mix`
  multiplies by `3x³ + x² + x + 2` modulo `x⁴ + 1`; `invMix` multiplies by the
  inverse polynomial `0bx³ + 0dx² + 09x + 0e`.
-/

namespace Rijndael

open Rijndael.Field (xtime mul)

/-- Four bytes, from the top of the column down. -/
@[ext]
structure Word where
  b0 : UInt8
  b1 : UInt8
  b2 : UInt8
  b3 : UInt8
  deriving DecidableEq, Repr

namespace Word

def zero : Word := ⟨0, 0, 0, 0⟩

/-- The sum of two words, byte by byte. -/
def add (v w : Word) : Word :=
  ⟨v.b0 ^^^ w.b0, v.b1 ^^^ w.b1, v.b2 ^^^ w.b2, v.b3 ^^^ w.b3⟩

/-- The word whose bytes are the images of those of `w`. -/
def map (f : UInt8 → UInt8) (w : Word) : Word := ⟨f w.b0, f w.b1, f w.b2, f w.b3⟩

def toBytes (w : Word) : List UInt8 := [w.b0, w.b1, w.b2, w.b3]

/-- The word rotated up by one byte. -/
def rotate (w : Word) : Word := ⟨w.b1, w.b2, w.b3, w.b0⟩

def sub (w : Word) : Word := w.map subByte

def invSub (w : Word) : Word := w.map invSubByte

/-- The word whose top byte is `b`, with zeros below. -/
def ofTop (b : UInt8) : Word := ⟨b, 0, 0, 0⟩

/-- The column map of the cipher. Its circulant matrix has the first row
`2 3 1 1`; twice a byte is `xtime`, three times a byte is that plus the byte. -/
def mix (w : Word) : Word where
  b0 := xtime w.b0 ^^^ (xtime w.b1 ^^^ w.b1) ^^^ w.b2 ^^^ w.b3
  b1 := w.b0 ^^^ xtime w.b1 ^^^ (xtime w.b2 ^^^ w.b2) ^^^ w.b3
  b2 := w.b0 ^^^ w.b1 ^^^ xtime w.b2 ^^^ (xtime w.b3 ^^^ w.b3)
  b3 := (xtime w.b0 ^^^ w.b0) ^^^ w.b1 ^^^ w.b2 ^^^ xtime w.b3

/-- The inverse of the column map. Its circulant matrix has the first row
`0e 0b 0d 09`. -/
def invMix (w : Word) : Word where
  b0 := mul w.b0 0x0e ^^^ mul w.b1 0x0b ^^^ mul w.b2 0x0d ^^^ mul w.b3 0x09
  b1 := mul w.b0 0x09 ^^^ mul w.b1 0x0e ^^^ mul w.b2 0x0b ^^^ mul w.b3 0x0d
  b2 := mul w.b0 0x0d ^^^ mul w.b1 0x09 ^^^ mul w.b2 0x0e ^^^ mul w.b3 0x0b
  b3 := mul w.b0 0x0b ^^^ mul w.b1 0x0d ^^^ mul w.b2 0x09 ^^^ mul w.b3 0x0e

@[simp] theorem length_toBytes (w : Word) : w.toBytes.length = 4 := rfl

end Word

end Rijndael
