import Rijndael.Word
import Rijndael.LengthError

/-!
# Blocks and the steps of a round

A `Block` is sixteen bytes, arranged as four columns of four bytes each. The
same arrangement is the state of the cipher, on which the four steps of a
round and their inverses act.

## Main definitions

* `Block.ofBytes` and `Block.toBytes`, between blocks and byte strings;
* `Block.subBytes`, `Block.shiftRows`, `Block.mixColumns` and `Block.add`, the
  steps of a round, and the inverses of the first three. Addition is its own
  inverse.

## Main results

* `Block.toBytes_ofPrefix`, `Block.ofPrefix_toBytes` — a block is the same as
  sixteen bytes.
-/

namespace Rijndael

/-- Sixteen bytes in four columns. -/
@[ext]
structure Block where
  c0 : Word
  c1 : Word
  c2 : Word
  c3 : Word
  deriving DecidableEq, Repr

namespace Block

def zero : Block := ⟨.zero, .zero, .zero, .zero⟩

/-- The columns of a block from the left. -/
def columns (s : Block) : List Word := [s.c0, s.c1, s.c2, s.c3]

/-- The bytes of a block, column after column. -/
def toBytes (s : Block) : List UInt8 := s.columns.flatMap Word.toBytes

/-- The first sixteen of the given bytes; bytes that are missing count as
zero. -/
def ofPrefix (bytes : List UInt8) : Block :=
  let column (i : Nat) : Word :=
    ⟨bytes.getD i 0, bytes.getD (i + 1) 0, bytes.getD (i + 2) 0, bytes.getD (i + 3) 0⟩
  ⟨column 0, column 4, column 8, column 12⟩

/-- The block of exactly sixteen bytes. -/
def ofBytes (bytes : List UInt8) : Except LengthError Block :=
  if bytes.length = 16 then .ok (ofPrefix bytes) else .error (.block bytes.length)

/-- The block whose columns are the images of those of `s`. -/
def mapColumns (f : Word → Word) (s : Block) : Block := ⟨f s.c0, f s.c1, f s.c2, f s.c3⟩

/-- The sum of two blocks, byte by byte: how a round key enters the state. -/
def add (s k : Block) : Block :=
  ⟨s.c0.add k.c0, s.c1.add k.c1, s.c2.add k.c2, s.c3.add k.c3⟩

def subBytes (s : Block) : Block := s.mapColumns Word.sub

def invSubBytes (s : Block) : Block := s.mapColumns Word.invSub

/-- Row `r` of the state moved `r` columns to the left, cyclically. -/
def shiftRows (s : Block) : Block where
  c0 := ⟨s.c0.b0, s.c1.b1, s.c2.b2, s.c3.b3⟩
  c1 := ⟨s.c1.b0, s.c2.b1, s.c3.b2, s.c0.b3⟩
  c2 := ⟨s.c2.b0, s.c3.b1, s.c0.b2, s.c1.b3⟩
  c3 := ⟨s.c3.b0, s.c0.b1, s.c1.b2, s.c2.b3⟩

/-- Row `r` of the state moved `r` columns to the right, cyclically. -/
def invShiftRows (s : Block) : Block where
  c0 := ⟨s.c0.b0, s.c3.b1, s.c2.b2, s.c1.b3⟩
  c1 := ⟨s.c1.b0, s.c0.b1, s.c3.b2, s.c2.b3⟩
  c2 := ⟨s.c2.b0, s.c1.b1, s.c0.b2, s.c3.b3⟩
  c3 := ⟨s.c3.b0, s.c2.b1, s.c1.b2, s.c0.b3⟩

def mixColumns (s : Block) : Block := s.mapColumns Word.mix

def invMixColumns (s : Block) : Block := s.mapColumns Word.invMix

@[simp] theorem length_toBytes (s : Block) : s.toBytes.length = 16 := rfl

/-- A block is determined by its bytes and can be read back from them. -/
@[simp] theorem ofPrefix_toBytes (s : Block) : ofPrefix s.toBytes = s := rfl

/-- Sixteen bytes are the bytes of the block read from them. -/
theorem toBytes_ofPrefix {bytes : List UInt8} (h : bytes.length = 16) :
    (ofPrefix bytes).toBytes = bytes := by
  match bytes, h with
  | [_, _, _, _, _, _, _, _, _, _, _, _, _, _, _, _], _ => rfl

@[simp] theorem ofBytes_toBytes (s : Block) : ofBytes s.toBytes = .ok s := by
  simp [ofBytes]

@[simp] theorem shiftRows_invShiftRows (s : Block) : s.invShiftRows.shiftRows = s := rfl

@[simp] theorem invShiftRows_shiftRows (s : Block) : s.shiftRows.invShiftRows = s := rfl

end Block

end Rijndael
