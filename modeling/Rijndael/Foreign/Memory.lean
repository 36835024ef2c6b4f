import Rijndael.Block

/-!
# Memory of a caller

A caller passes blocks by pointing at sixteen bytes of its own memory. The
memory of a caller is a byte vector, and a pointer to a block in it is a
`Window`. Two windows may overlap.
-/

namespace Rijndael.Foreign

/-- Bytes that belong to a caller. -/
abbrev Memory (size : Nat) := Vector UInt8 size

/-- Sixteen consecutive places in a memory. -/
structure Window (size : Nat) where
  start : Nat
  fits : start + 16 ≤ size

namespace Window

/-- The window that starts at a place, if it lies inside the memory. -/
def at? (size start : Nat) : Option (Window size) :=
  if h : start + 16 ≤ size then some ⟨start, h⟩ else none

def covers {size : Nat} (w : Window size) (i : Nat) : Bool :=
  w.start ≤ i && i < w.start + 16

end Window

namespace Memory

def read {size : Nat} (m : Memory size) (w : Window size) : Block :=
  .ofPrefix ((m.toList.drop w.start).take 16)

/-- The memory with a block written into a window. -/
def write {size : Nat} (m : Memory size) (w : Window size) (b : Block) : Memory size :=
  let bytes := b.toBytes
  m.mapFinIdx fun i old _ => if w.covers i then bytes.getD (i - w.start) 0 else old

end Memory

end Rijndael.Foreign
