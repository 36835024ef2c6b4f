/-!
# Handles

A handle names a context that a store holds. It consists of the index of a
slot and of a generation, which tells the contexts apart that the slot has
held in turn. Generations are numbers of thirty-two bits from one on, and a
handle packs into sixty-four bits with the generation in the upper half, so
that no handle packs into a number below `2 ^ 32`.

## Main definitions

* `Generation.next?`, the generation after another, if there is one;
* `Handle.toRaw` and `Handle.ofRaw?`, between handles and packed numbers;
* `Handle.text`, the form in which messages name a handle.
-/

namespace Rijndael

/-- A generation: a nonzero number of thirty-two bits. -/
@[ext]
structure Generation where
  number : UInt32
  number_ne_zero : number ≠ 0
  deriving DecidableEq, Repr

namespace Generation

/-- The generation of a slot that is new. -/
def first : Generation := ⟨1, by decide⟩

def last : Generation := ⟨0xffffffff, by decide⟩

/-- The generation of the given number, if that is not zero. -/
def ofNumber? (n : UInt32) : Option Generation :=
  if h : n = 0 then none else some ⟨n, h⟩

/-- The generation after `g`; none after the greatest. -/
def next? (g : Generation) : Option Generation := ofNumber? (g.number + 1)

end Generation

structure Handle where
  index : UInt32
  generation : Generation
  deriving DecidableEq, Repr

namespace Handle

/-- The handle as one number, the generation in the upper half. -/
def toRaw (h : Handle) : UInt64 :=
  (h.generation.number.toUInt64 <<< 32) ||| h.index.toUInt64

/-- The handle that a number stands for, unless its upper half is zero. -/
def ofRaw? (raw : UInt64) : Option Handle :=
  (Generation.ofNumber? (raw >>> 32).toUInt32).map fun g => ⟨raw.toUInt32, g⟩

/-- The text of a handle in messages. -/
def text (h : Handle) : String := s!"#{h.index.toNat}v{h.generation.number.toNat}"

/-- The text of a handle in descriptions of values. -/
def description (h : Handle) : String :=
  s!"Handle({h.index.toNat}v{h.generation.number.toNat})"

/-- Packing puts the index below the generation without loss. -/
theorem toNat_toRaw (h : Handle) :
    h.toRaw.toNat = 4294967296 * h.generation.number.toNat + h.index.toNat := by
  show _ = 2 ^ 32 * h.generation.number.toNat + h.index.toNat
  have index_lt : h.index.toNat < 2 ^ 32 := h.index.toNat_lt
  have generation_lt := h.generation.number.toNat_lt
  have upper : (h.generation.number.toUInt64 <<< 32).toNat =
      2 ^ 32 * h.generation.number.toNat := by
    simp [UInt64.toNat_shiftLeft, Nat.shiftLeft_eq]
    omega
  rw [toRaw, UInt64.toNat_or, upper, UInt32.toNat_toUInt64,
    Nat.two_pow_add_eq_or_of_lt index_lt]

end Handle

end Rijndael
