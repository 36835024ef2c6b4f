import Rijndael.Key.Size
import Rijndael.Word

/-!
# Cipher keys

A `CipherKey` keeps the bytes of a key in a buffer of thirty-two bytes, the
length of the longest key, and fills the rest with zeros. The size tells how
many of the bytes belong to the key, so that keys of different sizes are
different even when their buffers agree.

## Main results

* `CipherKey.ofBytes_eq_ok_iff` — a byte string is accepted as a key just when
  it consists of the bytes of that key.
-/

namespace Rijndael

/-- A key of one of the three sizes. -/
@[ext]
structure CipherKey where
  size : KeySize
  /-- The bytes of the key and zeros after them. -/
  buffer : Vector UInt8 32
  /-- Past the key the buffer holds zeros. -/
  padding : ∀ i : Fin 32, size.keyBytes ≤ i → buffer[i] = 0
  deriving DecidableEq

namespace CipherKey

/-- The key of the given size made of the first bytes of a list; bytes that
are missing count as zero. -/
def ofPrefix (size : KeySize) (bytes : List UInt8) : CipherKey where
  size := size
  buffer := Vector.ofFn fun i => if i < size.keyBytes then bytes.getD i 0 else 0
  padding i h := by simp [Nat.not_lt.mpr h]

/-- The key with exactly the given bytes. -/
def ofBytes (bytes : List UInt8) : Except LengthError CipherKey :=
  (KeySize.ofLength bytes.length).map fun size => ofPrefix size bytes

/-- The bytes of the key, without the padding. -/
def toBytes (key : CipherKey) : List UInt8 := key.buffer.toList.take key.size.keyBytes

/-- The key with its bytes overwritten by zeros. The size stays. -/
def wipe (key : CipherKey) : CipherKey where
  size := key.size
  buffer := Vector.replicate 32 0
  padding i _ := by simp

def words (key : CipherKey) : Vector Word key.size.nk :=
  Vector.ofFn fun i =>
    have := key.size.nk_le_eight
    ⟨key.buffer[4 * i.val], key.buffer[4 * i.val + 1],
     key.buffer[4 * i.val + 2], key.buffer[4 * i.val + 3]⟩

/-- A description of the key that keeps its bytes secret. -/
def redacted (key : CipherKey) : String :=
  s!"AesKey \x7b size: {key.size.tag}, .. \x7d"

@[simp] theorem size_ofPrefix (size : KeySize) (bytes : List UInt8) :
    (ofPrefix size bytes).size = size := rfl

@[simp] theorem size_wipe (key : CipherKey) : key.wipe.size = key.size := rfl

@[simp] theorem length_toBytes (key : CipherKey) :
    key.toBytes.length = key.size.keyBytes := by
  simp [toBytes, key.size.keyBytes_le]

/-- A key of the right length keeps its bytes. -/
theorem toBytes_ofPrefix {size : KeySize} {bytes : List UInt8}
    (h : bytes.length = size.keyBytes) : (ofPrefix size bytes).toBytes = bytes := by
  have := size.keyBytes_le
  apply List.ext_getElem
  · simp [length_toBytes, h]
  · intro i hi _
    simp only [length_toBytes, size_ofPrefix] at hi
    simp [toBytes, ofPrefix, hi, h]

/-- A key is determined by its size and its bytes. -/
@[simp] theorem ofPrefix_toBytes (key : CipherKey) : ofPrefix key.size key.toBytes = key := by
  have buffer_eq : (ofPrefix key.size key.toBytes).buffer = key.buffer := by
    apply Vector.ext
    intro i hi
    by_cases h : i < key.size.keyBytes
    · simp [ofPrefix, toBytes, h, hi]
    · simpa [ofPrefix, h] using (key.padding ⟨i, hi⟩ (Nat.not_lt.mp h)).symm
  exact CipherKey.ext (size_ofPrefix _ _) buffer_eq

theorem ofBytes_eq_ok_iff {bytes : List UInt8} {key : CipherKey} :
    ofBytes bytes = .ok key ↔ bytes = key.toBytes := by
  constructor
  · intro h
    cases hs : KeySize.ofLength bytes.length with
    | error e => simp [ofBytes, hs, Except.map] at h
    | ok size =>
      have length_eq := KeySize.ofLength_eq_ok_iff.mp hs
      simp only [ofBytes, hs, Except.map, Except.ok.injEq] at h
      rw [← h, toBytes_ofPrefix length_eq]
  · rintro rfl
    simp [ofBytes, Except.map]

end CipherKey

end Rijndael
