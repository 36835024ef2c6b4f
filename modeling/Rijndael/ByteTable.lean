/-!
# Tables indexed by a byte

A `ByteTable` assigns a byte to each of the 256 bytes. Such a table can be
inverted, also when it is no permutation: of several bytes that the table maps
to `v`, the inverse holds the largest, and it holds zero at a value that the
table never takes.
-/

namespace Rijndael

/-- A byte for each of the 256 bytes. -/
structure ByteTable where
  entries : Vector UInt8 256
  deriving DecidableEq

namespace ByteTable

def ofFn (f : UInt8 → UInt8) : ByteTable :=
  ⟨Vector.ofFn fun i => f (UInt8.ofNat i)⟩

def get (t : ByteTable) (b : UInt8) : UInt8 :=
  have := b.toNat_lt
  t.entries[b.toNat]

/-- The table with the entry of `b` replaced by `v`. -/
def set (t : ByteTable) (b v : UInt8) : ByteTable :=
  ⟨t.entries.set b.toNat v b.toNat_lt⟩

def zero : ByteTable := ⟨Vector.replicate 256 0⟩

/-- The 256 bytes in ascending order. -/
def allBytes : List UInt8 := (List.range 256).map UInt8.ofNat

/-- The inverse table. The bytes are visited in ascending order and each is
written to the place of its entry, so that a later byte replaces an earlier
one with the same entry. -/
def invert (t : ByteTable) : ByteTable :=
  allBytes.foldl (fun inverse b => inverse.set (t.get b) b) zero

/-- The table of the bytes of a list, if there are 256 of them. -/
def ofList? (bytes : List UInt8) : Option ByteTable :=
  if h : bytes.length = 256 then some ⟨⟨bytes.toArray, by simpa using h⟩⟩ else none

/-- The entries in ascending order of the bytes they belong to. -/
def toList (t : ByteTable) : List UInt8 := t.entries.toList

theorem get_set_self (t : ByteTable) (b v : UInt8) : (t.set b v).get b = v := by
  simp [get, set]

theorem get_set_ne (t : ByteTable) {b c : UInt8} (v : UInt8) (h : b ≠ c) :
    (t.set b v).get c = t.get c := by
  have hne : b.toNat ≠ c.toNat := fun heq => h (UInt8.toNat_inj.mp heq)
  simp [get, set, Vector.getElem_set_ne _ _ hne]

theorem get_zero (b : UInt8) : zero.get b = 0 := by
  simp [get, zero]

theorem get_ofFn (f : UInt8 → UInt8) (b : UInt8) : (ofFn f).get b = f b := by
  simp [get, ofFn]

/-- A table is determined by its entries. -/
theorem ext_get {s t : ByteTable} (h : ∀ b, s.get b = t.get b) : s = t := by
  rcases s with ⟨entries⟩
  rcases t with ⟨entries'⟩
  have hentries : entries = entries' := by
    apply Vector.ext
    intro i hi
    simpa [get, Nat.mod_eq_of_lt hi] using h (UInt8.ofNat i)
  rw [hentries]

end ByteTable

end Rijndael
