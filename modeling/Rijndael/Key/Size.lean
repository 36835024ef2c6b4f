import Rijndael.LengthError

/-!
# Key sizes

There are three sizes of key. The size fixes the number of rounds and with it
the number of words in the key schedule.
-/

namespace Rijndael

inductive KeySize where
  | aes128
  | aes192
  | aes256
  deriving DecidableEq, Repr

namespace KeySize

/-- The three sizes, in ascending order. -/
def all : List KeySize := [aes128, aes192, aes256]

/-- The number of words in a key, usually written `Nk`. -/
def nk : KeySize → Nat
  | aes128 => 4
  | aes192 => 6
  | aes256 => 8

def rounds (size : KeySize) : Nat := size.nk + 6

def keyBytes (size : KeySize) : Nat := size.nk * 4

def bits (size : KeySize) : Nat := size.keyBytes * 8

/-- The number of words in the key schedule: one block for each round and one
before the first. -/
def scheduleWords (size : KeySize) : Nat := 4 * (size.rounds + 1)

/-- The size of the keys with the given number of bytes. -/
def ofLength (length : Nat) : Except LengthError KeySize :=
  match length with
  | 16 => .ok aes128
  | 24 => .ok aes192
  | 32 => .ok aes256
  | _ => .error (.key length)

/-- The name of the cipher with keys of this size. -/
def name (size : KeySize) : String := s!"AES-{size.bits}"

/-- The size as one identifier. -/
def tag : KeySize → String
  | aes128 => "Aes128"
  | aes192 => "Aes192"
  | aes256 => "Aes256"

theorem four_le_nk (size : KeySize) : 4 ≤ size.nk := by cases size <;> decide

theorem nk_le_eight (size : KeySize) : size.nk ≤ 8 := by cases size <;> decide

theorem keyBytes_le (size : KeySize) : size.keyBytes ≤ 32 := by cases size <;> decide

theorem rounds_le (size : KeySize) : size.rounds ≤ 14 := by cases size <;> decide

theorem nk_le_scheduleWords (size : KeySize) : size.nk ≤ size.scheduleWords := by
  cases size <;> decide

@[simp] theorem ofLength_keyBytes (size : KeySize) : ofLength size.keyBytes = .ok size := by
  cases size <;> rfl

theorem exists_ofLength_eq_ok {length : Nat} (h : length ∈ [16, 24, 32]) :
    ∃ size, ofLength length = .ok size := by
  simp only [List.mem_cons, List.not_mem_nil, or_false] at h
  rcases h with rfl | rfl | rfl <;> exact ⟨_, rfl⟩

theorem ofLength_eq_error {length : Nat} (h : length ∉ [16, 24, 32]) :
    ofLength length = .error (.key length) := by
  unfold ofLength
  split
  all_goals simp_all

/-- A length is accepted just when it is the number of bytes of the size that
comes out. -/
theorem ofLength_eq_ok_iff {length : Nat} {size : KeySize} :
    ofLength length = .ok size ↔ length = size.keyBytes := by
  constructor
  · intro h
    unfold ofLength at h
    split at h <;> cases h <;> rfl
  · rintro rfl
    exact ofLength_keyBytes size

end KeySize

end Rijndael
