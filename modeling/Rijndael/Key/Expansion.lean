import Rijndael.Key.Basic
import Rijndael.Key.Schedule

/-!
# Expanding a key

The schedule of a key begins with the words of the key. Every further word is
the sum of the word `Nk` places before it and a word derived from its
predecessor: at each multiple of `Nk` the predecessor is rotated, substituted
and offset by a round constant, with eight key words it is substituted
halfway between two multiples, and elsewhere it is taken as it is.

Words are appended one at a time to a vector that carries its length in its
type, so that every word and every round constant that is looked up exists.
-/

namespace Rijndael

namespace KeySize

/-- Each multiple of `Nk` in the schedule has a round constant. -/
theorem div_nk_lt (size : KeySize) {i : Nat} (h : i < size.scheduleWords) :
    i / size.nk - 1 < 10 := by
  cases size <;> simp only [scheduleWords, rounds, nk] at h ⊢ <;> omega

end KeySize

namespace CipherKey

/-- What is added at place `i` of the schedule to the word `Nk` places
before, when `previous` stands at place `i - 1`. -/
def derived (size : KeySize) (i : Nat) (h : i < size.scheduleWords) (previous : Word) : Word :=
  if i % size.nk = 0 then
    have := size.div_nk_lt h
    previous.rotate.sub.add (.ofTop roundConstants[i / size.nk - 1])
  else if 6 < size.nk ∧ i % size.nk = 4 then
    previous.sub
  else
    previous

/-- The first words of the schedule that starts with `start`: those of the key
and `n` more. -/
def expandWords (size : KeySize) (start : Vector Word size.nk) :
    (n : Nat) → size.nk + n ≤ size.scheduleWords → Vector Word (size.nk + n)
  | 0, _ => start
  | n + 1, h =>
    have := size.four_le_nk
    let words := expandWords size start n (Nat.le_of_succ_le h)
    words.push (words[n].add (derived size (size.nk + n) h words[size.nk + n - 1]))

/-- The words of the schedule of a key. -/
def scheduleWords (key : CipherKey) : Vector Word key.size.scheduleWords :=
  have sum_eq : key.size.nk + (key.size.scheduleWords - key.size.nk) = key.size.scheduleWords :=
    Nat.add_sub_cancel' key.size.nk_le_scheduleWords
  (expandWords key.size key.words (key.size.scheduleWords - key.size.nk)
    (Nat.le_of_eq sum_eq)).cast sum_eq

/-- The key schedule of a key: its words, four to a block, and zero blocks in
the room that is left. -/
def expand (key : CipherKey) : KeySchedule where
  rounds := key.size.rounds
  rounds_le := key.size.rounds_le
  blocks :=
    let words := key.scheduleWords
    Vector.ofFn fun r =>
      if h : r ≤ key.size.rounds then
        have : 4 * r.val + 3 < key.size.scheduleWords := by
          simp only [KeySize.scheduleWords]; omega
        ⟨words[4 * r.val], words[4 * r.val + 1], words[4 * r.val + 2], words[4 * r.val + 3]⟩
      else
        .zero

@[simp] theorem rounds_expand (key : CipherKey) : key.expand.rounds = key.size.rounds := rfl

end CipherKey

end Rijndael
