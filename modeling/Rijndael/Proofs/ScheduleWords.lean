import Rijndael.Key.Expansion
import Rijndael.Proofs.Substitution

/-!
# The words of an expanded key

`CipherKey.expandWords` appends one word after the other, and a word that has
been appended stays. So there is one sequence of words, `CipherKey.word`, that
every stage of the expansion is a beginning of: it starts with the words of
the key and goes on by a recurrence. What the recurrence adds is the word that
the standard prescribes, and the stored round keys are the words in order.

## Main results

* `word_start`, `word_next` — the words of the key and the recurrence.
* `derived_eq_temp` — the word that is added is that of the standard.
* `roundKey?_expand`, `roundKey?_expand_unused`, `word?_expand` — what the
  schedule of a key holds at each place.
-/

namespace Rijndael

open Rijndael.Field (element)

namespace CipherKey

/-! ## The recurrence -/

section Words

variable {size : KeySize} {start : Vector Word size.nk}

/-- Appending a word leaves the earlier ones where they are. -/
private theorem getElem_expandWords_succ {n i : ℕ} (h : size.nk + (n + 1) ≤ size.scheduleWords)
    (hi : i < size.nk + n) :
    (expandWords size start (n + 1) h)[i] =
      (expandWords size start n (Nat.le_of_succ_le h))[i] :=
  Vector.getElem_push_lt hi

private theorem getElem_expandWords_start {n i : ℕ} (h : size.nk + n ≤ size.scheduleWords)
    (hi : i < size.nk) : (expandWords size start n h)[i] = start[i] := by
  induction n with
  | zero => rfl
  | succ n ih => rw [getElem_expandWords_succ h (by omega), ih]

/-- Past the words of the key every word is the sum of the word `nk` places
before and the derived one. The last word was computed from the words before
it, and for all others the sum was right already. -/
private theorem getElem_expandWords {n i : ℕ} (h : size.nk + n ≤ size.scheduleWords)
    (hle : size.nk ≤ i) (hi : i < size.nk + n) :
    (expandWords size start n h)[i] =
      (expandWords size start n h)[i - size.nk].add
        (derived size i (Nat.lt_of_lt_of_le hi h) (expandWords size start n h)[i - 1]) := by
  have hnk := size.four_le_nk
  induction n with
  | zero => omega
  | succ n ih =>
      rcases Nat.lt_or_ge i (size.nk + n) with hlt | hge
      · simp only [getElem_expandWords_succ h hlt,
          getElem_expandWords_succ h (show i - size.nk < size.nk + n by omega),
          getElem_expandWords_succ h (show i - 1 < size.nk + n by omega)]
        exact ih _ hlt
      · obtain rfl : i = size.nk + n := by omega
        simp only [getElem_expandWords_succ h (show size.nk + n - size.nk < size.nk + n by omega),
          getElem_expandWords_succ h (show size.nk + n - 1 < size.nk + n by omega)]
        simp only [expandWords, Vector.getElem_push_eq, Nat.add_sub_cancel_left]

end Words

/-- The word at a place of the schedule of a key; zero past its end. -/
def word (key : CipherKey) (i : ℕ) : Word := key.scheduleWords[i]?.getD .zero

private theorem word_eq (key : CipherKey) {i : ℕ} (hi : i < key.size.scheduleWords) :
    key.word i = key.scheduleWords[i] := by
  simp [word, hi]

/-- The schedule starts with the words of the key. -/
theorem word_start (key : CipherKey) {i : ℕ} (hi : i < key.size.nk) :
    key.word i = key.words[i] := by
  have hle := key.size.nk_le_scheduleWords
  rw [word_eq key (by omega)]
  exact getElem_expandWords_start _ hi

/-- The recurrence of the schedule. -/
theorem word_next (key : CipherKey) {i : ℕ} (hle : key.size.nk ≤ i)
    (hi : i < key.size.scheduleWords) :
    key.word i =
      (key.word (i - key.size.nk)).add (derived key.size i hi (key.word (i - 1))) := by
  rw [word_eq key hi, word_eq key (by omega), word_eq key (by omega)]
  exact getElem_expandWords _ hle (by omega)

/-- The words of a key are its bytes, four at a time. -/
theorem toBytes_words (key : CipherKey) {i : ℕ} (hi : i < key.size.nk) :
    key.words[i].toBytes = (key.toBytes.drop (4 * i)).take 4 := by
  have hbytes : key.size.keyBytes = key.size.nk * 4 := rfl
  have hroom := key.size.keyBytes_le
  apply List.ext_getElem
  · simp
    omega
  · intro j hj _
    rw [Word.length_toBytes] at hj
    rw [List.getElem_take, List.getElem_drop]
    interval_cases j <;> simp [words, toBytes, Word.toBytes]

/-! ## What the recurrence adds -/

private theorem getElem_powersFrom {n i : ℕ} (a : UInt8) (hi : i < (powersFrom n a).length) :
    element (powersFrom n a)[i] = AdjoinRoot.root Field.modulus ^ i * element a := by
  induction n generalizing a i with
  | zero => simp [powersFrom] at hi
  | succ n ih =>
      cases i with
      | zero => simp [powersFrom]
      | succ i =>
          simp only [powersFrom, List.getElem_cons_succ]
          rw [ih, Field.element_xtime, pow_succ, mul_assoc]

/-- The round constants are the powers of `x`. -/
private theorem element_roundConstants {i : ℕ} (hi : i < 10) :
    element roundConstants[i] = AdjoinRoot.root Field.modulus ^ i := by
  have hlength : i < (powersFrom 10 1).length := by
    rw [length_powersFrom]
    exact hi
  have hpower := getElem_powersFrom 1 hlength
  rw [Field.element_one, mul_one] at hpower
  exact hpower

private theorem ofTop_roundConstants {j : ℕ} (hj : j - 1 < 10) :
    Word.ofTop roundConstants[j - 1] = Standard.rcon j := by
  rw [Standard.rcon, Field.byteEquiv_symm_eq (element_roundConstants hj), Word.ofTop]

private theorem sub_eq_subWord (w : Word) : w.sub = Standard.subWord w := by
  simp only [Word.sub, Word.map, subByte_eq_standard, Standard.subWord]

/-- The derived word is the one that the standard adds. Only for keys of eight
words is there a place halfway between two multiples. -/
theorem derived_eq_temp (size : KeySize) {i : ℕ} (hi : i < size.scheduleWords)
    (previous : Word) : derived size i hi previous = Standard.temp size.nk i previous := by
  have hhalf : (6 < size.nk ∧ i % size.nk = 4) ↔ (size.nk = 8 ∧ i % 8 = 4) := by
    cases size <;> simp [KeySize.nk]
  simp only [derived, Standard.temp, Nat.dvd_iff_mod_eq_zero, hhalf]
  split
  · rw [ofTop_roundConstants (size.div_nk_lt hi), sub_eq_subWord]
    rfl
  · rw [sub_eq_subWord]

/-! ## The stored blocks -/

/-- The words `4r` to `4r + 3` as a block. -/
def wordsBlock (key : CipherKey) (r : ℕ) : Block :=
  ⟨key.word (4 * r), key.word (4 * r + 1), key.word (4 * r + 2), key.word (4 * r + 3)⟩

theorem roundKey?_expand (key : CipherKey) {r : ℕ} (hr : r ≤ key.size.rounds) :
    key.expand.roundKey? r = some (key.wordsBlock r) := by
  have hrounds := key.size.rounds_le
  have hwords : 4 * r + 3 < key.size.scheduleWords := by
    simp only [KeySize.scheduleWords]
    omega
  rw [wordsBlock, word_eq key (by omega), word_eq key (by omega), word_eq key (by omega),
    word_eq key hwords]
  simp [KeySchedule.roundKey?, expand, hr, show r < 15 by omega]

theorem roundKey?_expand_unused (key : CipherKey) {r : ℕ} (hr : key.size.rounds < r)
    (hroom : r < 15) : key.expand.roundKey? r = some .zero := by
  simp [KeySchedule.roundKey?, expand, hroom, Nat.not_le.mpr hr]

theorem word?_expand (key : CipherKey) {i : ℕ} (hi : i < key.size.scheduleWords) :
    key.expand.word? i = some (key.word i) := by
  have hround : i / 4 ≤ key.size.rounds := by
    simp only [KeySize.scheduleWords] at hi
    omega
  have hblock : key.expand.blocks[i / 4]? = some (key.wordsBlock (i / 4)) :=
    key.roundKey?_expand hround
  have hsplit := Nat.div_add_mod i 4
  have hmod := Nat.mod_lt i (show 4 > 0 by decide)
  rw [KeySchedule.word?, hblock, Option.bind_some]
  conv => rhs; rw [← hsplit]
  generalize i % 4 = c at hmod
  interval_cases c <;> rfl

end CipherKey

end Rijndael
