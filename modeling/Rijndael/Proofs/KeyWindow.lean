import Rijndael.Proofs.RoundTrip
import Rijndael.Proofs.ScheduleWords

/-!
# A key from a window of its schedule

A key has as many words as the recurrence of its schedule reaches back. Any
window of that many words in a row therefore determines the word after it, and
just as well the word before it: the recurrence adds two words, and addition is
undone by adding again. Read backwards from a window, wherever it stands and
whatever words it holds, the schedule leads to the words of exactly one key.

So keys that have a window in common are equal. In particular no two keys have
the same schedule, and keys of different sizes are kept apart by the number of
rounds, even when the bytes of the one are those of the other and zeros.

## Main results

* `word_before` — the recurrence read backwards.
* `exists_word_eq` — every window is that of some key.
* `eq_of_word_eq` — two keys with a window in common are equal.
* `existsUnique_word?_expand`, `expand_injective` — both for the schedules of keys.
* `existsUnique_key_of_window` — the same, with what it means for keys to be equal.
-/

namespace Rijndael

namespace Word

private theorem toBytes_injective : Function.Injective toBytes := by
  rintro ⟨_, _, _, _⟩ ⟨_, _, _, _⟩ hbytes
  simpa [toBytes] using hbytes

/-- Words are told apart by the string of all their bytes. -/
private theorem flatMap_toBytes_injective : Function.Injective (List.flatMap toBytes) := by
  intro words
  induction words with
  | nil =>
      intro words' hbytes
      cases words' with
      | nil => rfl
      | cons w' words' => simp [toBytes] at hbytes
  | cons w words ih =>
      intro words' hbytes
      cases words' with
      | nil => simp [toBytes] at hbytes
      | cons w' words' =>
          rw [List.flatMap_cons, List.flatMap_cons] at hbytes
          obtain ⟨hhead, htail⟩ := List.append_inj hbytes rfl
          rw [toBytes_injective hhead, ih htail]

end Word

namespace KeySize

private theorem rounds_injective : Function.Injective rounds := by
  intro size size' hrounds
  cases size <;> cases size' <;> first | rfl | cases hrounds

end KeySize

namespace CipherKey

/-! ## Keys and their words -/

/-- A byte string is what its groups of four bytes make up. -/
private theorem flatMap_take_drop {n : ℕ} {bytes : List UInt8} (hlength : bytes.length = 4 * n) :
    (List.range n).flatMap (fun i => (bytes.drop (4 * i)).take 4) = bytes := by
  induction n generalizing bytes with
  | zero => exact (List.eq_nil_of_length_eq_zero hlength).symm
  | succ n ih =>
      have hrest := @ih (bytes.drop 4) (by rw [List.length_drop]; omega)
      simp only [List.drop_drop, Nat.add_comm 4] at hrest
      rw [List.range_succ_eq_map, List.flatMap_cons, List.flatMap_map]
      simp only [Nat.mul_succ, Nat.mul_zero, List.drop_zero]
      rw [hrest, List.take_append_drop]

/-- The bytes of a key are those of its words. -/
private theorem toBytes_eq_flatMap (key : CipherKey) :
    key.toBytes = ((List.range key.size.nk).map key.word).flatMap Word.toBytes := by
  have hlength : key.toBytes.length = 4 * key.size.nk := by
    rw [length_toBytes, KeySize.keyBytes, Nat.mul_comm]
  rw [List.flatMap_map]
  refine (flatMap_take_drop hlength).symm.trans (List.flatMap_congr ?_)
  intro i hi
  have hi := List.mem_range.mp hi
  rw [key.word_start hi, key.toBytes_words hi]

/-- Keys of one size are equal when their words are. -/
private theorem eq_of_word_start {key key' : CipherKey} (hsize : key'.size = key.size)
    (hword : ∀ i < key.size.nk, key.word i = key'.word i) : key = key' := by
  have hwords : (List.range key.size.nk).map key.word =
      (List.range key.size.nk).map key'.word :=
    List.map_congr_left fun i hi => hword i (List.mem_range.mp hi)
  have hbytes : key.toBytes = key'.toBytes := by
    rw [toBytes_eq_flatMap, toBytes_eq_flatMap, hsize, hwords]
  rw [← ofPrefix_toBytes key, ← ofPrefix_toBytes key', hsize, hbytes]

/-- Any words, if there are enough, are the words of a key. -/
private theorem exists_word_start (size : KeySize) (v : ℕ → Word) :
    ∃ key : CipherKey, key.size = size ∧ ∀ i < size.nk, key.word i = v i := by
  let bytes := ((List.range size.nk).map v).flatMap Word.toBytes
  have hlength : bytes.length = size.keyBytes := by
    simp [bytes, KeySize.keyBytes, Function.comp_def]
  have hbytes := (ofPrefix size bytes).toBytes_eq_flatMap
  rw [toBytes_ofPrefix hlength] at hbytes
  have hwords := Word.flatMap_toBytes_injective hbytes
  refine ⟨ofPrefix size bytes, rfl, fun i hi => ?_⟩
  exact (List.map_inj_left.mp hwords i (List.mem_range.mpr hi)).symm

/-! ## The recurrence read backwards -/

theorem word_before {key : CipherKey} {size : KeySize} (hsize : key.size = size) {i : ℕ}
    (hi : i + size.nk < size.scheduleWords) :
    key.word i =
      (key.word (i + size.nk)).add
        (derived size (i + size.nk) hi (key.word (i + size.nk - 1))) := by
  subst hsize
  rw [key.word_next (Nat.le_add_left _ _) hi, Nat.add_sub_cancel, Word.add_add_cancel]

/-- The window that stands one place before a window `v`, the last word of which
stands at place `i`. -/
def windowBefore (size : KeySize) (i : ℕ) (hi : i < size.scheduleWords) (v : ℕ → Word) : ℕ → Word
  | 0 => (v (size.nk - 1)).add (derived size i hi (v (size.nk - 2)))
  | j + 1 => v j

/-- Whatever stands in a window, some key has it there. The window is moved to the
beginning of the schedule one place at a time. -/
theorem exists_word_eq (size : KeySize) {start : ℕ} (hstart : start + size.nk ≤ size.scheduleWords)
    (v : ℕ → Word) :
    ∃ key : CipherKey, key.size = size ∧ ∀ i < size.nk, key.word (start + i) = v i := by
  have hnk := size.four_le_nk
  induction start generalizing v with
  | zero =>
      obtain ⟨key, hsize, hword⟩ := exists_word_start size v
      exact ⟨key, hsize, fun i hi => by rw [Nat.zero_add, hword i hi]⟩
  | succ start ih =>
      have hlast : start + size.nk < size.scheduleWords := by omega
      obtain ⟨key, rfl, hword⟩ :=
        ih (by omega) (windowBefore size (start + size.nk) hlast v)
      refine ⟨key, rfl, fun i hi => ?_⟩
      have hshift : start + 1 + i = start + (i + 1) := by omega
      rw [hshift]
      rcases Nat.lt_or_ge (i + 1) key.size.nk with hlt | hge
      · rw [hword (i + 1) hlt, windowBefore]
      · -- The last word of the window comes back from the word that was put in front.
        obtain rfl : i = key.size.nk - 1 := by omega
        have hfront : key.word start = _ := hword 0 (by omega)
        have hprevious : key.word (start + key.size.nk - 1) = v (key.size.nk - 2) := by
          have heq := hword (key.size.nk - 2 + 1) (by omega)
          rwa [windowBefore, show start + (key.size.nk - 2 + 1) = start + key.size.nk - 1 by omega]
            at heq
        rw [show start + (key.size.nk - 1 + 1) = start + key.size.nk by omega,
          key.word_next (Nat.le_add_left _ _) hlast, Nat.add_sub_cancel, hprevious, hfront,
          windowBefore, Word.add_add_cancel]

/-- Keys of one size that agree on a window are equal. -/
theorem eq_of_word_eq {key key' : CipherKey} (hsize : key'.size = key.size) {start : ℕ}
    (hstart : start + key.size.nk ≤ key.size.scheduleWords)
    (hword : ∀ i < key.size.nk, key.word (start + i) = key'.word (start + i)) : key = key' := by
  have hnk := key.size.four_le_nk
  induction start with
  | zero => exact eq_of_word_start hsize fun i hi => by simpa using hword i hi
  | succ start ih =>
      have hlast : start + key.size.nk < key.size.scheduleWords := by omega
      have hshifted : ∀ j, 1 ≤ j → j ≤ key.size.nk →
          key.word (start + j) = key'.word (start + j) := by
        intro j hpos hle
        have heq := hword (j - 1) (by omega)
        rwa [show start + 1 + (j - 1) = start + j by omega] at heq
      refine ih (by omega) fun i hi => ?_
      rcases Nat.eq_zero_or_pos i with rfl | hpos
      · have hprevious := hshifted (key.size.nk - 1) (by omega) (by omega)
        rw [← Nat.add_sub_assoc (by omega)] at hprevious
        rw [Nat.add_zero, word_before rfl hlast, word_before hsize hlast,
          hshifted key.size.nk (by omega) (by omega), hprevious]
      · exact hshifted i hpos (by omega)

/-! ## Schedules -/

/-- A window of a schedule, wherever it stands and whatever it holds, is that of
exactly one key of the size. -/
theorem existsUnique_word?_expand (size : KeySize) {start : ℕ}
    (hstart : start + size.nk ≤ size.scheduleWords) (v : Vector Word size.nk) :
    ∃! key : CipherKey, key.size = size ∧
      ∀ i (hi : i < size.nk), key.expand.word? (start + i) = some v[i] := by
  obtain ⟨key, rfl, hword⟩ := exists_word_eq size hstart fun i => v[i]?.getD .zero
  refine ⟨key, ⟨rfl, fun i hi => ?_⟩, ?_⟩
  · rw [key.word?_expand (by omega), hword i hi]
    simp [hi]
  · rintro key' ⟨hsize, hword'⟩
    refine (eq_of_word_eq hsize hstart fun i hi => ?_).symm
    have hi' : start + i < key'.size.scheduleWords := by
      rw [hsize]
      omega
    have heq := hword' i hi
    rw [key'.word?_expand hi', Option.some.injEq] at heq
    rw [heq, hword i hi]
    simp [hi]

theorem expand_injective : Function.Injective expand := by
  intro key key' hexpand
  have hsize : key'.size = key.size :=
    KeySize.rounds_injective (congrArg KeySchedule.rounds hexpand.symm)
  refine eq_of_word_start hsize fun i hi => ?_
  have hle := key.size.nk_le_scheduleWords
  have hword : key.expand.word? i = key'.expand.word? i := by rw [hexpand]
  rw [key.word?_expand (by omega), key'.word?_expand (by rw [hsize]; omega)] at hword
  exact Option.some.inj hword

/-- The schedule of a key can be read backwards from any window of as many words as
the key has: there is exactly one key of the size with those words there. Byte
strings that are accepted as keys are therefore equal just when the keys are, with
the zeros that fill them up, and just when the schedules are. -/
theorem existsUnique_key_of_window :
    (∀ (size : KeySize) (start : ℕ), start + size.nk ≤ size.scheduleWords →
      ∀ v : Vector Word size.nk, ∃! key : CipherKey, key.size = size ∧
        ∀ i (hi : i < size.nk), key.expand.word? (start + i) = some v[i]) ∧
    ∀ (bytes bytes' : List UInt8) (key key' : CipherKey),
      ofBytes bytes = .ok key → ofBytes bytes' = .ok key' →
        (bytes = bytes' ↔ key.size = key'.size ∧ key.buffer = key'.buffer) ∧
        (bytes = bytes' ↔ key.expand = key'.expand) := by
  refine ⟨fun size start hstart v => existsUnique_word?_expand size hstart v, ?_⟩
  intro bytes bytes' key key' hkey hkey'
  have hbytes : bytes = bytes' ↔ key = key' := by
    constructor
    · rintro rfl
      rw [hkey] at hkey'
      exact Except.ok.inj hkey'
    · rintro rfl
      rw [ofBytes_eq_ok_iff.mp hkey, ofBytes_eq_ok_iff.mp hkey']
  rw [hbytes, expand_injective.eq_iff, CipherKey.ext_iff]
  exact ⟨Iff.rfl, Iff.rfl⟩

/-- The last window of the longest schedule, and two keys of zeros which fill the
buffer alike and differ in size. -/
theorem existsUnique_key_of_window_last :
    (52 + KeySize.aes256.nk ≤ KeySize.aes256.scheduleWords ∧
      ∃! key : CipherKey, key.size = .aes256 ∧
        ∀ i (hi : i < KeySize.aes256.nk),
          key.expand.word? (52 + i) = some (Vector.replicate 8 (Word.ofTop 1))[i]) ∧
    (ofBytes (.replicate 16 0) = .ok (ofPrefix .aes128 []) ∧
      ofBytes (.replicate 24 0) = .ok (ofPrefix .aes192 []) ∧
      (ofPrefix .aes128 []).buffer = (ofPrefix .aes192 []).buffer ∧
      (ofPrefix .aes128 []).expand ≠ (ofPrefix .aes192 []).expand) := by
  have hkey : ofBytes (.replicate 16 0) = .ok (ofPrefix .aes128 []) := by decide
  have hkey' : ofBytes (.replicate 24 0) = .ok (ofPrefix .aes192 []) := by decide
  refine ⟨⟨by decide, existsUnique_key_of_window.1 .aes256 52 (by decide) _⟩, hkey, hkey',
    by decide, ?_⟩
  exact mt (existsUnique_key_of_window.2 _ _ _ _ hkey hkey').2.mpr (by decide)

end CipherKey

end Rijndael
