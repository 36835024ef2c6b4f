import Rijndael.Proofs.ScheduleWords

/-!
# Key expansion is that of the standard

`KeySchedule.IsExpansionOf` says what the standard asks of the schedule of a
key: the number of rounds, every word and every stored block. The schedule
that `CipherKey.expand` computes has all of it.

The expansion appends words to a vector that knows its length, so that no
place can be out of range. The usual way is to fill a table of sixty words in
place and to copy its words into the blocks afterwards. `expandInPlace?` does
that with every place and every round constant looked up, and has no result if
one of them is missing. It always has a result, and it is the same schedule.

## Main results

* `fillPlace?_filled`, `foldlM_fillPlace?` — one turn and all turns of the loop
  that fills the table.
* `packWord?_packed`, `foldlM_packWord?` — the same for the copying.
* `expandInPlace?_eq` — filling in place never leaves the tables.
* `exists_key_expand_isExpansionOf` — the expansion of every key is that of
  FIPS-197.
-/

namespace Rijndael

/-- The schedule is the expansion of a key of `nk` words. -/
structure KeySchedule.IsExpansionOf (s : KeySchedule) (key : List UInt8) (nk : ℕ) : Prop where
  rounds_eq : s.rounds = nk + 6
  wordCount_eq : s.wordCount = 4 * (s.rounds + 1)
  /-- The first words are those of the key, the first byte on top. -/
  keyWord : ∀ i < nk, ∃ w, s.word? i = some w ∧ w.toBytes = (key.drop (4 * i)).take 4
  /-- Every other word is a sum of two words before it. -/
  nextWord : ∀ i, nk ≤ i → i < s.wordCount →
    ∃ previous old, s.word? (i - 1) = some previous ∧ s.word? (i - nk) = some old ∧
      s.word? i = some (old.add (Standard.temp nk i previous))
  /-- A round key consists of four words. -/
  roundKey : ∀ r ≤ s.rounds,
    ∃ block w0 w1 w2 w3, s.roundKey? r = some block ∧
      s.word? (4 * r) = some w0 ∧ s.word? (4 * r + 1) = some w1 ∧
      s.word? (4 * r + 2) = some w2 ∧ s.word? (4 * r + 3) = some w3 ∧
      block.toBytes = w0.toBytes ++ w1.toBytes ++ w2.toBytes ++ w3.toBytes
  /-- The room that is left holds zeros. -/
  unused : ∀ r, s.rounds < r → r < 15 → s.roundKey? r = some .zero

namespace CipherKey

theorem expand_isExpansionOf (key : CipherKey) :
    key.expand.IsExpansionOf key.toBytes key.size.nk where
  rounds_eq := rfl
  wordCount_eq := rfl
  keyWord i hi := by
    have hle := key.size.nk_le_scheduleWords
    refine ⟨key.word i, key.word?_expand (by omega), ?_⟩
    rw [key.word_start hi, key.toBytes_words hi]
  nextWord i hle hi := by
    have hi : i < key.size.scheduleWords := hi
    refine ⟨key.word (i - 1), key.word (i - key.size.nk), key.word?_expand (by omega),
      key.word?_expand (by omega), ?_⟩
    rw [key.word?_expand hi, key.word_next hle hi, derived_eq_temp]
  roundKey r hr := by
    have hr : r ≤ key.size.rounds := hr
    have hwords : 4 * r + 3 < key.size.scheduleWords := by
      simp only [KeySize.scheduleWords]
      omega
    exact ⟨key.wordsBlock r, key.word (4 * r), key.word (4 * r + 1), key.word (4 * r + 2),
      key.word (4 * r + 3), key.roundKey?_expand hr, key.word?_expand (by omega),
      key.word?_expand (by omega), key.word?_expand (by omega), key.word?_expand hwords, rfl⟩
  unused _ hr hroom := key.roundKey?_expand_unused hr hroom

/-! ## Filling a table in place -/

/-- Room for the words of the longest schedule. -/
abbrev Scratch := Vector Word 60

/-- The table that holds the words of the key and zeros after them. -/
def keyScratch (key : CipherKey) : Scratch :=
  Vector.ofFn fun i => if h : i < key.size.nk then key.words[i.val] else .zero

/-- The word `k` places before place `i`, if there is such a place. -/
def before? (w : Scratch) (i k : ℕ) : Option Word := if k ≤ i then w[i - k]? else none

/-- The round constant of the `j`-th multiple of `nk`, if there is one. -/
def roundConstant? (j : ℕ) : Option UInt8 := if 1 ≤ j then roundConstants[j - 1]? else none

/-- One turn of the loop, which writes the word at place `i`. -/
def fillPlace? (size : KeySize) (w : Scratch) (i : ℕ) : Option Scratch := do
  let previous ← before? w i 1
  let old ← before? w i size.nk
  let added ←
    if i % size.nk = 0 then do
      let constant ← roundConstant? (i / size.nk)
      some (previous.rotate.sub.add (.ofTop constant))
    else if 6 < size.nk ∧ i % size.nk = 4 then
      some previous.sub
    else
      some previous
  if h : i < 60 then some (w.set i (old.add added)) else none

/-- The block with the column of a number replaced. -/
def setColumn (b : Block) (c : ℕ) (w : Word) : Block :=
  match c with
  | 0 => { b with c0 := w }
  | 1 => { b with c1 := w }
  | 2 => { b with c2 := w }
  | _ => { b with c3 := w }

/-- Copies a word to its place in the blocks, if there is such a place. -/
def packWord? (blocks : Vector Block 15) (entry : Word × ℕ) : Option (Vector Block 15) :=
  if h : entry.2 / 4 < 15 then
    some (blocks.set (entry.2 / 4) (setColumn blocks[entry.2 / 4] (entry.2 % 4) entry.1))
  else
    none

/-- The schedule of a key, filled in place and copied into blocks. There is
none if a place or a round constant is out of range. -/
def expandInPlace? (key : CipherKey) : Option KeySchedule := do
  let size := key.size
  let scratch ←
    (List.range' size.nk (size.scheduleWords - size.nk)).foldlM (fillPlace? size) key.keyScratch
  let words ←
    if size.scheduleWords ≤ 60 then some (scratch.toList.take size.scheduleWords) else none
  let blocks ← words.zipIdx.foldlM packWord? (Vector.replicate 15 .zero)
  return ⟨size.rounds, size.rounds_le, blocks⟩

/-! ## The loop that fills the table -/

private theorem scheduleWords_le (size : KeySize) : size.scheduleWords ≤ 60 := by
  cases size <;> decide

/-- The first `n` words of the schedule and zeros after them. -/
def wordBelow (key : CipherKey) (n i : ℕ) : Word := if i < n then key.word i else .zero

private theorem wordBelow_succ (key : CipherKey) (n i : ℕ) :
    key.wordBelow (n + 1) i = if i = n then key.word n else key.wordBelow n i := by
  simp only [wordBelow]
  rcases Nat.lt_trichotomy i n with hlt | rfl | hgt
  · rw [if_pos (by omega), if_neg (by omega), if_pos hlt]
  · rw [if_pos (by omega), if_pos rfl]
  · rw [if_neg (by omega), if_neg (by omega), if_neg (by omega)]

/-- The table after the places below `n` have been filled. -/
def filled (key : CipherKey) (n : ℕ) : Scratch := Vector.ofFn fun i => key.wordBelow n i

private theorem keyScratch_eq (key : CipherKey) : key.keyScratch = key.filled key.size.nk := by
  apply Vector.ext
  intro i hi
  simp only [keyScratch, filled, wordBelow, Vector.getElem_ofFn]
  by_cases hlt : i < key.size.nk
  · rw [dif_pos hlt, if_pos hlt, word_start key hlt]
  · rw [dif_neg hlt, if_neg hlt]

private theorem set_filled (key : CipherKey) {n : ℕ} (hn : n < 60) :
    (key.filled n).set n (key.word n) = key.filled (n + 1) := by
  apply Vector.ext
  intro i hi
  simp only [Vector.getElem_set, filled, Vector.getElem_ofFn, wordBelow_succ, eq_comm]

private theorem before?_filled (key : CipherKey) {n k : ℕ} (hk : 0 < k) (hle : k ≤ n)
    (hn : n ≤ 60) :
    before? (key.filled n) n k = some (key.word (n - k)) := by
  have hroom : n - k < 60 := by omega
  have hfilled : n - k < n := by omega
  simp [before?, filled, wordBelow, hle, hroom, hfilled]

private theorem roundConstant?_eq {j : ℕ} (hpos : 1 ≤ j) (hlt : j - 1 < 10) :
    roundConstant? j = some roundConstants[j - 1] := by
  simp [roundConstant?, hpos, hlt]

/-- One turn finds everything it looks up and fills one more place. -/
theorem fillPlace?_filled (key : CipherKey) {n : ℕ} (hle : key.size.nk ≤ n)
    (hn : n < key.size.scheduleWords) :
    fillPlace? key.size (key.filled n) n = some (key.filled (n + 1)) := by
  have hnk := key.size.four_le_nk
  have hroom : n < 60 := Nat.lt_of_lt_of_le hn (scheduleWords_le key.size)
  have hpos : 1 ≤ n / key.size.nk := Nat.div_pos hle (by omega)
  have hword := key.word_next hle hn
  rw [derived] at hword
  rw [fillPlace?, before?_filled key (by decide) (by omega) (by omega),
    before?_filled key (by omega) hle (by omega), roundConstant?_eq hpos (key.size.div_nk_lt hn),
    ← set_filled key hroom, hword]
  simp only [Option.bind_eq_bind, Option.bind_some, dif_pos hroom]
  by_cases hmultiple : n % key.size.nk = 0
  · rw [if_pos hmultiple, if_pos hmultiple]
  · rw [if_neg hmultiple, if_neg hmultiple]
    by_cases hhalf : 6 < key.size.nk ∧ n % key.size.nk = 4
    · rw [if_pos hhalf, if_pos hhalf]
    · rw [if_neg hhalf, if_neg hhalf]

theorem foldlM_fillPlace? (key : CipherKey) {n m : ℕ} (hle : key.size.nk ≤ n)
    (hn : n + m ≤ key.size.scheduleWords) :
    (List.range' n m).foldlM (fillPlace? key.size) (key.filled n) =
      some (key.filled (n + m)) := by
  induction m generalizing n with
  | zero => rfl
  | succ m ih =>
      rw [List.range'_succ, List.foldlM_cons, fillPlace?_filled key hle (by omega),
        show n + (m + 1) = n + 1 + m by omega]
      exact ih (by omega) (by omega)

private theorem toList_filled (key : CipherKey) :
    (key.filled key.size.scheduleWords).toList.take key.size.scheduleWords =
      (List.range key.size.scheduleWords).map key.word := by
  have hroom := scheduleWords_le key.size
  apply List.ext_getElem
  · simpa using hroom
  · intro i hi _
    have hlt : i < key.size.scheduleWords := by
      simp only [List.length_take] at hi
      omega
    simp [filled, wordBelow, hlt]

/-! ## The loop that copies the words -/

/-- The blocks after the first `n` words have been copied. -/
def packed (key : CipherKey) (n : ℕ) : Vector Block 15 :=
  Vector.ofFn fun r =>
    ⟨key.wordBelow n (4 * r), key.wordBelow n (4 * r + 1), key.wordBelow n (4 * r + 2),
      key.wordBelow n (4 * r + 3)⟩

private theorem packed_zero (key : CipherKey) : key.packed 0 = Vector.replicate 15 .zero := by
  apply Vector.ext
  intro r hr
  simp [packed, wordBelow, Block.zero]

/-- One turn finds its place and changes one column of one block. -/
theorem packWord?_packed (key : CipherKey) {n : ℕ} (hn : n < 60) :
    packWord? (key.packed n) (key.word n, n) = some (key.packed (n + 1)) := by
  have hroom : n / 4 < 15 := by omega
  rw [packWord?, dif_pos hroom]
  refine congrArg some (Vector.ext fun r hr => ?_)
  rw [Vector.getElem_set]
  simp only [packed, Vector.getElem_ofFn]
  by_cases hblock : n / 4 = r
  · rw [if_pos hblock]
    obtain ⟨c, hc, rfl⟩ : ∃ c, c < 4 ∧ n = 4 * r + c := ⟨n % 4, by omega, by omega⟩
    have hdiv : (4 * r + c) / 4 = r := by omega
    have hmod : (4 * r + c) % 4 = c := by omega
    rw [hmod]
    simp only [hdiv]
    interval_cases c <;> simp [setColumn, wordBelow_succ]
  · rw [if_neg hblock]
    simp only [wordBelow_succ]
    rw [if_neg (by omega), if_neg (by omega), if_neg (by omega), if_neg (by omega)]

theorem foldlM_packWord? (key : CipherKey) {n m : ℕ} (hn : n + m ≤ 60) :
    (((List.range' n m).map key.word).zipIdx n).foldlM packWord? (key.packed n) =
      some (key.packed (n + m)) := by
  induction m generalizing n with
  | zero => rfl
  | succ m ih =>
      rw [List.range'_succ, List.map_cons, List.zipIdx_cons, List.foldlM_cons,
        packWord?_packed key (by omega), show n + (m + 1) = n + 1 + m by omega]
      exact ih (by omega)

/-- When all words have been copied, the blocks are those of the schedule. -/
private theorem packed_scheduleWords (key : CipherKey) :
    key.packed key.size.scheduleWords = key.expand.blocks := by
  apply Vector.ext
  intro r hr
  have hget : key.expand.roundKey? r = some key.expand.blocks[r] := by
    simp [KeySchedule.roundKey?, hr]
  apply Option.some.inj
  rw [← hget]
  have hcount : key.size.scheduleWords = 4 * (key.size.rounds + 1) := rfl
  rcases Nat.lt_or_ge key.size.rounds r with hlt | hge
  · rw [roundKey?_expand_unused key hlt hr]
    simp only [packed, wordBelow, Vector.getElem_ofFn]
    rw [if_neg (by omega), if_neg (by omega), if_neg (by omega), if_neg (by omega)]
    rfl
  · rw [roundKey?_expand key hge]
    simp only [packed, wordBelow, Vector.getElem_ofFn, wordsBlock]
    rw [if_pos (by omega), if_pos (by omega), if_pos (by omega), if_pos (by omega)]

/-- Expanding a key in place never leaves a table, and the schedule is the
same. -/
theorem expandInPlace?_eq (key : CipherKey) : key.expandInPlace? = some key.expand := by
  have hroom := scheduleWords_le key.size
  have hle := key.size.nk_le_scheduleWords
  have hfill := foldlM_fillPlace? key Nat.le.refl
    (show key.size.nk + (key.size.scheduleWords - key.size.nk) ≤ key.size.scheduleWords by omega)
  have hpack := foldlM_packWord? key (show 0 + key.size.scheduleWords ≤ 60 by omega)
  rw [Nat.add_sub_cancel' hle] at hfill
  rw [Nat.zero_add, packed_zero, packed_scheduleWords, ← List.range_eq_range'] at hpack
  simp only [expandInPlace?, keyScratch_eq, hfill, Option.bind_eq_bind, Option.bind_some,
    if_pos hroom, toList_filled]
  rw [hpack]
  rfl

/-- Every byte string of sixteen, twenty-four or thirty-two bytes is a key, and
its schedule is the key expansion of FIPS-197 with a quarter of that number of
words. Filled in place, the schedule is the same and nothing is looked up out
of range. -/
theorem exists_key_expand_isExpansionOf (bytes : List UInt8)
    (hlength : bytes.length = 16 ∨ bytes.length = 24 ∨ bytes.length = 32) :
    ∃ key, ofBytes bytes = .ok key ∧
      key.expand.IsExpansionOf bytes (bytes.length / 4) ∧
      key.expandInPlace? = some key.expand := by
  obtain ⟨size, hsize⟩ : ∃ size : KeySize, bytes.length = size.keyBytes := by
    rcases hlength with h | h | h
    · exact ⟨.aes128, h⟩
    · exact ⟨.aes192, h⟩
    · exact ⟨.aes256, h⟩
  have htoBytes : (ofPrefix size bytes).toBytes = bytes := toBytes_ofPrefix hsize
  have hnk : bytes.length / 4 = size.nk := by
    rw [hsize, KeySize.keyBytes, Nat.mul_div_cancel _ (by decide)]
  have hexpansion := expand_isExpansionOf (ofPrefix size bytes)
  rw [htoBytes] at hexpansion
  refine ⟨ofPrefix size bytes, ofBytes_eq_ok_iff.mpr htoBytes.symm, ?_, expandInPlace?_eq _⟩
  rw [hnk]
  exact hexpansion

/-- The bytes `0` to `31` are a key of eight words. -/
theorem exists_key_expand_isExpansionOf_ascending :
    ((List.range 32).map UInt8.ofNat).length = 32 ∧
      ∃ key, ofBytes ((List.range 32).map UInt8.ofNat) = .ok key ∧
        key.expand.IsExpansionOf ((List.range 32).map UInt8.ofNat) 8 ∧
        key.expandInPlace? = some key.expand :=
  ⟨rfl, exists_key_expand_isExpansionOf ((List.range 32).map UInt8.ofNat) (.inr (.inr rfl))⟩

end CipherKey

end Rijndael
