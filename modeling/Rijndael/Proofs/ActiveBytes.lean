import Rijndael.Key.Expansion
import Rijndael.Proofs.BranchNumber
import Rijndael.Proofs.RoundTrip

/-!
# Active bytes over four rounds

Two runs of the cipher under the same schedule start from different blocks. A
byte of the state is active where the two runs differ. The substitution and the
round key leave the active bytes where they are, the shift moves them, and
mixing turns a few of them into many.

For every column that is active when it is mixed, the states before and after
the round have five active bytes together: this is the branch number of the
column map. The shift takes the bytes of a column from four columns and sends
them on to four columns. So one column that is active in a round makes five
active columns before and after it together, and with the rounds on either side
these make twenty-five active bytes.

## Main results

* `Block.five_mul_le_card_active` — the active bytes before and after a round.
* `Block.five_le_card_activeColumns` — the active columns before and after a
  round.
* `KeySchedule.entering_enters` — the states that the active bytes are counted in
  are those of encryption.
* `KeySchedule.twentyFive_le_card_active` — the active bytes in four rounds of
  encryption.
-/

namespace Rijndael

private theorem Word.add_left_injective (k : Word) : Function.Injective fun w : Word => w.add k :=
  Function.LeftInverse.injective (g := fun w => w.add k) fun w => w.add_add_cancel k

namespace Block

/-! ## Active bytes and columns -/

/-- The places, by row and column, at which two states differ. -/
def active (s t : Block) : Finset (Fin 4 × Fin 4) :=
  Finset.univ.filter fun p => s.matrix p.1 p.2 ≠ t.matrix p.1 p.2

/-- The columns in which two states differ. -/
def activeColumns (s t : Block) : Finset (Fin 4) :=
  Finset.univ.filter fun c => s.column c ≠ t.column c

/-- The number of bytes in which two states differ in one column. -/
def columnDistance (s t : Block) (c : Fin 4) : ℕ :=
  hammingDist (s.column c).byte (t.column c).byte

theorem mem_active {s t : Block} {p : Fin 4 × Fin 4} :
    p ∈ active s t ↔ s.matrix p.1 p.2 ≠ t.matrix p.1 p.2 := by
  simp [active]

theorem mem_activeColumns {s t : Block} {c : Fin 4} :
    c ∈ activeColumns s t ↔ s.column c ≠ t.column c := by
  simp [activeColumns]

private theorem mem_activeColumns_of_ne {s t : Block} {r c : Fin 4}
    (hne : s.matrix r c ≠ t.matrix r c) : c ∈ activeColumns s t := by
  rw [mem_activeColumns]
  intro hcolumn
  exact hne (by rw [matrix_apply, matrix_apply, hcolumn])

theorem column_ext {s t : Block} (hcolumn : ∀ c, s.column c = t.column c) : s = t :=
  Block.ext (hcolumn 0) (hcolumn 1) (hcolumn 2) (hcolumn 3)

/-- Different blocks differ in a column. -/
private theorem exists_mem_activeColumns {s t : Block} (hne : s ≠ t) :
    ∃ c, c ∈ activeColumns s t := by
  simp only [mem_activeColumns]
  by_contra hnone
  exact hne (column_ext fun c => not_not.mp (not_exists.mp hnone c))

/-- The active bytes can be counted column by column. -/
private theorem card_active_eq_sum (s t : Block) :
    (active s t).card = ∑ c : Fin 4, columnDistance s t c := by
  simp only [active, columnDistance, hammingDist, Finset.card_filter, matrix_apply,
    Fintype.sum_prod_type_right]

/-! ## The steps of a round -/

theorem column_add (s k : Block) (c : Fin 4) :
    (s.add k).column c = (s.column c).add (k.column c) := by
  fin_cases c <;> rfl

/-- The mixing of a round acts on each column by itself. -/
theorem column_round (s k : Block) (c : Fin 4) :
    (s.round k).column c = (s.scramble.column c).mix.add (k.column c) := by
  rw [round_eq, column_add, mixColumns, column_mapColumns]

/-- A byte of the scrambled state stood in the same row before, as many columns to
the right as the number of the row. -/
theorem matrix_scramble (s : Block) (r c : Fin 4) :
    s.scramble.matrix r c = subByte (s.matrix r (c + r)) := by
  have hsub : s.subBytes.matrix = s.matrix.map subByte := matrix_mapColumns_map subByte s
  rw [scramble, matrix_shiftRows, Standard.shiftRows, Matrix.of_apply, hsub, Matrix.map_apply]

theorem scramble_injective : Function.Injective scramble :=
  Function.LeftInverse.injective unscramble_scramble

theorem round_injective (k : Block) : Function.Injective fun s : Block => s.round k := by
  have hleft : Function.LeftInverse (fun s : Block => (s.scramble.invRound k).unscramble)
      fun s => s.round k := by
    intro s
    simp only [invRound_scramble_round, unscramble_scramble]
  exact hleft.injective

/-- Scrambling moves the active bytes about and keeps their number. -/
private theorem card_active_scramble (s t : Block) :
    (active s.scramble t.scramble).card = (active s t).card := by
  apply Finset.card_equiv (Equiv.prodShear (Equiv.refl (Fin 4)) Equiv.addRight)
  rintro ⟨r, c⟩
  simp only [mem_active, matrix_scramble, Equiv.prodShear_apply, Equiv.refl_apply,
    Equiv.coe_addRight, subByte_injective.ne_iff]

/-- The columns that are active when they are mixed are active after the round. -/
private theorem activeColumns_round (s t k : Block) :
    activeColumns (s.round k) (t.round k) = activeColumns s.scramble t.scramble := by
  ext c
  rw [mem_activeColumns, mem_activeColumns, column_round, column_round,
    (Word.add_left_injective _).ne_iff, Word.mix_injective.ne_iff]

/-- The round key cancels out. -/
private theorem columnDistance_round (s t k : Block) (c : Fin 4) :
    columnDistance (s.round k) (t.round k) c =
      hammingDist (s.scramble.column c).mix.byte (t.scramble.column c).mix.byte := by
  simp only [columnDistance, column_round, hammingDist, Word.byte_add, ne_eq,
    UInt8.xor_left_inj]

/-- The bytes of a scrambled column come from different columns. -/
private theorem columnDistance_scramble_le (s t : Block) (c : Fin 4) :
    columnDistance s.scramble t.scramble c ≤ (activeColumns s t).card := by
  rw [columnDistance, hammingDist]
  apply Finset.card_le_card_of_injOn fun r => c + r
  · intro r hr
    have hbyte := (Finset.mem_filter.mp hr).2
    rw [← matrix_apply, ← matrix_apply, matrix_scramble, matrix_scramble] at hbyte
    exact mem_activeColumns_of_ne (subByte_injective.ne_iff.mp hbyte)
  · exact (add_right_injective c).injOn

/-- The bytes of a column go to different columns when the state is scrambled. -/
private theorem columnDistance_le (s t : Block) (c : Fin 4) :
    columnDistance s t c ≤ (activeColumns s.scramble t.scramble).card := by
  rw [columnDistance, hammingDist]
  apply Finset.card_le_card_of_injOn fun r => c - r
  · intro r hr
    have hbyte := (Finset.mem_filter.mp hr).2
    rw [← matrix_apply, ← matrix_apply] at hbyte
    apply mem_activeColumns_of_ne (r := r)
    rw [matrix_scramble, matrix_scramble, sub_add_cancel]
    exact subByte_injective.ne hbyte
  · exact (sub_right_injective (b := c)).injOn

/-! ## Two, three and four rounds -/

/-- Every column that is active when it is mixed has five active bytes before and
after that together. -/
theorem five_mul_le_card_active (s t k : Block) :
    5 * (activeColumns s.scramble t.scramble).card ≤
      (active s t).card + (active (s.round k) (t.round k)).card := by
  rw [← card_active_scramble, card_active_eq_sum, card_active_eq_sum, ← Finset.sum_add_distrib]
  calc 5 * (activeColumns s.scramble t.scramble).card
      = ∑ c ∈ activeColumns s.scramble t.scramble, 5 := by
        rw [Finset.sum_const, smul_eq_mul, mul_comm]
    _ ≤ ∑ c ∈ activeColumns s.scramble t.scramble,
          (columnDistance s.scramble t.scramble c +
            columnDistance (s.round k) (t.round k) c) := by
        apply Finset.sum_le_sum
        intro c hc
        rw [columnDistance_round]
        exact Word.five_le_hammingDist_mix (mem_activeColumns.mp hc)
    _ ≤ _ := Finset.sum_le_sum_of_subset (Finset.subset_univ _)

/-- One column that is active when it is mixed has five active bytes before and
after that, which stand in as many columns before and after the round. -/
theorem five_le_card_activeColumns {s t : Block} (hne : s ≠ t) (k : Block) :
    5 ≤ (activeColumns s t).card +
      (activeColumns (s.round k).scramble (t.round k).scramble).card := by
  obtain ⟨c, hc⟩ := exists_mem_activeColumns (scramble_injective.ne hne)
  have hbranch := Word.five_le_hammingDist_mix (mem_activeColumns.mp hc)
  have hbefore := columnDistance_scramble_le s t c
  have hafter := columnDistance_le (s.round k) (t.round k) c
  rw [columnDistance_round] at hafter
  rw [columnDistance] at hbefore
  omega

private theorem twentyFive_le_card_active_round {s t : Block} (hne : s ≠ t) (k k' k'' : Block) :
    25 ≤ (active s t).card + (active (s.round k) (t.round k)).card +
      (active ((s.round k).round k') ((t.round k).round k')).card +
      (active (((s.round k).round k').round k'') (((t.round k).round k').round k'')).card := by
  have hfirst := five_mul_le_card_active s t k
  have hlast := five_mul_le_card_active ((s.round k).round k') ((t.round k).round k') k''
  have hmiddle := five_le_card_activeColumns ((round_injective k).ne hne) k'
  rw [activeColumns_round] at hmiddle
  omega

end Block

/-! ## Encryption -/

namespace KeySchedule

/-- The state that enters a round of the encryption of a block. Rounds are numbered
from one. -/
def entering (s : KeySchedule) (b : Block) (round : ℕ) : Block :=
  (s.innerKeys.take (round - 1)).foldl Block.round (b.add s.firstKey)

theorem entering_one (s : KeySchedule) (b : Block) : s.entering b 1 = b.add s.firstKey := rfl

private theorem take_innerKeys (s : KeySchedule) {n : ℕ} (hn : n < s.rounds) :
    s.innerKeys.take n = s.keysTo n := by
  rw [innerKeys, List.take_drop, List.take_take, keysTo, Nat.add_comm,
    Nat.min_eq_left (Nat.succ_le_of_lt hn)]

/-- A state that enters a round leaves it for the next with the key of the round. -/
theorem entering_succ (s : KeySchedule) (b : Block) {round : ℕ} (hpos : 1 ≤ round)
    (hlt : round < s.rounds) :
    s.entering b (round + 1) = (s.entering b round).round (s.key round) := by
  obtain ⟨n, rfl⟩ := Nat.exists_eq_add_of_le' hpos
  have hroom := s.rounds_le
  rw [entering, entering, Nat.add_sub_cancel, Nat.add_sub_cancel, s.take_innerKeys hlt,
    s.take_innerKeys (by omega), s.keysTo_succ (by omega), List.foldl_append, List.foldl_cons,
    List.foldl_nil]

/-- The last round is applied to the state that enters it. -/
private theorem encrypt_eq_lastRound (s : KeySchedule) (b : Block) :
    s.encrypt b = (s.entering b s.rounds).lastRound s.lastKey := by
  have hlength : s.innerKeys.length ≤ s.rounds - 1 := by
    simp only [innerKeys, List.length_drop, List.length_take]
    omega
  rw [entering, List.take_of_length_le hlength, encrypt]

/-- What the states that enter the rounds of an encryption are. -/
structure Enters (s : KeySchedule) (b : Block) (state : ℕ → Block) : Prop where
  first : state 1 = b.add s.firstKey
  next : ∀ round, 1 ≤ round → round < s.rounds →
    state (round + 1) = (state round).round (s.key round)
  /-- The last round turns the state that enters it into the encrypted block. -/
  last : s.encrypt b = (state s.rounds).lastRound s.lastKey

theorem entering_enters (s : KeySchedule) (b : Block) : s.Enters b (s.entering b) where
  first := s.entering_one b
  next _ hpos hlt := s.entering_succ b hpos hlt
  last := s.encrypt_eq_lastRound b

/-- Different blocks stay different, round after round. -/
theorem entering_injective (s : KeySchedule) (round : ℕ) :
    Function.Injective fun b => s.entering b round := by
  have hrounds : ∀ keys : List Block, Function.Injective fun b => keys.foldl Block.round b := by
    intro keys
    induction keys with
    | nil => exact Function.injective_id
    | cons k keys ih => exact ih.comp (Block.round_injective k)
  have hadd : Function.Injective fun b : Block => b.add s.firstKey :=
    Function.LeftInverse.injective (g := fun b => b.add s.firstKey)
      fun b => b.add_add_cancel s.firstKey
  exact (hrounds _).comp hadd

/-- Whatever the schedule, two different blocks have twenty-five active bytes or
more in the states that enter four rounds in a row of their encryption. -/
theorem twentyFive_le_card_active (s : KeySchedule) {x y : Block} (hne : x ≠ y) {round : ℕ}
    (hpos : 1 ≤ round) (hlast : round + 3 ≤ s.rounds) :
    25 ≤ ∑ i ∈ Finset.range 4,
        (Block.active (s.entering x (round + i)) (s.entering y (round + i))).card ∧
      ∀ b, s.Enters b (s.entering b) := by
  refine ⟨?_, s.entering_enters⟩
  have hsecond : ∀ b, s.entering b (round + 1) = (s.entering b round).round (s.key round) :=
    fun b => s.entering_succ b hpos (by omega)
  have hthird : ∀ b, s.entering b (round + 2) =
      (s.entering b (round + 1)).round (s.key (round + 1)) :=
    fun b => s.entering_succ b (by omega) (by omega)
  have hfourth : ∀ b, s.entering b (round + 3) =
      (s.entering b (round + 2)).round (s.key (round + 2)) :=
    fun b => s.entering_succ b (by omega) (by omega)
  simp only [Finset.sum_range_succ, Finset.sum_range_zero, Nat.zero_add, Nat.add_zero, hfourth,
    hthird, hsecond]
  exact Block.twentyFive_le_card_active_round ((s.entering_injective round).ne hne) _ _ _

/-- Two blocks that differ in one byte, under the key of zeros, in the last four
rounds. -/
theorem twentyFive_le_card_active_last_rounds :
    let s := (CipherKey.ofPrefix .aes128 []).expand
    let y : Block := ⟨.zero, .zero, .zero, .ofTop 1⟩
    Block.zero ≠ y ∧ 7 + 3 ≤ s.rounds ∧
      25 ≤ ∑ i ∈ Finset.range 4,
        (Block.active (s.entering .zero (7 + i)) (s.entering y (7 + i))).card ∧
      s.Enters y (s.entering y) := by
  intro s y
  have hne : Block.zero ≠ y := by decide
  obtain ⟨hactive, henters⟩ := s.twentyFive_le_card_active hne (by decide) (Nat.le_refl 10)
  exact ⟨hne, Nat.le_refl 10, hactive, henters y⟩

end KeySchedule

end Rijndael
