import Rijndael.Proofs.ActiveBytes

/-!
# Diffusion

Two states that differ in one byte differ in a whole column after one full round
and in every byte after a second one, whatever the round keys. The same holds of
the rounds of decryption.

Both kinds of round move the bytes of each row along and multiply the columns by a
fixed one. `Block.Diffuses` keeps of a round only what matters here: a byte that
differs alone in its column when that is multiplied makes the whole column differ,
because the fixed column has no zero byte, and a column in which nothing differs
stays the same. How far the rows are moved is a parameter. No two rows are moved
equally far, which sends the four bytes of one column to four columns.

## Main results

* `Word.byte_times_ne` — one byte of a column changes every byte of a product.
* `Block.round_diffuses`, `Block.invRound_diffuses` — both kinds of round.
* `Block.Diffuses.active_eq_column`, `Block.Diffuses.active_eq_univ` — one round
  from a single byte, and one from a whole column.
* `KeySchedule.active_after_two_rounds` — two rounds from a single byte.
-/

namespace Rijndael

namespace Word

private theorem byte_ne_iff {v w : Word} {r : Fin 4} :
    v.byte r ≠ w.byte r ↔ (v.add w).byte r ≠ 0 := by
  rw [byte_add, ne_eq, ne_eq, UInt8.xor_eq_zero_iff]

/-- If two columns differ in one byte, their products with a column that has no
zero byte differ in all four. -/
theorem byte_times_ne {a v w : Word} (ha : ∀ i, a.byte i ≠ 0) {j : Fin 4}
    (hj : v.byte j ≠ w.byte j) (hothers : ∀ i, i ≠ j → v.byte i = w.byte i) (r : Fin 4) :
    (a.times v).byte r ≠ (a.times w).byte r := by
  have hsingle : ∀ i, i ≠ j → (v.add w).byte i = 0 := by
    intro i hi
    rw [byte_add, hothers i hi, UInt8.xor_self]
  rw [byte_ne_iff, ← times_add, ne_eq, ← element_eq_zero, element_byte_times_of_single hsingle,
    mul_eq_zero, element_eq_zero, element_eq_zero]
  exact not_or.mpr ⟨ha _, byte_ne_iff.mp hj⟩

end Word

namespace Block

/-! ## One round -/

/-- What a full round makes of two states `s` and `t`. The byte of row `r` that
enters a column stood `shift r` columns further to the right before. -/
structure Diffuses (shift : Fin 4 → Fin 4) (s t s' t' : Block) : Prop where
  ne_of_single : ∀ c j, s.matrix j (c + shift j) ≠ t.matrix j (c + shift j) →
    (∀ i, i ≠ j → s.matrix i (c + shift i) = t.matrix i (c + shift i)) →
    ∀ r, s'.matrix r c ≠ t'.matrix r c
  eq_of_eq : ∀ c, (∀ i, s.matrix i (c + shift i) = t.matrix i (c + shift i)) →
    ∀ r, s'.matrix r c = t'.matrix r c

/-- A round that moves the rows, which leads to the states `u` and `v`, and then
multiplies each column. -/
theorem Diffuses.of_times {shift : Fin 4 → Fin 4} {s t u v s' t' : Block} {a : Word}
    (ha : ∀ i, a.byte i ≠ 0) (hmoved : ∀ i c, u.matrix i c = v.matrix i c ↔
      s.matrix i (c + shift i) = t.matrix i (c + shift i))
    (htimes : ∀ c r, s'.matrix r c = t'.matrix r c ↔
      (a.times (u.column c)).byte r = (a.times (v.column c)).byte r) :
    Diffuses shift s t s' t' where
  ne_of_single c j hj hothers r := by
    rw [ne_eq, htimes]
    refine Word.byte_times_ne ha (j := j) ?_ (fun i hi => ?_) r
    · rwa [← matrix_apply, ← matrix_apply, ne_eq, hmoved]
    · rw [← matrix_apply, ← matrix_apply, hmoved]
      exact hothers i hi
  eq_of_eq c hall r := by
    have hcolumn : u.column c = v.column c := by
      apply Word.byte_injective
      funext i
      rw [← matrix_apply, ← matrix_apply, hmoved]
      exact hall i
    rw [htimes, hcolumn]

theorem round_diffuses (s t k : Block) : Diffuses id s t (s.round k) (t.round k) := by
  refine .of_times (u := s.scramble) (v := t.scramble) (a := Word.mixColumn) (by decide) ?_ ?_
  · intro i c
    rw [matrix_scramble, matrix_scramble, subByte_injective.eq_iff]
    rfl
  · intro c r
    rw [matrix_apply, matrix_apply, column_round, column_round, Word.byte_add, Word.byte_add,
      UInt8.xor_left_inj, Word.mix_eq_times, Word.mix_eq_times]

/-- A byte of the unscrambled state stood in the same row before, as many columns to
the left as the number of the row. -/
theorem matrix_unscramble (s : Block) (r c : Fin 4) :
    s.unscramble.matrix r c = invSubByte (s.matrix r (c - r)) := by
  have hsub : s.invShiftRows.invSubBytes.matrix = s.invShiftRows.matrix.map invSubByte :=
    matrix_mapColumns_map invSubByte s.invShiftRows
  rw [unscramble, hsub, Matrix.map_apply, matrix_invShiftRows, Standard.invShiftRows,
    Matrix.of_apply]

theorem invSubByte_injective : Function.Injective invSubByte :=
  Function.LeftInverse.injective subByte_invSubByte

private theorem column_invRound (s k : Block) (c : Fin 4) :
    (s.invRound k).column c = ((s.unscramble.add k).column c).invMix := by
  rw [invRound_eq, invMixColumns, column_mapColumns]

theorem invRound_diffuses (s t k : Block) :
    Diffuses Neg.neg s t (s.invRound k) (t.invRound k) := by
  refine .of_times (u := s.unscramble.add k) (v := t.unscramble.add k) (a := Word.invMixColumn)
    (by decide) ?_ ?_
  · intro i c
    rw [matrix_apply, matrix_apply, column_add, column_add, Word.byte_add, Word.byte_add,
      UInt8.xor_left_inj, ← matrix_apply, ← matrix_apply, matrix_unscramble, matrix_unscramble,
      invSubByte_injective.eq_iff, sub_eq_add_neg]
  · intro c r
    rw [matrix_apply, matrix_apply, column_invRound, column_invRound, Word.invMix_eq_times,
      Word.invMix_eq_times]

/-! ## From one byte to all -/

/-- The places of one column. -/
def columnPlaces (c : Fin 4) : Finset (Fin 4 × Fin 4) := Finset.univ ×ˢ {c}

theorem mem_columnPlaces {c : Fin 4} {p : Fin 4 × Fin 4} : p ∈ columnPlaces c ↔ p.2 = c := by
  rw [columnPlaces, Finset.mem_product, Finset.mem_singleton]
  exact and_iff_right (Finset.mem_univ p.1)

variable {shift : Fin 4 → Fin 4} {s t s' t' : Block}

/-- From a byte that alone is active, the round makes a column active, that in which
the byte is mixed. -/
theorem Diffuses.active_eq_column (hround : Diffuses shift s t s' t') {r c : Fin 4}
    (hactive : active s t = {(r, c)}) : active s' t' = columnPlaces (c - shift r) := by
  have hplace : ∀ i c', s.matrix i c' ≠ t.matrix i c' ↔ i = r ∧ c' = c := by
    intro i c'
    rw [← mem_active (p := (i, c')), hactive, Finset.mem_singleton, Prod.mk.injEq]
  ext ⟨i, c'⟩
  rw [mem_active, mem_columnPlaces]
  constructor
  · intro hne
    by_contra hother
    refine hne (hround.eq_of_eq c' (fun j => not_not.mp fun hj => hother ?_) i)
    obtain ⟨rfl, hj⟩ := (hplace j _).mp hj
    exact eq_sub_of_add_eq hj
  · rintro rfl
    refine hround.ne_of_single _ r ?_ (fun j hj => not_not.mp fun hne => ?_) i
    · rw [hplace]
      exact ⟨rfl, sub_add_cancel c (shift r)⟩
    · exact hj ((hplace j _).mp hne).1

/-- From a column that alone is active, the round makes everything active: each
column takes one of its bytes. -/
theorem Diffuses.active_eq_univ (hround : Diffuses shift s t s' t')
    (hshift : Function.Injective shift) {c : Fin 4} (hactive : active s t = columnPlaces c) :
    active s' t' = Finset.univ := by
  have hplace : ∀ i c', s.matrix i c' ≠ t.matrix i c' ↔ c' = c := by
    intro i c'
    rw [← mem_active (p := (i, c')), hactive, mem_columnPlaces]
  rw [Finset.eq_univ_iff_forall]
  rintro ⟨i, c'⟩
  rw [mem_active]
  obtain ⟨j, hj⟩ := Finite.surjective_of_injective hshift (c - c')
  refine hround.ne_of_single c' j ?_ (fun k hk => not_not.mp fun hne => hk ?_) i
  · rw [hplace, hj, add_sub_cancel]
  · have hcolumn := (hplace k _).mp hne
    exact hshift (by rw [hj, ← hcolumn, add_sub_cancel_left])

/-- What two rounds make of a byte that alone is active, by moving the rows in the
same way. -/
theorem Diffuses.active_twice {s'' t'' : Block} (hfirst : Diffuses shift s t s' t')
    (hsecond : Diffuses shift s' t' s'' t'') (hshift : Function.Injective shift)
    (hone : (active s t).card = 1) :
    (∃ c, active s' t' = columnPlaces c) ∧ active s'' t'' = Finset.univ := by
  obtain ⟨⟨r, c⟩, hactive⟩ := Finset.card_eq_one.mp hone
  have hcolumn := hfirst.active_eq_column hactive
  exact ⟨⟨_, hcolumn⟩, hsecond.active_eq_univ hshift hcolumn⟩

private theorem active_add (s t k : Block) : active (s.add k) (t.add k) = active s t := by
  ext ⟨r, c⟩
  rw [mem_active, mem_active]
  simp only [matrix_apply, column_add, Word.byte_add, ne_eq, UInt8.xor_left_inj]

end Block

namespace KeySchedule

/-- Two states that differ in one byte differ in just the four bytes of a column
after a full round and in all sixteen after a second, under any two round keys, and
so do they in the full rounds of decryption. Under any schedule with two full
rounds, the encryptions of two blocks that differ in one byte have no byte in common
when the third round begins; the states compared there are those of encryption, and
the schedule of a key has two full rounds. -/
theorem active_after_two_rounds {x y : Block} (hone : (Block.active x y).card = 1)
    (k k' : Block) :
    ((∃ c, Block.active (x.round k) (y.round k) = Block.columnPlaces c) ∧
      Block.active ((x.round k).round k') ((y.round k).round k') = Finset.univ) ∧
    ((∃ c, Block.active (x.invRound k) (y.invRound k) = Block.columnPlaces c) ∧
      Block.active ((x.invRound k).invRound k') ((y.invRound k).invRound k') = Finset.univ) ∧
    (∀ s : KeySchedule, 3 ≤ s.rounds →
      Block.active (s.entering x 3) (s.entering y 3) = Finset.univ) ∧
    (∀ (s : KeySchedule) (b : Block), s.Enters b (s.entering b)) ∧
    ∀ key : CipherKey, 3 ≤ key.expand.rounds := by
  refine ⟨?_, ?_, fun s hrounds => ?_, entering_enters, fun key => ?_⟩
  · exact (Block.round_diffuses x y k).active_twice (Block.round_diffuses _ _ k')
      Function.injective_id hone
  · exact (Block.invRound_diffuses x y k).active_twice (Block.invRound_diffuses _ _ k')
      neg_injective hone
  · have hentering : ∀ b, s.entering b 3 =
        ((b.add s.firstKey).round (s.key 1)).round (s.key 2) := by
      intro b
      rw [s.entering_succ b (by decide) hrounds, s.entering_succ b (by decide) (by omega),
        entering_one]
    rw [hentering, hentering]
    refine ((Block.round_diffuses _ _ _).active_twice (Block.round_diffuses _ _ _)
      Function.injective_id ?_).2
    rw [Block.active_add, hone]
  · have hnk := key.size.four_le_nk
    rw [CipherKey.rounds_expand, KeySize.rounds]
    omega

/-- Two blocks that differ in their last byte, with round keys of zeros and under the
schedule of the shortest key of zeros. -/
theorem active_after_two_rounds_last_byte :
    let s := (CipherKey.ofPrefix .aes128 []).expand
    let y : Block := ⟨.zero, .zero, .zero, ⟨0, 0, 0, 1⟩⟩
    (Block.active .zero y).card = 1 ∧ 3 ≤ s.rounds ∧
      (∃ c, Block.active (Block.zero.round .zero) (y.round .zero) = Block.columnPlaces c) ∧
      Block.active ((Block.zero.invRound .zero).invRound .zero)
        ((y.invRound .zero).invRound .zero) = Finset.univ ∧
      Block.active (s.entering .zero 3) (s.entering y 3) = Finset.univ ∧
      s.Enters y (s.entering y) := by
  intro s y
  have hone : (Block.active .zero y).card = 1 := by decide
  have hrounds : 3 ≤ s.rounds := by decide
  obtain ⟨hforth, hback, hschedule, henters, -⟩ := active_after_two_rounds hone .zero .zero
  exact ⟨hone, hrounds, hforth.1, hback.2, hschedule s hrounds, henters s y⟩

end KeySchedule

end Rijndael
