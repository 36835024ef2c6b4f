import Rijndael.Cipher
import Rijndael.Proofs.Columns
import Rijndael.Proofs.Substitution

/-!
# Decryption undoes encryption

Decryption is a loop of its own, with the inverse steps in another order: the
shift before the substitution, and the round key before the columns are
unmixed. The two loops are therefore matched half a round apart. What the
encryption of a round does before the columns are mixed is `Block.scramble`,
and a round of decryption takes the scrambled result of a round of encryption
to the scrambled state that the round began with. Over the inner keys this is
an induction, and the first and last keys close it at both ends.

## Main results

* `invRound_scramble_round`, `round_unscramble_invRound` — one round against
  its inverse, half a round apart.
* `foldr_invRound_scramble`, `foldl_round_unscramble` — the same over any list
  of inner keys.
* `encrypt_decrypt_inverse` — under every schedule the two transformations of
  a block are inverse bijections, and so are their iterates.
-/

namespace Rijndael

namespace Word

@[simp] theorem invSub_sub (w : Word) : w.sub.invSub = w := by
  simp [sub, invSub, map]

@[simp] theorem sub_invSub (w : Word) : w.invSub.sub = w := by
  simp [sub, invSub, map]

@[simp] theorem add_add_cancel (v w : Word) : (v.add w).add w = v := by
  simp [add]

end Word

namespace Block

/-! ## Single steps -/

/-- Substituting byte by byte is undone by the inverse table. -/
@[simp] theorem invSubBytes_subBytes (s : Block) : s.subBytes.invSubBytes = s := by
  simp [subBytes, invSubBytes, mapColumns]

@[simp] theorem subBytes_invSubBytes (s : Block) : s.invSubBytes.subBytes = s := by
  simp [subBytes, invSubBytes, mapColumns]

/-- The two products of columns undo each other. -/
@[simp] theorem invMixColumns_mixColumns (s : Block) : s.mixColumns.invMixColumns = s := by
  simp [mixColumns, invMixColumns, mapColumns]

@[simp] theorem mixColumns_invMixColumns (s : Block) : s.invMixColumns.mixColumns = s := by
  simp [mixColumns, invMixColumns, mapColumns]

@[simp] theorem add_add_cancel (s k : Block) : (s.add k).add k = s := by
  simp [add]

/-! ## Rounds -/

/-- The steps of a round of encryption before the columns are mixed. -/
def scramble (s : Block) : Block := s.subBytes.shiftRows

/-- The steps of a round of decryption before the key is added. -/
def unscramble (s : Block) : Block := s.invShiftRows.invSubBytes

/-- What a round does before the columns are mixed can be undone: the shift and the
substitution act on places and on bytes, in either order. -/
@[simp] theorem unscramble_scramble (s : Block) : s.scramble.unscramble = s := by
  simp [scramble, unscramble]

@[simp] theorem scramble_unscramble (s : Block) : s.unscramble.scramble = s := by
  simp [scramble, unscramble]

/-- A round scrambles the block, mixes its columns and adds the key. -/
theorem round_eq (s k : Block) : s.round k = s.scramble.mixColumns.add k := rfl

/-- A round backwards adds the key before the columns are mixed. -/
theorem invRound_eq (s k : Block) : s.invRound k = (s.unscramble.add k).invMixColumns := rfl

theorem lastRound_eq (s k : Block) : s.lastRound k = s.scramble.add k := rfl

theorem invLastRound_eq (s k : Block) : s.invLastRound k = s.unscramble.add k := rfl

/-- A round of decryption takes back a round of encryption that has been
scrambled. -/
theorem invRound_scramble_round (s k : Block) : (s.round k).scramble.invRound k = s.scramble := by
  rw [invRound_eq, unscramble_scramble, round_eq, add_add_cancel, invMixColumns_mixColumns]

/-- A round of encryption takes back a round of decryption that has been
unscrambled. -/
theorem round_unscramble_invRound (s k : Block) :
    (s.invRound k).unscramble.round k = s.unscramble := by
  rw [round_eq, scramble_unscramble, invRound_eq, mixColumns_invMixColumns, add_add_cancel]

/-- The rounds of decryption take back those of encryption, from the last key
to the first. -/
theorem foldr_invRound_scramble (keys : List Block) (s : Block) :
    keys.foldr (fun k state => state.invRound k) (keys.foldl round s).scramble = s.scramble := by
  induction keys generalizing s with
  | nil => rfl
  | cons k keys ih =>
      rw [List.foldl_cons, List.foldr_cons, ih, invRound_scramble_round]

/-- The rounds of encryption take back those of decryption, from the first key
to the last. -/
theorem foldl_round_unscramble (keys : List Block) (s : Block) :
    keys.foldl round (keys.foldr (fun k state => state.invRound k) s).unscramble =
      s.unscramble := by
  induction keys with
  | nil => rfl
  | cons k keys ih =>
      rw [List.foldr_cons, List.foldl_cons, round_unscramble_invRound, ih]

end Block

/-! ## The cipher -/

namespace KeySchedule

/-- The keys are used up in the opposite order, so that each round meets its inverse. -/
@[simp] theorem decrypt_encrypt (s : KeySchedule) (b : Block) : s.decrypt (s.encrypt b) = b := by
  rw [decrypt, encrypt, Block.lastRound_eq, Block.add_add_cancel, Block.foldr_invRound_scramble,
    Block.invLastRound_eq, Block.unscramble_scramble, Block.add_add_cancel]

@[simp] theorem encrypt_decrypt (s : KeySchedule) (b : Block) : s.encrypt (s.decrypt b) = b := by
  rw [encrypt, decrypt, Block.invLastRound_eq, Block.add_add_cancel, Block.foldl_round_unscramble,
    Block.lastRound_eq, Block.scramble_unscramble, Block.add_add_cancel]

/-- Either transformation is undone by the opposite one. -/
@[simp] theorem apply_opposite_apply (s : KeySchedule) (d : Direction) (b : Block) :
    s.apply d.opposite (s.apply d b) = b := by
  cases d with
  | encrypt => exact s.decrypt_encrypt b
  | decrypt => exact s.encrypt_decrypt b

/-- Transforming `n` times in a row is the `n`-th iterate of the
transformation. -/
private theorem iterate_eq (s : KeySchedule) (d : Direction) (n : Nat) (b : Block) :
    s.iterate d n b = (s.apply d)^[n] b := by
  induction n generalizing b with
  | zero => rfl
  | succ n ih => rw [iterate, ih, Function.iterate_succ_apply]

/-- Under every schedule, whatever its blocks and however many rounds it has,
encryption and decryption undo each other. Both are bijections on blocks, and
`n` transformations one way are undone by `n` the other way. -/
theorem encrypt_decrypt_inverse (s : KeySchedule) :
    (∀ b, s.decrypt (s.encrypt b) = b) ∧
      (∀ b, s.encrypt (s.decrypt b) = b) ∧
      Function.Bijective s.encrypt ∧
      Function.Bijective s.decrypt ∧
      (∀ n b, s.iterate .decrypt n (s.iterate .encrypt n b) = b) ∧
      ∀ n b, s.iterate .encrypt n (s.iterate .decrypt n b) = b := by
  have hleft : Function.LeftInverse s.decrypt s.encrypt := s.decrypt_encrypt
  have hright : Function.LeftInverse s.encrypt s.decrypt := s.encrypt_decrypt
  refine ⟨hleft, hright, ⟨hleft.injective, hright.surjective⟩,
    ⟨hright.injective, hleft.surjective⟩, ?_, ?_⟩
  · intro n b
    rw [iterate_eq, iterate_eq]
    exact hleft.iterate n b
  · intro n b
    rw [iterate_eq, iterate_eq]
    exact hright.iterate n b

end KeySchedule

end Rijndael
