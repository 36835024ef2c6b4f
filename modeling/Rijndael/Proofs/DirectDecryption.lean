import Rijndael.Proofs.StandardCipher

/-!
# Decryption in the order of encryption

`KeySchedule.decrypt` takes the steps of encryption backwards, so that in each of
its rounds the key is added before the columns are unmixed. Decryption can also take
its steps in the order of encryption, each replaced by its inverse: the bytes are
substituted before the rows are shifted, and the columns are unmixed before the key
is added. For that the inner round keys have to be unmixed too.

The two agree round by round. Substitution acts on every byte alike, wherever it
stands, and unmixing the columns is additive, so that it can be drawn past the
addition of the key.

## Main results

* `Block.invMixColumns_add` — unmixing the columns of a sum.
* `Block.invRound_eq_directInvRound` — one round in either order.
* `KeySchedule.decrypt_eq_directDecrypt` — under every schedule the two orders decrypt
  alike.
-/

namespace Rijndael

namespace Block

/-- A round of decryption in the order of encryption. The key `k` is that of the
schedule and is unmixed before it is added. -/
def directInvRound (s k : Block) : Block :=
  s.invSubBytes.invShiftRows.invMixColumns.add k.invMixColumns

/-- The last round of decryption in the order of encryption. -/
def directInvLastRound (s k : Block) : Block := s.invSubBytes.invShiftRows.add k

/-- Where a byte stands does not matter to its substitution. -/
private theorem invSubBytes_invShiftRows (s : Block) :
    s.invShiftRows.invSubBytes = s.invSubBytes.invShiftRows := rfl

theorem invMixColumns_add (s k : Block) :
    (s.add k).invMixColumns = s.invMixColumns.add k.invMixColumns := by
  simp only [invMixColumns, mapColumns, add, Word.invMix_add]

theorem invRound_eq_directInvRound (s k : Block) : s.invRound k = s.directInvRound k := by
  rw [invRound, invSubBytes_invShiftRows, invMixColumns_add, directInvRound]

theorem invLastRound_eq_directInvLastRound (s k : Block) :
    s.invLastRound k = s.directInvLastRound k := by
  rw [invLastRound, invSubBytes_invShiftRows, directInvLastRound]

end Block

namespace KeySchedule

/-- The rounds from `n` down to `1`, where `step r` takes round `r`. -/
def roundsDown (step : ℕ → Block → Block) : ℕ → Block → Block
  | 0, b => b
  | n + 1, b => roundsDown step n (step (n + 1) b)

/-- The rounds of decryption from `n` down to `1` in the order of encryption. -/
def directInvRounds (s : KeySchedule) : ℕ → Block → Block :=
  roundsDown fun r b => b.directInvRound (s.key r)

/-- Decryption in the order of encryption. -/
def directDecrypt (s : KeySchedule) (b : Block) : Block :=
  (s.directInvRounds (s.rounds - 1) (b.add (s.key s.rounds))).directInvLastRound (s.key 0)

/-- The inner rounds agree up to every round, by induction on their number: the round
that is taken first is the one of the last key. -/
private theorem foldr_invRound_eq_directInvRounds (s : KeySchedule) {n : ℕ} (hn : n ≤ 14)
    (b : Block) :
    (s.keysTo n).foldr (fun k state => state.invRound k) b = s.directInvRounds n b := by
  rw [directInvRounds]
  induction n generalizing b with
  | zero => rw [keysTo_zero, List.foldr_nil, roundsDown]
  | succ n ih =>
      rw [keysTo_succ s hn, List.foldr_append, List.foldr_cons, List.foldr_nil,
        ih (by omega), Block.invRound_eq_directInvRound, roundsDown]

/-- Under every schedule, whatever its blocks and number of rounds, a block is
decrypted alike in both orders. -/
theorem decrypt_eq_directDecrypt (s : KeySchedule) (b : Block) :
    s.decrypt b = s.directDecrypt b := by
  have hrounds : s.rounds - 1 ≤ 14 := Nat.le_trans (Nat.sub_le _ _) s.rounds_le
  rw [decrypt, innerKeys_eq, foldr_invRound_eq_directInvRounds s hrounds, firstKey_eq,
    lastKey_eq, Block.invLastRound_eq_directInvLastRound, directDecrypt]

end KeySchedule

end Rijndael
