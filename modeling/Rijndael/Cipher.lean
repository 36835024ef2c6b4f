import Rijndael.Key.Schedule

/-!
# Encryption and decryption of a block

A schedule encrypts a block by adding its first key, running one full round
for each inner key, and ending with a round that leaves the columns unmixed.
Decryption takes the same steps backwards, each replaced by its inverse.

## Main definitions

* `Direction`, encryption or decryption;
* `KeySchedule.encrypt`, `KeySchedule.decrypt` and `KeySchedule.apply`, which
  chooses between them.
-/

namespace Rijndael

/-- Which way a block is transformed. -/
inductive Direction where
  | encrypt
  | decrypt
  deriving DecidableEq, Repr

def Direction.opposite : Direction → Direction
  | encrypt => decrypt
  | decrypt => encrypt

namespace Block

def round (s k : Block) : Block := s.subBytes.shiftRows.mixColumns.add k

/-- The last round of encryption, which does not mix the columns. -/
def lastRound (s k : Block) : Block := s.subBytes.shiftRows.add k

def invRound (s k : Block) : Block := (s.invShiftRows.invSubBytes.add k).invMixColumns

/-- The last round of decryption, which does not unmix the columns. -/
def invLastRound (s k : Block) : Block := s.invShiftRows.invSubBytes.add k

end Block

namespace KeySchedule

def encrypt (s : KeySchedule) (b : Block) : Block :=
  (s.innerKeys.foldl Block.round (b.add s.firstKey)).lastRound s.lastKey

/-- The decryption of a block. The inner keys enter from the last to the
first. -/
def decrypt (s : KeySchedule) (b : Block) : Block :=
  (s.innerKeys.foldr (fun k state => state.invRound k) (b.add s.lastKey)).invLastRound s.firstKey

def apply (s : KeySchedule) : Direction → Block → Block
  | .encrypt => s.encrypt
  | .decrypt => s.decrypt

/-- The transformation applied `n` times in a row. -/
def iterate (s : KeySchedule) (d : Direction) : Nat → Block → Block
  | 0, b => b
  | n + 1, b => iterate s d n (s.apply d b)

end KeySchedule

end Rijndael
