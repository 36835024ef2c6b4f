import Rijndael.Block

/-!
# Key schedules

A `KeySchedule` holds the round keys of one key: one block for each round and
one that enters before the first. There is room for the fifteen blocks of the
longest schedule, and the blocks past the last round key are there but unused.

A schedule may hold any blocks. `Rijndael.Key.Expansion` makes the schedule
that belongs to a key.
-/

namespace Rijndael

/-- The round keys of a cipher of at most fourteen rounds. -/
@[ext]
structure KeySchedule where
  rounds : Nat
  rounds_le : rounds ≤ 14
  blocks : Vector Block 15
  deriving DecidableEq

namespace KeySchedule

def maxRounds : Nat := 14

/-- The key that enters before the first round. -/
def firstKey (s : KeySchedule) : Block := s.blocks[0]

/-- The keys of all rounds but the last, in order. -/
def innerKeys (s : KeySchedule) : List Block := (s.blocks.toList.take s.rounds).drop 1

def lastKey (s : KeySchedule) : Block :=
  have := s.rounds_le
  s.blocks[s.rounds]

/-- The round keys in order, from the one before the first round to that of
the last. -/
def roundKeys (s : KeySchedule) : List Block := s.blocks.toList.take (s.rounds + 1)

/-- The block stored for a round; none past the room for fifteen. -/
def roundKey? (s : KeySchedule) (round : Nat) : Option Block := s.blocks[round]?

def wordCount (s : KeySchedule) : Nat := 4 * (s.rounds + 1)

def words (s : KeySchedule) : List Word := s.roundKeys.flatMap Block.columns

/-- The word at a place in the schedule; none past the room for fifteen
blocks. -/
def word? (s : KeySchedule) (i : Nat) : Option Word :=
  (s.blocks[i / 4]?).bind fun block => block.columns[i % 4]?

/-- The schedule with all its blocks overwritten by zeros. The number of
rounds stays. -/
def wipe (s : KeySchedule) : KeySchedule := { s with blocks := Vector.replicate 15 .zero }

/-- A description of the schedule that keeps its blocks secret. -/
def redacted (s : KeySchedule) : String :=
  s!"RoundKeys \x7b rounds: {s.rounds}, .. \x7d"

end KeySchedule

end Rijndael
