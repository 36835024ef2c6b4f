import Rijndael.LogLevel
import Rijndael.Text.Blank

/-!
# Filters of log entries

A `LogFilter` chooses the entries of a log that are shown. It is a list of
rules. A rule names the least important level that it lets through, either for
the whole program or for the parts of it whose names have a given beginning.
Where several rules apply, the one with the longest beginning decides.

In a setting the rules are divided by commas, as in `warn,aes_ctx=debug`. A
level alone is a rule for the whole program, and a beginning alone lets
everything through. What cannot be read as a rule is left out.

A setting may end in a slash and a pattern that the texts of the entries must
match. Patterns are not part of this module: such a setting stands for its rules
alone. Nor are the warnings about pieces of a setting that are left out.

## Main definitions

* `LogFilter.shows`, whether an entry is shown;
* `LogFilter.ofSetting`, which reads a setting.
-/

namespace Rijndael

/-! ## Thresholds -/

/-- The levels that are let through: a level and all more important ones, or
none. -/
inductive LogThreshold where
  | off
  | upTo (level : LogLevel)
  deriving DecidableEq, Repr

namespace LogThreshold

def admits : LogThreshold → LogLevel → Bool
  | off, _ => false
  | upTo least, level => level.rank ≤ least.rank

/-- The threshold that a word names: `off` or the name of a level, in capital
or small letters. -/
def ofName? (word : List Char) : Option LogThreshold :=
  let capitals := String.ofList (word.map Char.toUpper)
  if capitals = "OFF" then
    some off
  else
    (LogLevel.all.find? fun level => level.name = capitals).map upTo

end LogThreshold

/-! ## Rules -/

/-- A rule of a filter. -/
structure LogRule where
  /-- The beginning of the names that the rule is about; none if it is about
  the whole program. -/
  beginning : Option String
  threshold : LogThreshold
  deriving DecidableEq, Repr

namespace LogRule

/-- Whether a rule is about the part of the program with the given name. -/
def appliesTo (rule : LogRule) (part : String) : Bool :=
  rule.beginning.all fun beginning => beginning.toList.isPrefixOf part.toList

/-- The length of the beginning in bytes. -/
def length (rule : LogRule) : Nat := (rule.beginning.map String.utf8ByteSize).getD 0

/-- The longer of two rules, and the second of two equally long ones. -/
def longer (best rule : LogRule) : LogRule := if best.length ≤ rule.length then rule else best

/-- The rule that a piece of a setting states, without the blank characters
around it. A name of a level stands for the level, and any other word for a
beginning. -/
def ofText? (piece : List Char) : Option LogRule :=
  match piece.splitOn '=' with
  | [word] =>
    match LogThreshold.ofName? word with
    | some threshold => some ⟨none, threshold⟩
    | none => some ⟨String.ofList word, .upTo .trace⟩
  | [beginning, level] =>
    match Text.trim level with
    | [] => some ⟨String.ofList beginning, .upTo .trace⟩
    | word => (LogThreshold.ofName? word).map fun threshold =>
      ⟨String.ofList beginning, threshold⟩
  | _ => none

end LogRule

/-! ## Filters -/

/-- A choice of log entries, by the part of the program that they come from
and their level. -/
structure LogFilter where
  rules : List LogRule
  deriving DecidableEq, Repr

namespace LogFilter

/-- The filter that shows nothing. -/
def off : LogFilter := ⟨[⟨none, .off⟩]⟩

/-- The filter that shows a level and all more important ones, of every part. -/
def upTo (level : LogLevel) : LogFilter := ⟨[⟨none, .upTo level⟩]⟩

/-- The rule that decides about a part of the program: of those that apply the
one with the longest beginning, and of several such the last. -/
def rule? (filter : LogFilter) (part : String) : Option LogRule :=
  (filter.rules.filter fun rule => rule.appliesTo part).foldl
    (fun best? rule => some (best?.elim rule fun best => best.longer rule)) none

/-- Whether an entry of the given part and level is shown. -/
def shows (filter : LogFilter) (part : String) (level : LogLevel) : Bool :=
  (filter.rule? part).any fun rule => rule.threshold.admits level

/-- The filter with one rule more, which takes the place of the rule with the
same beginning if there is one. -/
def set (filter : LogFilter) (rule : LogRule) : LogFilter :=
  if filter.rules.any fun old => old.beginning = rule.beginning then
    ⟨filter.rules.map fun old => if old.beginning = rule.beginning then rule else old⟩
  else
    ⟨filter.rules ++ [rule]⟩

/-- The filter that a setting states. A setting with two slashes states no
rule. -/
def ofSetting (setting : String) : LogFilter :=
  match setting.toList.splitOn '/' with
  | [rules] | [rules, _] =>
    let pieces := ((rules.splitOn ',').map Text.trim).filter fun piece => !piece.isEmpty
    (pieces.filterMap LogRule.ofText?).foldl set ⟨[]⟩
  | _ => ⟨[]⟩

end LogFilter

end Rijndael
