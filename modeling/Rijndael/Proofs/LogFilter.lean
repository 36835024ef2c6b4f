import Mathlib
import Rijndael.Program.Run

/-!
# What a log filter shows

Of the rules of a filter that apply to a part of the program none has a longer
beginning than the one that decides. A filter without rules for single parts
treats all parts alike, and verbosity then decides alone.

## Main results

* `LogFilter.rule?_eq_none_iff`, `LogFilter.longest_of_rule?` — the rule that decides.
* `Program.shows_logFilter_of_verbose` — what is shown when more entries are asked for.
-/

namespace Rijndael

namespace LogRule

private theorem longer_eq (best rule : LogRule) :
    best.longer rule = best ∨ best.longer rule = rule := by
  unfold longer
  split
  · exact .inr rfl
  · exact .inl rfl

private theorem length_le_longer (best rule : LogRule) :
    best.length ≤ (best.longer rule).length ∧ rule.length ≤ (best.longer rule).length := by
  unfold longer
  split <;> omega

end LogRule

namespace LogFilter

/-- From a rule on, the search ends with that rule or a later one, and with a longest
of them. -/
private theorem foldl_longer (rules : List LogRule) (best : LogRule) :
    ∃ rule, rules.foldl (fun best? rule => some (best?.elim rule fun best => best.longer rule))
        (some best) = some rule ∧
      rule ∈ best :: rules ∧ ∀ other ∈ best :: rules, other.length ≤ rule.length := by
  induction rules generalizing best with
  | nil => exact ⟨best, rfl, by simp⟩
  | cons next rules ih =>
      obtain ⟨rule, hfold, hmem, hlongest⟩ := ih (best.longer next)
      obtain ⟨hbest, hnext⟩ := best.length_le_longer next
      have hlonger := hlongest _ List.mem_cons_self
      refine ⟨rule, hfold, ?_, ?_⟩
      · rcases List.mem_cons.mp hmem with rfl | hmem
        · rcases best.longer_eq next with heq | heq <;> simp [heq]
        · exact List.mem_cons_of_mem _ (List.mem_cons_of_mem _ hmem)
      · intro other hother
        rcases List.mem_cons.mp hother with rfl | hother
        · exact hbest.trans hlonger
        · rcases List.mem_cons.mp hother with rfl | hother
          · exact hnext.trans hlonger
          · exact hlongest other (List.mem_cons_of_mem _ hother)

/-- No rule decides just when none applies. -/
theorem rule?_eq_none_iff {filter : LogFilter} {part : String} :
    filter.rule? part = none ↔ ∀ rule ∈ filter.rules, ¬ rule.appliesTo part := by
  rw [rule?, ← List.filter_eq_nil_iff]
  cases filter.rules.filter fun rule => rule.appliesTo part with
  | nil => exact ⟨fun _ => rfl, fun _ => rfl⟩
  | cons first rules =>
      obtain ⟨rule, hfold, -⟩ := foldl_longer rules first
      simp [hfold]

/-- The rule that decides is one that applies, and none that applies is longer. -/
theorem longest_of_rule? {filter : LogFilter} {part : String} {rule : LogRule}
    (hrule : filter.rule? part = some rule) :
    (rule ∈ filter.rules ∧ rule.appliesTo part) ∧
      ∀ other ∈ filter.rules, other.appliesTo part → other.length ≤ rule.length := by
  have hmem_iff : ∀ other, other ∈ filter.rules.filter (fun rule => rule.appliesTo part) ↔
      other ∈ filter.rules ∧ other.appliesTo part := fun _ => List.mem_filter
  rw [rule?] at hrule
  generalize filter.rules.filter (fun rule => rule.appliesTo part) = applying at hmem_iff hrule
  rcases applying with _ | ⟨first, rules⟩
  · cases hrule
  · obtain ⟨longest, hfold, hmem, hlongest⟩ := foldl_longer rules first
    obtain rfl : longest = rule := Option.some.inj (hfold.symm.trans hrule)
    refine ⟨(hmem_iff longest).mp hmem, fun other hother happlies => ?_⟩
    exact hlongest other ((hmem_iff other).mpr ⟨hother, happlies⟩)

/-- A filter that has one rule only, for the whole program, shows what the rule lets
through. -/
private theorem shows_eq_of_forall {filter : LogFilter} {threshold : LogThreshold}
    (hne : filter.rules ≠ []) (hrules : ∀ rule ∈ filter.rules, rule = ⟨none, threshold⟩)
    (part : String) (level : LogLevel) : filter.shows part level = threshold.admits level := by
  rw [shows]
  cases hrule : filter.rule? part with
  | none =>
      obtain ⟨rule, hmem⟩ := List.exists_mem_of_ne_nil _ hne
      have hnot := rule?_eq_none_iff.mp hrule rule hmem
      rw [hrules rule hmem] at hnot
      exact absurd rfl hnot
  | some rule =>
      rw [hrules rule (longest_of_rule? hrule).1.1]
      rfl

/-- After a rule for the whole program has been set, a filter without rules for single
parts has no other. -/
private theorem set_rules {filter : LogFilter}
    (hrules : ∀ rule ∈ filter.rules, rule.beginning = none) (threshold : LogThreshold) :
    (filter.set ⟨none, threshold⟩).rules ≠ [] ∧
      ∀ rule ∈ (filter.set ⟨none, threshold⟩).rules, rule = ⟨none, threshold⟩ := by
  rw [set]
  split
  case isTrue hany =>
    refine ⟨fun hnil => ?_, fun rule hmem => ?_⟩
    · rw [List.map_eq_nil_iff.mp hnil] at hany
      cases hany
    · obtain ⟨old, hold, rfl⟩ := List.mem_map.mp hmem
      rw [if_pos (hrules old hold)]
  case isFalse hany =>
    have hnone : filter.rules = [] := by
      rw [List.eq_nil_iff_forall_not_mem]
      intro rule hmem
      exact hany (List.any_eq_true.mpr ⟨rule, hmem, decide_eq_true (hrules rule hmem)⟩)
    simp [hnone]

/-- A setting with rules of all kinds, of which two state nothing. -/
example : ofSetting " warn, aes_ctx=Debug,store,=off=, rijndael = x/created" =
    ⟨[⟨none, .upTo .warn⟩, ⟨some "aes_ctx", .upTo .debug⟩, ⟨some "store", .upTo .trace⟩]⟩ := by
  decide +kernel

end LogFilter

namespace Program

/-- If the setting has no rule for a single part of the program, then asking for more
log entries once shows those down to `debug`, and asking again shows all. -/
theorem shows_logFilter_of_verbose {setting : Option String}
    (hrules : ∀ rule ∈ ((setting.map LogFilter.ofSetting).getD (.upTo .warn)).rules,
      rule.beginning = none) (part : String) (level : LogLevel) :
    ((logFilter 1 setting).shows part level = true ↔ level ≠ .trace) ∧
      ∀ n, (logFilter (n + 2) setting).shows part level = true := by
  have hset (threshold : LogThreshold) :=
    LogFilter.set_rules hrules threshold
  have hshows (threshold : LogThreshold) :=
    LogFilter.shows_eq_of_forall (hset threshold).1 (hset threshold).2 part level
  have hverbose (threshold : LogThreshold) := List.isEmpty_eq_false_iff.mpr (hset threshold).1
  refine ⟨?_, fun n => ?_⟩
  · simp only [logFilter, hverbose, Bool.false_eq_true, if_false, hshows]
    cases level <;> decide
  · simp only [logFilter, hverbose, Bool.false_eq_true, if_false, hshows]
    cases level <;> decide

end Program

end Rijndael
