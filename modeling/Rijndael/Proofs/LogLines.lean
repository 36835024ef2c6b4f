import Rijndael.Store.Event
import Rijndael.Proofs.PackedHandle

/-!
# Reading the log of a store

A line of the log that tells of a context that was created or destroyed names the
handle and the number of contexts that are live after it. `Notice.ofLine` reads both
from the text of the line, word by word. The line of every entry is read as what the
entry tells, and no line of another kind is taken for one of these two.

## Main results

* `words_intercalate` — the words of a line that is put together from words.
* `Notice.ofLine_message` — reading the line of an entry.
-/

namespace Rijndael

/-! ## Words -/

/-- The words of a line, which are divided by blanks. -/
def words (line : String) : List String := (line.toList.splitOn ' ').map String.ofList

private theorem toList_blank : " ".toList = [' '] := by simp

theorem words_intercalate {ws : List String} (hws : ∀ w ∈ ws, ' ' ∉ w.toList) (hne : ws ≠ []) :
    words (" ".intercalate ws) = ws := by
  have hblank : ∀ w ∈ ws.map String.toList, ' ' ∉ w := by simpa using hws
  have hofList : String.ofList ∘ String.toList = id := by
    funext w
    exact String.ofList_toList
  rw [words, String.toList_intercalate, toList_blank,
    List.splitOn_intercalate ' ' hblank (by simpa using hne), List.map_map, hofList, List.map_id]

/-- A line is put together from its words. -/
private theorem intercalate_words (line : String) : " ".intercalate (words line) = line := by
  apply String.toList_inj.mp
  have htoList : String.toList ∘ String.ofList = id := by
    funext w
    exact String.toList_ofList
  rw [words, String.toList_intercalate, toList_blank, List.map_map, htoList, List.map_id,
    List.intercalate_splitOn]

/-- A line starts like its first word. -/
private theorem head?_toList_of_words {line w : String} {rest : List String}
    (hwords : words line = w :: rest) (hne : w ≠ "") : line.toList.head? = w.toList.head? := by
  have hnil : w.toList ≠ [] := mt String.toList_eq_nil_iff.mp hne
  rw [← intercalate_words line, hwords, String.toList_intercalate, List.map_cons]
  rcases rest with _ | ⟨w', rest⟩
  · simp [List.intercalate]
  · simp [List.intercalate, List.head?_append_of_ne_nil _ hnil]

private theorem head?_toList_append {a b : String} {c : Char} (ha : a.toList.head? = some c) :
    (a ++ b).toList.head? = some c := by
  rw [String.toList_append, List.head?_append, ha]
  rfl

/-! ## Notices -/

/-- What a line of the log tells of the contexts that are live. -/
inductive Notice where
  /-- A context was created; `live` contexts are live after it. -/
  | created (handle : String) (live : ℕ)
  /-- A context was destroyed; `live` contexts are live after it. -/
  | destroyed (handle : String) (live : ℕ)
  | other
  deriving DecidableEq

/-- What an entry tells of the contexts that are live. -/
def StoreEvent.notice : StoreEvent → Notice
  | created _ h live => .created h.text live
  | destroyed h live => .destroyed h.text live
  | retiring _ | refused _ | rejected _ | alreadyGone _ => .other

namespace Notice

/-- The number after a round bracket. -/
def readCount? (word : String) : Option ℕ :=
  match word.toList with
  | '(' :: digits => (String.ofList digits).toNat?
  | _ => none

/-- What a line tells by its words. -/
def ofLine (line : String) : Notice :=
  match words line with
  | ["created", _, "context", handle, count, "live)"] =>
    (readCount? count).elim other (created handle)
  | ["destroyed", "context", handle, count, "live)"] =>
    (readCount? count).elim other (destroyed handle)
  | _ => other

theorem readCount?_eq (n : ℕ) : readCount? ("(" ++ n.repr) = some n := by
  have htoList : ("(" ++ n.repr).toList = '(' :: n.repr.toList := by
    simp [String.toList_append]
  rw [readCount?, htoList]
  simp only [String.ofList_toList]
  exact Nat.toNat?_repr n

/-- A line that starts with another letter tells of nothing that was created or
destroyed. -/
theorem ofLine_of_head? {line : String} {c : Char} (hhead : line.toList.head? = some c)
    (hcreated : c ≠ 'c') (hdestroyed : c ≠ 'd') : ofLine line = other := by
  unfold ofLine
  split
  case h_1 hwords =>
    have hfirst := head?_toList_of_words hwords (by decide)
    rw [hhead] at hfirst
    exact absurd (Option.some.inj hfirst) hcreated
  case h_2 hwords =>
    have hfirst := head?_toList_of_words hwords (by decide)
    rw [hhead] at hfirst
    exact absurd (Option.some.inj hfirst) hdestroyed
  case h_3 => rfl

/-! ## The lines of entries -/

theorem created_line_eq (name text count : String) :
    s!"created {name} context {text} ({count} live)" =
      " ".intercalate ["created", name, "context", text, "(" ++ count, "live)"] := by
  apply String.toList_inj.mp
  simp only [toString, String.toList_append, String.toList_intercalate, List.map_cons,
    List.map_nil, List.intercalate, List.intersperse]
  simp

theorem destroyed_line_eq (text count : String) :
    s!"destroyed context {text} ({count} live)" =
      " ".intercalate ["destroyed", "context", text, "(" ++ count, "live)"] := by
  apply String.toList_inj.mp
  simp only [toString, String.toList_append, String.toList_intercalate, List.map_cons,
    List.map_nil, List.intercalate, List.intersperse]
  simp

theorem blank_notMem_count (n : ℕ) : ' ' ∉ ("(" ++ n.repr).toList := by
  have hnone := Handle.notMem_toDigits (c := ' ') rfl n
  simp [String.toList_append, hnone]

theorem blank_notMem_name (size : KeySize) : ' ' ∉ size.name.toList := by
  cases size <;> decide +kernel

theorem words_created (size : KeySize) (h : Handle) (live : ℕ) :
    words (StoreEvent.created size h live).message =
      ["created", size.name, "context", h.text, "(" ++ live.repr, "live)"] := by
  refine (congrArg words (created_line_eq size.name h.text live.repr)).trans
    (words_intercalate ?_ (by simp))
  have hcount := blank_notMem_count live
  simp only [List.forall_mem_cons]
  exact ⟨by decide, blank_notMem_name size, by decide, h.blank_notMem_text, hcount, by decide,
    List.forall_mem_nil _⟩

theorem words_destroyed (h : Handle) (live : ℕ) :
    words (StoreEvent.destroyed h live).message =
      ["destroyed", "context", h.text, "(" ++ live.repr, "live)"] := by
  refine (congrArg words (destroyed_line_eq h.text live.repr)).trans
    (words_intercalate ?_ (by simp))
  have hcount := blank_notMem_count live
  simp only [List.forall_mem_cons]
  exact ⟨by decide, by decide, h.blank_notMem_text, hcount, by decide, List.forall_mem_nil _⟩

/-- The line of an entry is read as what the entry tells. -/
theorem ofLine_message (event : StoreEvent) : ofLine event.message = event.notice := by
  cases event with
  | created size h live =>
      rw [ofLine, words_created]
      simp only [readCount?_eq]
      rfl
  | destroyed h live =>
      rw [ofLine, words_destroyed]
      simp only [readCount?_eq]
      rfl
  | retiring | refused =>
      exact ofLine_of_head? (head?_toList_append (head?_toList_append (c := 'r') rfl))
        (by decide) (by decide)
  | rejected =>
      exact ofLine_of_head? (head?_toList_append (c := 'r') rfl) (by decide) (by decide)
  | alreadyGone =>
      exact ofLine_of_head?
        (head?_toList_append (head?_toList_append (head?_toList_append (c := 's') rfl)))
        (by decide) (by decide)

end Notice

end Rijndael
