import Rijndael.ByteTable
import Mathlib

/-!
# Inverse tables

`ByteTable.invert` writes every byte to the place of its entry, in ascending
order. What it leaves at a place is therefore the last byte that was written
there, whatever the table, and the last of the bytes with a given entry is the
largest of them.

No two bytes share an entry just when every byte is an entry, since there are as
many entries as bytes. Such a table is a permutation, and it and its inverse
table undo each other.

## Main results

* `get_invert` — the inverse holds the last byte with a given entry.
* `isGreatest_get_invert`, `get_invert_of_forall_ne` — it holds the largest byte
  with a given entry, and zero if there is none.
* `get_invert_get`, `get_get_invert` — an injective table and its inverse undo
  each other.
* `invert_largest_leftInverse_iff` — both together: what the inverse table of any
  table holds, and when it undoes the table.
-/

namespace Rijndael.ByteTable

/-- A property of the 256 numbers below 256 is one of all bytes. -/
theorem forall_byte {P : UInt8 → Prop} (h : ∀ i : Fin 256, P (UInt8.ofNat i)) (b : UInt8) :
    P b := by
  have hb := h ⟨b.toNat, b.toNat_lt⟩
  rwa [UInt8.ofNat_toNat] at hb

theorem mem_allBytes (b : UInt8) : b ∈ allBytes := by
  rw [allBytes, List.mem_map]
  exact ⟨b.toNat, List.mem_range.mpr b.toNat_lt, UInt8.ofNat_toNat⟩

theorem pairwise_allBytes : allBytes.Pairwise (· < ·) := by
  rw [allBytes, List.pairwise_map]
  apply List.pairwise_lt_range.imp_of_mem
  intro i j hi hj hlt
  rw [List.mem_range] at hi hj
  exact (UInt8.ofNat_lt_iff_lt hi hj).mpr hlt

/-- Writing bytes one after the other leaves at each place the last byte that
belongs there, and the old entry where none does. -/
private theorem get_foldl_set (t : ByteTable) (bytes : List UInt8) (start : ByteTable) (v : UInt8) :
    (bytes.foldl (fun inverse b => inverse.set (t.get b) b) start).get v =
      (bytes.reverse.find? fun b => t.get b == v).getD (start.get v) := by
  induction bytes generalizing start with
  | nil => rfl
  | cons b bytes ih =>
      rw [List.foldl_cons, ih, List.reverse_cons, List.find?_append]
      cases bytes.reverse.find? fun b => t.get b == v with
      | some c => rfl
      | none =>
          by_cases hv : t.get b = v
          · simp [hv, get_set_self]
          · simp [hv, get_set_ne]

/-- The inverse table holds the last byte whose entry is `v`, and zero if there
is none. -/
theorem get_invert (t : ByteTable) (v : UInt8) :
    t.invert.get v = (allBytes.reverse.find? fun b => t.get b == v).getD 0 := by
  rw [invert, get_foldl_set, get_zero]

/-- Of the bytes in ascending order the last one with a property is the largest. -/
private theorem isGreatest_of_find?_reverse {bytes : List UInt8} {p : UInt8 → Bool} {last : UInt8}
    (hascending : bytes.Pairwise (· < ·)) (hfind : bytes.reverse.find? p = some last) :
    IsGreatest {b | b ∈ bytes ∧ p b} last := by
  obtain ⟨hlast, later, earlier, hparts, hlater⟩ := List.find?_eq_some_iff_append.mp hfind
  have hmem : ∀ b, b ∈ bytes ↔ b ∈ later ∨ b = last ∨ b ∈ earlier := by
    intro b
    rw [← List.mem_reverse, hparts]
    simp
  have hdescending : bytes.reverse.Pairwise (· > ·) := List.pairwise_reverse.mpr hascending
  rw [hparts, List.pairwise_append, List.pairwise_cons] at hdescending
  obtain ⟨-, ⟨hearlier, -⟩, -⟩ := hdescending
  refine ⟨⟨(hmem last).mpr (.inr (.inl rfl)), hlast⟩, ?_⟩
  rintro b ⟨hb, hp⟩
  rcases (hmem b).mp hb with hb | rfl | hb
  · have hnot := hlater b hb
    simp [hp] at hnot
  · exact UInt8.le_refl b
  · exact UInt8.le_of_lt (hearlier b hb)

/-- The inverse table holds the largest of the bytes with a given entry. -/
theorem isGreatest_get_invert {t : ByteTable} {b v : UInt8} (hb : t.get b = v) :
    IsGreatest {c | t.get c = v} (t.invert.get v) := by
  rw [get_invert]
  cases hfind : allBytes.reverse.find? fun c => t.get c == v with
  | some last =>
      have hgreatest := isGreatest_of_find?_reverse pairwise_allBytes hfind
      simpa [mem_allBytes] using hgreatest
  | none =>
      have hne := List.find?_eq_none.mp hfind b (List.mem_reverse.mpr (mem_allBytes b))
      exact absurd (beq_iff_eq.mpr hb) hne

/-- The inverse table holds zero at a value that is no entry. -/
theorem get_invert_of_forall_ne {t : ByteTable} {v : UInt8} (hne : ∀ b, t.get b ≠ v) :
    t.invert.get v = 0 := by
  have hfind : (allBytes.reverse.find? fun b => t.get b == v) = none := by
    rw [List.find?_eq_none]
    intro b _
    simpa using hne b
  rw [get_invert, hfind, Option.getD_none]

/-- An injective table is undone by its inverse table. -/
theorem get_invert_get {t : ByteTable} (hinj : Function.Injective t.get) (b : UInt8) :
    t.invert.get (t.get b) = b :=
  hinj (isGreatest_get_invert rfl).1

/-- An injective table undoes its inverse table: as many entries as bytes leave no
byte out. -/
theorem get_get_invert {t : ByteTable} (hinj : Function.Injective t.get) (v : UInt8) :
    t.get (t.invert.get v) = v := by
  obtain ⟨b, rfl⟩ := Finite.surjective_of_injective hinj v
  rw [get_invert_get hinj]

theorem invert_invert {t : ByteTable} (hinj : Function.Injective t.get) :
    t.invert.invert = t := by
  have hinverse : Function.Injective t.invert.get :=
    Function.LeftInverse.injective (get_get_invert hinj)
  apply ext_get
  intro b
  apply hinverse
  rw [get_get_invert hinverse, get_invert_get hinj]

/-- Whatever the table, the inverse table holds at each value the largest of the
bytes that have it as their entry, and zero at a value that is no entry. It undoes
the table just when the table is a permutation of the bytes; then the table undoes
it too and is the inverse table of it. -/
theorem invert_largest_leftInverse_iff (t : ByteTable) :
    (∀ v, (∃ b, t.get b = v) → IsGreatest {b | t.get b = v} (t.invert.get v)) ∧
      (∀ v, (∀ b, t.get b ≠ v) → t.invert.get v = 0) ∧
      (Function.LeftInverse t.invert.get t.get ↔ Function.Bijective t.get) ∧
      (Function.Bijective t.get →
        Function.RightInverse t.invert.get t.get ∧ t.invert.invert = t) := by
  refine ⟨?_, fun v => get_invert_of_forall_ne, ⟨?_, ?_⟩, ?_⟩
  · rintro v ⟨b, hb⟩
    exact isGreatest_get_invert hb
  · intro hleft
    exact Finite.injective_iff_bijective.mp hleft.injective
  · intro hbijective
    exact get_invert_get hbijective.injective
  · intro hbijective
    exact ⟨get_get_invert hbijective.injective, invert_invert hbijective.injective⟩

end Rijndael.ByteTable
