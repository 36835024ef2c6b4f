import Mathlib
import Rijndael.Store.Handle

/-!
# Handles as numbers and as texts

Packing a handle loses nothing, and a number that stands for a handle is what
this handle packs into. The generation is never zero, so that packed handles
start at `2 ^ 32`.

The text of a handle tells it from all others too: its two numbers are decimal,
and the letter between them is no digit.

## Main results

* `Handle.ofRaw?_eq_some`, `Handle.ofRaw?_toRaw` — packing and unpacking are
  inverse to each other.
* `Handle.two_pow_le_toRaw` — no number below `2 ^ 32` is a packed handle.
* `Handle.text_injective` — the text of a handle names no other.
* `Handle.toRaw_text_faithful` — handles, their numbers and their texts.
-/

namespace Rijndael

/-- The number of a generation is any but zero. -/
theorem Generation.ofNumber?_eq_some {n : UInt32} {g : Generation} :
    ofNumber? n = some g ↔ n = g.number := by
  unfold ofNumber?
  split
  case isTrue hzero =>
    have hne : n ≠ g.number := fun heq => g.number_ne_zero (heq.symm.trans hzero)
    simp [hne]
  case isFalse => simp [Generation.ext_iff]

namespace Handle

private theorem toNat_upper (raw : UInt64) : (raw >>> 32).toUInt32.toNat = raw.toNat / 2 ^ 32 := by
  have hlt := raw.toNat_lt
  rw [UInt64.toNat_toUInt32, UInt64.toNat_shiftRight, Nat.shiftRight_eq_div_pow]
  show raw.toNat / 2 ^ 32 % 2 ^ 32 = _
  omega

/-- A number stands for a handle just when the handle packs into it. -/
theorem ofRaw?_eq_some {raw : UInt64} {h : Handle} : ofRaw? raw = some h ↔ h.toRaw = raw := by
  have hparts : ofRaw? raw = some h ↔
      (raw >>> 32).toUInt32 = h.generation.number ∧ raw.toUInt32 = h.index := by
    rcases h with ⟨index, generation⟩
    simp [ofRaw?, Option.map_eq_some_iff, Generation.ofNumber?_eq_some]
  rw [hparts, ← UInt32.toNat_inj, ← UInt32.toNat_inj, ← UInt64.toNat_inj, toNat_upper,
    UInt64.toNat_toUInt32, toNat_toRaw]
  have hindex := h.index.toNat_lt
  omega

@[simp] theorem ofRaw?_toRaw (h : Handle) : ofRaw? h.toRaw = some h := ofRaw?_eq_some.mpr rfl

theorem toRaw_injective : Function.Injective toRaw := fun h k heq => by
  have hsome : some h = some k := by rw [← ofRaw?_toRaw h, heq, ofRaw?_toRaw]
  exact Option.some.inj hsome

/-- As no generation is zero, neither is the upper half. -/
theorem two_pow_le_toRaw (h : Handle) : 2 ^ 32 ≤ h.toRaw.toNat := by
  have hne : h.generation.number.toNat ≠ 0 := fun hzero =>
    h.generation.number_ne_zero (UInt32.toNat_inj.mp hzero)
  rw [toNat_toRaw]
  omega

/-! ## Texts -/

/-- The text of a handle, character by character. -/
theorem toList_text (h : Handle) :
    h.text.toList = '#' :: Nat.toDigits 10 h.index.toNat ++
      'v' :: Nat.toDigits 10 h.generation.number.toNat := by
  simp only [text, toString, String.toList_append, Nat.toList_repr]
  simp

theorem notMem_toDigits {c : Char} (hc : c.isDigit = false) (n : ℕ) : c ∉ Nat.toDigits 10 n := by
  intro hmem
  have hdigit := Nat.isDigit_of_mem_toDigits (by decide) (by decide) hmem
  rw [hc] at hdigit
  cases hdigit

/-- The text of a handle can be part of a line whose words are divided by blanks. -/
theorem blank_notMem_text (h : Handle) : ' ' ∉ h.text.toList := by
  have hnone := fun n => notMem_toDigits (c := ' ') rfl n
  simp [toList_text, hnone]

/-- The two numbers of a text are found again by the letter between them. -/
private theorem splitOn_text (h : Handle) : h.text.toList.splitOn 'v' =
    ['#' :: Nat.toDigits 10 h.index.toNat, Nat.toDigits 10 h.generation.number.toNat] := by
  have hnone := fun n => notMem_toDigits (c := 'v') rfl n
  have hparts : h.text.toList = ['v'].intercalate
      ['#' :: Nat.toDigits 10 h.index.toNat, Nat.toDigits 10 h.generation.number.toNat] := by
    rw [toList_text]
    simp [List.intercalate]
  rw [hparts]
  exact List.splitOn_intercalate 'v' (by simp [hnone]) (by simp)

private theorem toDigits_injective : Function.Injective (Nat.toDigits 10) := by
  intro m n heq
  rw [← Nat.ofDigitChars_ten_toDigits (n := m), heq, Nat.ofDigitChars_ten_toDigits]

/-- The letter between the numbers is no digit, so that they can be told apart. -/
theorem text_injective : Function.Injective text := by
  intro h k heq
  have hparts := congrArg (List.splitOn 'v') (congrArg String.toList heq)
  rw [splitOn_text, splitOn_text] at hparts
  obtain ⟨hindex, hgeneration⟩ : h.index.toNat = k.index.toNat ∧
      h.generation.number.toNat = k.generation.number.toNat := by
    simpa [toDigits_injective.eq_iff] using hparts
  rcases h with ⟨index, generation⟩
  rcases k with ⟨index', generation'⟩
  rw [Handle.mk.injEq, Generation.ext_iff]
  exact ⟨UInt32.toNat_inj.mp hindex, UInt32.toNat_inj.mp hgeneration⟩

/-! ## Both at once -/

/-- The numbers that stand for no handle are those whose upper half is zero. -/
theorem ofRaw?_eq_none_iff {raw : UInt64} : ofRaw? raw = none ↔ raw >>> 32 = 0 := by
  have hupper : (raw >>> 32).toUInt32 = 0 ↔ raw >>> 32 = 0 := by
    rw [← UInt32.toNat_inj, ← UInt64.toNat_inj, toNat_upper, UInt64.toNat_shiftRight,
      Nat.shiftRight_eq_div_pow]
    rfl
  rw [ofRaw?, Option.map_eq_none_iff, Generation.ofNumber?, ← hupper]
  split
  case isTrue hzero => simp [hzero]
  case isFalse hne => simp [hne]

/-- Neither form of a handle loses anything. A handle is read back from the number
that it packs into, which is never below `2 ^ 32`. A number stands for a handle just
when its upper half is not zero, and then it is what the handle packs into. The text
consists of the two numbers in decimal, and handles with the same text are equal. -/
theorem toRaw_text_faithful :
    (∀ h : Handle, ofRaw? h.toRaw = some h ∧ 2 ^ 32 ≤ h.toRaw.toNat) ∧
      (∀ raw, (ofRaw? raw = none ↔ raw >>> 32 = 0) ∧
        ∀ h, ofRaw? raw = some h ↔ h.toRaw = raw) ∧
      (∀ h : Handle, h.text.toList = '#' :: Nat.toDigits 10 h.index.toNat ++
        'v' :: Nat.toDigits 10 h.generation.number.toNat) ∧
      ∀ h k : Handle, h.text = k.text ↔ h = k := by
  refine ⟨fun h => ?_, fun raw => ?_, toList_text, fun h k => ?_⟩
  · exact ⟨h.ofRaw?_toRaw, h.two_pow_le_toRaw⟩
  · exact ⟨ofRaw?_eq_none_iff, fun h => ofRaw?_eq_some⟩
  · exact text_injective.eq_iff

end Handle

end Rijndael
