import Mathlib
import Rijndael.Text.Hex
import Rijndael.Proofs.ByteTable

/-!
# Which texts are hexadecimal

The digits are those of an alphabet of sixteen, in small or capital letters, and
the value of a digit is its place there. `Hex.Written` is the grammar: no text
for no bytes, and two digits for each byte, the upper half first. What the
reader accepts is just what the grammar allows, and what it refuses it refuses
for the number of digits first, and then for the first byte that is no digit.

The reader looks at the bytes of a text in UTF-8. A character outside ASCII has
no byte there that is a digit, so that a text is accepted just when its
characters are those that are written for the bytes, up to their case.

## Main results

* `Hex.decodeCodes_eq_ok_iff` — what the reader accepts.
* `Hex.decodeCodes_eq_oddLength`, `Hex.decodeCodes_eq_invalidDigit` — what it
  refuses.
* `Hex.written_utf8_iff` — the grammar on characters.
-/

namespace Rijndael.Text.Hex

/-- The digits in the order of their values. -/
def alphabet : List Char :=
  ['0', '1', '2', '3', '4', '5', '6', '7', '8', '9', 'a', 'b', 'c', 'd', 'e', 'f']

/-- The byte is the ASCII code of the digit with a value, in small or capital
letters. -/
def IsDigitOf (value : ℕ) (code : UInt8) : Prop :=
  alphabet[value]? = some (Char.ofNat code.toNat).toLower

/-- The byte is the ASCII code of a digit. -/
def IsDigit (code : UInt8) : Prop := (Char.ofNat code.toNat).toLower ∈ alphabet

instance (value : ℕ) (code : UInt8) : Decidable (IsDigitOf value code) :=
  inferInstanceAs (Decidable (_ = _))

instance (code : UInt8) : Decidable (IsDigit code) := inferInstanceAs (Decidable (_ ∈ _))

/-- The codes are those of the digits of bytes, two digits for each. -/
inductive Written : List UInt8 → List UInt8 → Prop
  | nil : Written [] []
  | cons {upper lower : ℕ} {first second : UInt8} {codes bytes : List UInt8}
      (hupper : IsDigitOf upper first) (hlower : IsDigitOf lower second)
      (hrest : Written codes bytes) :
      Written (first :: second :: codes) (UInt8.ofNat (16 * upper + lower) :: bytes)

/-! ## Digits -/

private theorem isDigit_iff {code : UInt8} : IsDigit code ↔ ∃ value, IsDigitOf value code :=
  List.mem_iff_getElem?

theorem IsDigitOf.isDigit {value : ℕ} {code : UInt8} (h : IsDigitOf value code) : IsDigit code :=
  isDigit_iff.mpr ⟨value, h⟩

theorem IsDigitOf.lt {value : ℕ} {code : UInt8} (h : IsDigitOf value code) : value < 16 :=
  (List.getElem?_eq_some_iff.mp h).1

private theorem nodup_alphabet : alphabet.Nodup := by decide

theorem IsDigitOf.unique {v w : ℕ} {code : UInt8} (hv : IsDigitOf v code)
    (hw : IsDigitOf w code) : v = w :=
  (List.getElem?_inj hv.lt nodup_alphabet).mp (hv.trans hw.symm)

/-- What is found for a byte, by looking at all bytes. -/
private theorem map_toNat_value? (code : UInt8) :
    (value? code).map UInt8.toNat =
      (List.range 16).find? fun value => decide (IsDigitOf value code) := by
  revert code
  refine ByteTable.forall_byte ?_
  decide +kernel

private theorem isDigitOf_of_value? {code value : UInt8} (hvalue : value? code = some value) :
    IsDigitOf value.toNat code := by
  have hfind := map_toNat_value? code
  rw [hvalue, Option.map_some] at hfind
  have hfound := List.find?_some hfind.symm
  exact of_decide_eq_true hfound

private theorem value?_eq_none_iff {code : UInt8} : value? code = none ↔ ¬ IsDigit code := by
  have hfind := map_toNat_value? code
  constructor
  · intro hnone hdigit
    obtain ⟨value, hvalue⟩ := isDigit_iff.mp hdigit
    rw [hnone, Option.map_none] at hfind
    exact List.find?_eq_none.mp hfind.symm value (List.mem_range.mpr hvalue.lt)
      (decide_eq_true hvalue)
  · intro hdigit
    by_contra hvalue
    obtain ⟨value, hvalue⟩ := Option.ne_none_iff_exists'.mp hvalue
    exact hdigit (isDigitOf_of_value? hvalue).isDigit

private theorem value?_eq_some_iff {code value : UInt8} :
    value? code = some value ↔ IsDigitOf value.toNat code := by
  refine ⟨isDigitOf_of_value?, fun hdigit => ?_⟩
  have hsome : value? code ≠ none := fun hnone => value?_eq_none_iff.mp hnone hdigit.isDigit
  obtain ⟨w, hw⟩ := Option.ne_none_iff_exists'.mp hsome
  rw [hw, UInt8.toNat_inj.mp ((isDigitOf_of_value? hw).unique hdigit)]

/-- The code of a digit is one of ASCII, by looking at all bytes. -/
private theorem isDigit_imp_lt (code : UInt8) : IsDigit code → code.toNat < 128 := by
  revert code
  refine ByteTable.forall_byte ?_
  decide +kernel

/-! ## Rows of digits -/

theorem Written.length_eq {codes bytes : List UInt8} (h : Written codes bytes) :
    codes.length = 2 * bytes.length := by
  induction h with
  | nil => rfl
  | cons _ _ _ ih => simp only [List.length_cons, ih]; omega

theorem Written.isDigit {codes bytes : List UInt8} (h : Written codes bytes) :
    ∀ code ∈ codes, IsDigit code := by
  induction h with
  | nil => simp
  | cons hupper hlower _ ih =>
      intro code hmem
      rcases List.mem_cons.mp hmem with rfl | hmem
      · exact hupper.isDigit
      · rcases List.mem_cons.mp hmem with rfl | hmem
        · exact hlower.isDigit
        · exact ih code hmem

/-- Two halves below sixteen make a byte. -/
private theorem shiftLeft_or_eq {upper lower : UInt8} (hupper : upper.toNat < 16)
    (hlower : lower.toNat < 16) :
    upper <<< 4 ||| lower = UInt8.ofNat (16 * upper.toNat + lower.toNat) := by
  have hshift : (upper <<< 4).toNat = 2 ^ 4 * upper.toNat := by
    rw [UInt8.toNat_shiftLeft, Nat.shiftLeft_eq]
    show upper.toNat * 2 ^ 4 % 2 ^ 8 = _
    omega
  apply UInt8.toNat_inj.mp
  rw [UInt8.toNat_or, hshift, ← Nat.two_pow_add_eq_or_of_lt hlower, UInt8.toNat_ofNat']
  omega

/-- The values of a row of digits, whatever the position of the first. -/
private theorem values_cons_of_isDigitOf {value : ℕ} {code : UInt8} (hcode : IsDigitOf value code)
    (position : ℕ) (codes : List UInt8) :
    values position (code :: codes) =
      (values (position + 1) codes).map (UInt8.ofNat value :: ·) := by
  have hvalue : value? code = some (UInt8.ofNat value) := by
    have hlt := hcode.lt
    rw [value?_eq_some_iff, UInt8.toNat_ofNat', Nat.mod_eq_of_lt (by omega)]
    exact hcode
  simp only [values, hvalue]

private theorem values_cons_of_not_isDigit {code : UInt8} (hcode : ¬ IsDigit code) (position : ℕ)
    (codes : List UInt8) :
    values position (code :: codes) = .error (.invalidDigit code position) := by
  simp only [values, value?_eq_none_iff.mpr hcode]

/-- By induction on the digits before it, the first byte that is no digit is named,
with its position. -/
private theorem values_append_cons {digits : List UInt8} (hdigits : ∀ code ∈ digits, IsDigit code)
    {code : UInt8} (hcode : ¬ IsDigit code) (position : ℕ) (rest : List UInt8) :
    values position (digits ++ code :: rest) =
      .error (.invalidDigit code (position + digits.length)) := by
  induction digits generalizing position with
  | nil => exact values_cons_of_not_isDigit hcode position rest
  | cons digit digits ih =>
      obtain ⟨value, hvalue⟩ := isDigit_iff.mp (hdigits digit List.mem_cons_self)
      rw [List.cons_append, values_cons_of_isDigitOf hvalue,
        ih (fun c hc => hdigits c (List.mem_cons_of_mem _ hc)), List.length_cons]
      simp only [Except.map, Nat.add_assoc, Nat.add_comm 1]

/-- By induction on the grammar: the values of the digits are the halves of the
bytes. -/
theorem Written.map_joinHalves_values {codes bytes : List UInt8} (h : Written codes bytes)
    (position : ℕ) : (values position codes).map joinHalves = .ok bytes := by
  induction h generalizing position with
  | nil => rfl
  | @cons upper lower first second codes bytes hupper hlower hrest ih =>
      have hu := hupper.lt
      have hl := hlower.lt
      have hnext := ih (position + 1 + 1)
      rw [values_cons_of_isDigitOf hupper, values_cons_of_isDigitOf hlower]
      rcases hvalues : values (position + 1 + 1) codes with e | halves
      · rw [hvalues] at hnext
        cases hnext
      · rw [hvalues] at hnext
        cases hnext
        simp only [Except.map, joinHalves]
        rw [shiftLeft_or_eq, UInt8.toNat_ofNat', UInt8.toNat_ofNat', Nat.mod_eq_of_lt (by omega),
          Nat.mod_eq_of_lt (by omega)]
        all_goals rw [UInt8.toNat_ofNat']; omega

/-- An even number of digits is the written form of bytes, two digits at a time. -/
private theorem exists_written : ∀ {codes : List UInt8}, (∀ code ∈ codes, IsDigit code) →
    codes.length % 2 = 0 → ∃ bytes, Written codes bytes
  | [], _, _ => ⟨[], .nil⟩
  | [_], _, heven => by cases heven
  | first :: second :: codes, hdigits, heven => by
      obtain ⟨upper, hupper⟩ := isDigit_iff.mp (hdigits first (by simp))
      obtain ⟨lower, hlower⟩ := isDigit_iff.mp (hdigits second (by simp))
      have hrest : ∀ code ∈ codes, IsDigit code := fun code hmem => hdigits code (by simp [hmem])
      have heven' : codes.length % 2 = 0 := by
        simp only [List.length_cons] at heven
        omega
      obtain ⟨bytes, hwritten⟩ := exists_written hrest heven'
      exact ⟨_, .cons hupper hlower hwritten⟩

theorem exists_written_of_length {codes : List UInt8} (hdigits : ∀ code ∈ codes, IsDigit code)
    {n : ℕ} (hlength : codes.length = 2 * n) : ∃ bytes, Written codes bytes ∧ bytes.length = n := by
  obtain ⟨bytes, hwritten⟩ := exists_written hdigits (by omega)
  have heq := hwritten.length_eq
  exact ⟨bytes, hwritten, by omega⟩

/-- A row of bytes holds digits only, or there is a first byte that is none. -/
private theorem forall_isDigit_or_exists (codes : List UInt8) :
    (∀ code ∈ codes, IsDigit code) ∨
      ∃ digits code rest, codes = digits ++ code :: rest ∧ (∀ c ∈ digits, IsDigit c) ∧
        ¬ IsDigit code := by
  induction codes with
  | nil => exact .inl (by simp)
  | cons code codes ih =>
      by_cases hcode : IsDigit code
      · rcases ih with hall | ⟨digits, other, rest, rfl, hdigits, hother⟩
        · exact .inl (List.forall_mem_cons.mpr ⟨hcode, hall⟩)
        · exact .inr ⟨code :: digits, other, rest, rfl,
            List.forall_mem_cons.mpr ⟨hcode, hdigits⟩, hother⟩
      · exact .inr ⟨[], code, codes, rfl, by simp, hcode⟩

/-! ## The reader -/

theorem decodeCodes_eq_oddLength {codes : List UInt8} (hodd : codes.length % 2 ≠ 0) :
    decodeCodes codes = .error .oddLength := if_neg hodd

theorem decodeCodes_eq_invalidDigit {digits rest : List UInt8} {code : UInt8}
    (heven : (digits ++ code :: rest).length % 2 = 0) (hdigits : ∀ c ∈ digits, IsDigit c)
    (hcode : ¬ IsDigit code) :
    decodeCodes (digits ++ code :: rest) = .error (.invalidDigit code digits.length) := by
  rw [decodeCodes, if_pos heven, values_append_cons hdigits hcode, Nat.zero_add]
  rfl

theorem Written.decodeCodes_eq {codes bytes : List UInt8} (h : Written codes bytes) :
    decodeCodes codes = .ok bytes := by
  have heven : codes.length % 2 = 0 := by
    rw [h.length_eq]
    omega
  rw [decodeCodes, if_pos heven, h.map_joinHalves_values]

/-- The reader accepts what the grammar allows, and nothing else: it comes to an
end at the first byte that is no digit. -/
theorem decodeCodes_eq_ok_iff {codes bytes : List UInt8} :
    decodeCodes codes = .ok bytes ↔ Written codes bytes := by
  refine ⟨fun hok => ?_, Written.decodeCodes_eq⟩
  have heven : codes.length % 2 = 0 := by
    by_contra hodd
    rw [decodeCodes_eq_oddLength hodd] at hok
    cases hok
  rcases forall_isDigit_or_exists codes with hdigits | ⟨digits, code, rest, rfl, hdigits, hcode⟩
  · obtain ⟨bytes', hwritten⟩ := exists_written hdigits heven
    rw [hwritten.decodeCodes_eq] at hok
    cases hok
    exact hwritten
  · rw [decodeCodes_eq_invalidDigit heven hdigits hcode] at hok
    cases hok

/-! ## Characters -/

/-- The digits that are written for values, by looking at all bytes. -/
private theorem getElem?_alphabet (value : UInt8) :
    value.toNat < 16 → alphabet[value.toNat]? = some (digit value) := by
  revert value
  refine ByteTable.forall_byte ?_
  decide +kernel

/-- The letters of the alphabet are characters of ASCII, and so are their
capitals. -/
theorem lt_of_toLower_mem {c : Char} (hc : c.toLower ∈ alphabet) : c.toNat < 128 := by
  by_cases hupper : c.val ≥ 'A'.val ∧ c.val ≤ 'Z'.val
  · have hle : c.toNat ≤ 'Z'.toNat := UInt32.le_iff_toNat_le.mp hupper.2
    have hcode : 'Z'.toNat = 90 := rfl
    omega
  · have hsmall : ∀ d ∈ alphabet, d.toNat < 128 := by simp [alphabet]
    rw [Char.toLower, dif_neg hupper] at hc
    exact hsmall c hc

/-- A character of ASCII is one byte, its code. -/
private theorem utf8EncodeChar_of_lt {c : Char} (hc : c.toNat < 128) :
    String.utf8EncodeChar c = [UInt8.ofNat c.toNat] :=
  if_pos (Nat.le_of_lt_succ hc)

/-- The first byte of any other character is no digit. -/
private theorem exists_utf8EncodeChar_eq_cons {c : Char} (hc : ¬ c.toNat < 128) :
    ∃ code codes, String.utf8EncodeChar c = code :: codes ∧ ¬ IsDigit code := by
  have hlarge : ∀ n, 128 ≤ n → n < 256 → ¬ IsDigit (UInt8.ofNat n) := by
    intro n hle hlt hdigit
    have hsmall := isDigit_imp_lt _ hdigit
    rw [UInt8.toNat_ofNat'] at hsmall
    omega
  unfold String.utf8EncodeChar
  simp only
  split_ifs with h1 h2 h3
  · exact absurd (Nat.lt_succ_of_le h1) hc
  all_goals exact ⟨_, _, rfl, hlarge _ (by omega) (by omega)⟩

private theorem isDigitOf_ofNat_iff {value : ℕ} {c : Char} (hc : c.toNat < 128) :
    IsDigitOf value (UInt8.ofNat c.toNat) ↔ alphabet[value]? = some c.toLower := by
  rw [IsDigitOf, UInt8.toNat_ofNat', Nat.mod_eq_of_lt (by omega), Char.ofNat_toNat]

private theorem utf8_cons (c : Char) (cs : List Char) :
    utf8 (c :: cs) = String.utf8EncodeChar c ++ utf8 cs := rfl

/-- A text whose first byte is a digit begins with the character of the digit. -/
private theorem exists_of_utf8_eq_cons {cs : List Char} {code : UInt8} {codes : List UInt8}
    {value : ℕ} (hcs : utf8 cs = code :: codes) (hcode : IsDigitOf value code) :
    ∃ c rest, cs = c :: rest ∧ alphabet[value]? = some c.toLower ∧ utf8 rest = codes := by
  rcases cs with _ | ⟨c, rest⟩
  · cases hcs
  · by_cases hc : c.toNat < 128
    · rw [utf8_cons, utf8EncodeChar_of_lt hc] at hcs
      cases hcs
      exact ⟨c, rest, rfl, (isDigitOf_ofNat_iff hc).mp hcode, rfl⟩
    · obtain ⟨first, others, hfirst, hnot⟩ := exists_utf8EncodeChar_eq_cons hc
      rw [utf8_cons, hfirst] at hcs
      cases hcs
      exact absurd hcode.isDigit hnot

/-- A byte is put together from its halves. -/
private theorem ofNat_halves (b : UInt8) :
    UInt8.ofNat (16 * (b >>> 4).toNat + (b &&& 0x0f).toNat) = b ∧ (b >>> 4).toNat < 16 ∧
      (b &&& 0x0f).toNat < 16 := by
  revert b
  refine ByteTable.forall_byte ?_
  decide +kernel

private theorem encodeChars_cons (b : UInt8) (bytes : List UInt8) :
    encodeChars (b :: bytes) = encodeByte b ++ encodeChars bytes := rfl

/-- The digits that are written for a byte are those of its halves. -/
private theorem encodeByte_ofNat {upper lower : ℕ} {c d : Char} (hc : alphabet[upper]? = some c)
    (hd : alphabet[lower]? = some d) : encodeByte (UInt8.ofNat (16 * upper + lower)) = [c, d] := by
  have hupper : upper < 16 := (List.getElem?_eq_some_iff.mp hc).1
  have hlower : lower < 16 := (List.getElem?_eq_some_iff.mp hd).1
  obtain ⟨hbyte, hu, hl⟩ := ofNat_halves (UInt8.ofNat (16 * upper + lower))
  have hsum := congrArg UInt8.toNat hbyte
  rw [UInt8.toNat_ofNat', UInt8.toNat_ofNat', Nat.mod_eq_of_lt (by omega),
    Nat.mod_eq_of_lt (by omega)] at hsum
  have hd1 := getElem?_alphabet _ hu
  have hd2 := getElem?_alphabet _ hl
  rw [show (UInt8.ofNat (16 * upper + lower) >>> 4).toNat = upper by omega, hc] at hd1
  rw [show (UInt8.ofNat (16 * upper + lower) &&& 0x0f).toNat = lower by omega, hd] at hd2
  rw [encodeByte, ← Option.some.inj hd1, ← Option.some.inj hd2]

/-- By induction on the grammar: a text whose bytes are the digits of others has
the characters that are written for those, up to their case. -/
theorem Written.map_toLower_eq {codes bytes : List UInt8} (h : Written codes bytes) :
    ∀ cs, utf8 cs = codes → cs.map Char.toLower = encodeChars bytes := by
  induction h with
  | nil =>
      intro cs hcs
      rcases cs with _ | ⟨c, rest⟩
      · rfl
      · exact absurd (List.append_eq_nil_iff.mp hcs).1 String.utf8EncodeChar_ne_nil
  | @cons upper lower first second codes bytes hupper hlower _ ih =>
      intro cs hcs
      obtain ⟨c, rest, rfl, hc, hrest⟩ := exists_of_utf8_eq_cons hcs hupper
      obtain ⟨d, rest, rfl, hd, hrest⟩ := exists_of_utf8_eq_cons hrest hlower
      rw [List.map_cons, List.map_cons, ih rest hrest, encodeChars_cons, encodeByte_ofNat hc hd]
      rfl

/-- By induction on the bytes: the characters that are written for them, in small
or capital letters, are digits of the bytes. -/
private theorem written_of_map_toLower_eq {bytes : List UInt8} :
    ∀ {cs : List Char}, cs.map Char.toLower = encodeChars bytes → Written (utf8 cs) bytes := by
  induction bytes with
  | nil =>
      intro cs hcs
      rw [List.map_eq_nil_iff.mp hcs]
      exact .nil
  | cons b bytes ih =>
      intro cs hcs
      obtain ⟨hbyte, hupper, hlower⟩ := ofNat_halves b
      have hu := getElem?_alphabet _ hupper
      have hl := getElem?_alphabet _ hlower
      obtain ⟨c, rest, rfl, hc, hcs⟩ := List.map_eq_cons_iff.mp hcs
      obtain ⟨d, rest, rfl, hd, hcs⟩ := List.map_eq_cons_iff.mp hcs
      rw [← hc] at hu
      rw [← hd] at hl
      have hc' := lt_of_toLower_mem (List.mem_of_getElem? hu)
      have hd' := lt_of_toLower_mem (List.mem_of_getElem? hl)
      have hwritten := Written.cons ((isDigitOf_ofNat_iff hc').mpr hu)
        ((isDigitOf_ofNat_iff hd').mpr hl) (ih hcs)
      rw [hbyte] at hwritten
      rw [utf8_cons, utf8_cons, utf8EncodeChar_of_lt hc', utf8EncodeChar_of_lt hd']
      exact hwritten

/-- The grammar on characters: a text stands for bytes just when it is what is
written for them, up to the case of its letters. -/
theorem written_utf8_iff {cs : List Char} {bytes : List UInt8} :
    Written (utf8 cs) bytes ↔ cs.map Char.toLower = encodeChars bytes :=
  ⟨fun h => h.map_toLower_eq cs rfl, written_of_map_toLower_eq⟩

/-! ## What is written -/

theorem encodeChars_mem (bytes : List UInt8) : ∀ c ∈ encodeChars bytes, c ∈ alphabet := by
  intro c hmem
  obtain ⟨b, -, hc⟩ := List.mem_flatMap.mp hmem
  obtain ⟨-, hupper, hlower⟩ := ofNat_halves b
  rcases List.mem_pair.mp hc with rfl | rfl
  · exact List.mem_of_getElem? (getElem?_alphabet _ hupper)
  · exact List.mem_of_getElem? (getElem?_alphabet _ hlower)

end Rijndael.Text.Hex
