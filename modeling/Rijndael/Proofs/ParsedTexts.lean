import Mathlib
import Rijndael.Program.Failure
import Rijndael.Proofs.HexGrammar

/-!
# Keys and blocks given as texts

Keys and blocks on the command line are read alike: blank characters at both
ends are dropped, what is left is taken for hexadecimal, and the number of bytes
must be one that fits. `ReadsAs` says all that can come out of this, for any text
and in terms of the grammar of digits: which texts are accepted and for what,
and which of the three failures another text meets. The number of digits is
looked at first, then the digits themselves, and the length last.

Since small and capital letters are the same digits, the accepted texts of a
value are those that are written for it, up to case and blank characters.

## Main results

* `Text.isTrimmed_iff` — what trimming leaves of a text.
* `readText_readsAs` — every reader made in this way reads so.
* `parse_readsAs` — the readers of keys and blocks.
-/

namespace Rijndael

namespace Text

/-! ## Blank characters at the ends -/

/-- A text is another one with blank characters around it, and has none at its own
ends. -/
def IsTrimmed (cs trimmed : List Char) : Prop :=
  (∃ before after, cs = before ++ trimmed ++ after ∧ (∀ c ∈ before, isBlank c) ∧
      ∀ c ∈ after, isBlank c) ∧
    (∀ c ∈ trimmed.head?, ¬ isBlank c) ∧ ∀ c ∈ trimmed.getLast?, ¬ isBlank c

private theorem dropWhile_append_eq {before cs : List Char} (hbefore : ∀ c ∈ before, isBlank c)
    (hhead : ∀ c ∈ cs.head?, ¬ isBlank c) : (before ++ cs).dropWhile isBlank = cs := by
  rw [List.dropWhile_append_of_pos hbefore]
  cases cs with
  | nil => rfl
  | cons c cs => exact List.dropWhile_cons_of_neg (hhead c rfl)

/-- What is dropped from the front of a text, and how the rest begins. -/
private theorem exists_append_dropWhile (cs : List Char) :
    ∃ before, cs = before ++ cs.dropWhile isBlank ∧ (∀ c ∈ before, isBlank c) ∧
      ∀ c ∈ (cs.dropWhile isBlank).head?, ¬ isBlank c := by
  refine ⟨cs.takeWhile isBlank, List.takeWhile_append_dropWhile.symm,
    fun c hc => List.mem_takeWhile_imp hc, fun c hc => ?_⟩
  have hnot := List.head?_dropWhile_not isBlank cs
  rw [Option.mem_def.mp hc] at hnot
  exact Bool.eq_false_iff.mp hnot

/-- The end of a text is dropped as the front of the reversed text. -/
theorem isTrimmed_trim (cs : List Char) : IsTrimmed cs (trim cs) := by
  obtain ⟨before, hcs, hbefore, hhead⟩ := exists_append_dropWhile cs
  obtain ⟨after, hrest, hafter, hlast⟩ := exists_append_dropWhile (cs.dropWhile isBlank).reverse
  have hrest' : cs.dropWhile isBlank = trim cs ++ after.reverse := by
    rw [trim, ← List.reverse_append, ← hrest, List.reverse_reverse]
  refine ⟨⟨before, after.reverse, ?_, hbefore, ?_⟩, ?_, ?_⟩
  · rw [List.append_assoc, ← hrest', ← hcs]
  · exact fun c hc => hafter c (List.mem_reverse.mp hc)
  · intro c hc
    apply hhead c
    rw [hrest', List.head?_append, Option.mem_def.mp hc]
    rfl
  · intro c hc
    rw [trim, List.getLast?_reverse] at hc
    exact hlast c hc

theorem IsTrimmed.trim_eq {cs trimmed : List Char} (h : IsTrimmed cs trimmed) :
    trim cs = trimmed := by
  obtain ⟨⟨before, after, rfl, hbefore, hafter⟩, hhead, hlast⟩ := h
  rcases trimmed with _ | ⟨c, trimmed⟩
  · have hall : (before ++ [] ++ after).dropWhile isBlank = [] := by
      rw [List.append_nil, List.dropWhile_append_of_pos hbefore]
      exact List.dropWhile_eq_nil_iff.mpr hafter
    rw [trim, hall]
    rfl
  · have hrest : (before ++ (c :: trimmed ++ after)).dropWhile isBlank = c :: trimmed ++ after :=
      dropWhile_append_eq hbefore hhead
    have hafter' : ∀ d ∈ after.reverse, isBlank d := fun d hd => hafter d (List.mem_reverse.mp hd)
    rw [trim, List.append_assoc, hrest, List.reverse_append,
      dropWhile_append_eq hafter' (by rwa [List.head?_reverse]), List.reverse_reverse]

theorem isTrimmed_iff {cs trimmed : List Char} : IsTrimmed cs trimmed ↔ trim cs = trimmed :=
  ⟨IsTrimmed.trim_eq, fun h => h ▸ isTrimmed_trim cs⟩

private theorem trim_append {before cs after : List Char} (hbefore : ∀ c ∈ before, isBlank c)
    (hafter : ∀ c ∈ after, isBlank c) (hcs : ∀ c ∈ cs, ¬ isBlank c) :
    trim (before ++ cs ++ after) = cs :=
  IsTrimmed.trim_eq ⟨⟨before, after, rfl, hbefore, hafter⟩,
    fun c hc => hcs c (List.mem_of_mem_head? hc), fun c hc => hcs c (List.mem_of_mem_getLast? hc)⟩

/-- No digit is blank, by looking at all characters of ASCII. -/
private theorem not_isBlank_of_toLower_mem {c : Char} (hc : c.toLower ∈ Hex.alphabet) :
    ¬ isBlank c := by
  have hascii : ∀ n < 128, (Char.ofNat n).toLower ∈ Hex.alphabet → ¬ isBlank (Char.ofNat n) := by
    decide +kernel
  have hnot := hascii c.toNat (Hex.lt_of_toLower_mem hc)
  rw [Char.ofNat_toNat] at hnot
  exact hnot hc

/-- Blank characters around digits are dropped, and no more than those. -/
theorem trim_append_of_map_toLower {before cs after : List Char} {bytes : List UInt8}
    (hbefore : ∀ c ∈ before, isBlank c) (hafter : ∀ c ∈ after, isBlank c)
    (hcs : cs.map Char.toLower = Hex.encodeChars bytes) : trim (before ++ cs ++ after) = cs := by
  refine trim_append hbefore hafter fun c hc => not_isBlank_of_toLower_mem ?_
  apply Hex.encodeChars_mem bytes
  rw [← hcs]
  exact List.mem_map_of_mem hc

end Text

namespace Program

open Text Text.Hex

/-! ## Readers -/

/-- The bytes of a text in UTF-8, without the blank characters at its ends. -/
def codesOf (text : String) : List UInt8 := utf8 (trim text.toList)

/-- A text is read as a value that consists of bytes, the number of which is among
some lengths. -/
structure ReadsAs {α : Type} (parse : String → Except Failure α) (toBytes : α → List UInt8)
    (lengths : List ℕ) (hexFailure : HexError → Failure) (lengthFailure : ℕ → Failure) :
    Prop where
  accepts_iff (text : String) : (∃ v, parse text = .ok v) ↔
    (∀ code ∈ codesOf text, IsDigit code) ∧ ∃ n ∈ lengths, (codesOf text).length = 2 * n
  /-- Two digits at a time are the bytes of the value. -/
  ok_iff (text : String) (v : α) : parse text = .ok v ↔ Written (codesOf text) (toBytes v)
  odd (text : String) (hodd : (codesOf text).length % 2 ≠ 0) :
    parse text = .error (hexFailure .oddLength)
  /-- The first byte that is no digit is named, with its position. -/
  invalid (text : String) {digits rest : List UInt8} {code : UInt8}
    (hcodes : codesOf text = digits ++ code :: rest) (heven : (codesOf text).length % 2 = 0)
    (hdigits : ∀ c ∈ digits, IsDigit c) (hcode : ¬ IsDigit code) :
    parse text = .error (hexFailure (.invalidDigit code digits.length))
  length (text : String) (hdigits : ∀ code ∈ codesOf text, IsDigit code) {n : ℕ}
    (hlength : (codesOf text).length = 2 * n) (hn : n ∉ lengths) :
    parse text = .error (lengthFailure n)
  /-- Capital letters and blank characters around the digits make no difference. -/
  variant {bytes : List UInt8} (hbytes : bytes.length ∈ lengths) {before cs after : List Char}
    (hbefore : ∀ c ∈ before, isBlank c) (hafter : ∀ c ∈ after, isBlank c)
    (hcs : cs.map Char.toLower = (encode bytes).toList) :
    ∃ v, parse (String.ofList (before ++ cs ++ after)) = .ok v ∧ toBytes v = bytes

/-- How keys and blocks are read: `ofBytes` makes a value of the bytes that the text
stands for. -/
def readText {α : Type} (ofBytes : List UInt8 → Except LengthError α)
    (hexFailure : HexError → Failure) (lengthFailure : ℕ → Failure) (text : String) :
    Except Failure α := do
  let bytes ← (decodeCodes (codesOf text)).mapError hexFailure
  (ofBytes bytes).mapError fun _ => lengthFailure bytes.length

theorem parseKey_eq : parseKey = readText CipherKey.ofBytes .keyText .keyLength := rfl

theorem parseBlock_eq : parseBlock = readText Block.ofBytes .blockText .blockLength := rfl

section Readers

variable {α : Type} {ofBytes : List UInt8 → Except LengthError α} {toBytes : α → List UInt8}
  {lengths : List ℕ} {hexFailure : HexError → Failure} {lengthFailure : ℕ → Failure}
  {text : String}

theorem readText_of_error {error : HexError} (htext : decodeCodes (codesOf text) = .error error) :
    readText ofBytes hexFailure lengthFailure text = .error (hexFailure error) := by
  rw [readText, htext]
  rfl

theorem readText_of_ok {bytes : List UInt8} (htext : decodeCodes (codesOf text) = .ok bytes) :
    readText ofBytes hexFailure lengthFailure text =
      (ofBytes bytes).mapError fun _ => lengthFailure bytes.length := by
  rw [readText, htext]
  rfl

/-- A text is accepted for a value when it stands for the bytes of the value. -/
theorem readText_eq_ok_iff (hvalue : ∀ bytes v, ofBytes bytes = .ok v ↔ bytes = toBytes v) {v : α} :
    readText ofBytes hexFailure lengthFailure text = .ok v ↔
      Written (codesOf text) (toBytes v) := by
  rw [← decodeCodes_eq_ok_iff]
  rcases htext : decodeCodes (codesOf text) with error | bytes
  · rw [readText_of_error htext]
    exact ⟨nofun, nofun⟩
  · rw [readText_of_ok htext, Except.ok.injEq, ← hvalue]
    rcases ofBytes bytes with error | w
    · exact ⟨nofun, nofun⟩
    · rw [Except.mapError, Except.ok.injEq, Except.ok.injEq]

/-- A text that stands for bytes, whose number fits, is accepted. -/
private theorem exists_readText_eq_ok
    (hvalue : ∀ bytes v, ofBytes bytes = .ok v ↔ bytes = toBytes v)
    (hfits : ∀ bytes, bytes.length ∈ lengths → ∃ v, ofBytes bytes = .ok v) {bytes : List UInt8}
    (hbytes : bytes.length ∈ lengths) (htext : Written (codesOf text) bytes) :
    ∃ v, readText ofBytes hexFailure lengthFailure text = .ok v ∧ toBytes v = bytes := by
  obtain ⟨v, hv⟩ := hfits bytes hbytes
  obtain rfl := (hvalue bytes v).mp hv
  exact ⟨v, (readText_eq_ok_iff hvalue).mpr htext, rfl⟩

theorem readText_readsAs (hvalue : ∀ bytes v, ofBytes bytes = .ok v ↔ bytes = toBytes v)
    (hlengths : ∀ v, (toBytes v).length ∈ lengths)
    (hfits : ∀ bytes, bytes.length ∈ lengths → ∃ v, ofBytes bytes = .ok v) :
    ReadsAs (readText ofBytes hexFailure lengthFailure) toBytes lengths hexFailure
      lengthFailure where
  accepts_iff text := by
    constructor
    · rintro ⟨v, hv⟩
      have hwritten := (readText_eq_ok_iff hvalue).mp hv
      exact ⟨hwritten.isDigit, _, hlengths v, hwritten.length_eq⟩
    · rintro ⟨hdigits, n, hn, hlength⟩
      obtain ⟨bytes, hwritten, rfl⟩ := exists_written_of_length hdigits hlength
      obtain ⟨v, hv, -⟩ := exists_readText_eq_ok hvalue hfits hn hwritten
      exact ⟨v, hv⟩
  ok_iff text v := readText_eq_ok_iff hvalue
  odd text hodd := readText_of_error (decodeCodes_eq_oddLength hodd)
  invalid text digits rest code hcodes heven hdigits hcode := by
    apply readText_of_error
    rw [hcodes] at heven ⊢
    exact decodeCodes_eq_invalidDigit heven hdigits hcode
  length text hdigits n hlength hn := by
    obtain ⟨bytes, hwritten, rfl⟩ := exists_written_of_length hdigits hlength
    rw [readText_of_ok hwritten.decodeCodes_eq]
    rcases hof : ofBytes bytes with error | v
    · rfl
    · obtain rfl := (hvalue bytes v).mp hof
      exact absurd (hlengths v) hn
  variant {bytes} hbytes {before cs after} hbefore hafter hcs := by
    rw [encode, String.toList_ofList] at hcs
    refine exists_readText_eq_ok hvalue hfits hbytes ?_
    rw [codesOf, String.toList_ofList, trim_append_of_map_toLower hbefore hafter hcs]
    exact written_utf8_iff.mpr hcs

end Readers

/-! ## Keys and blocks -/

private theorem ofBytes_block_eq_ok_iff (bytes : List UInt8) (b : Block) :
    Block.ofBytes bytes = .ok b ↔ bytes = b.toBytes := by
  constructor
  · intro hb
    by_cases hlength : bytes.length = 16
    · rw [Block.ofBytes, if_pos hlength] at hb
      cases hb
      exact (Block.toBytes_ofPrefix hlength).symm
    · rw [Block.ofBytes, if_neg hlength] at hb
      cases hb
  · rintro rfl
    exact Block.ofBytes_toBytes b

theorem parseKey_readsAs :
    ReadsAs parseKey CipherKey.toBytes [16, 24, 32] .keyText .keyLength := by
  rw [parseKey_eq]
  refine readText_readsAs (fun _ _ => CipherKey.ofBytes_eq_ok_iff) (fun key => ?_)
    fun bytes hbytes => ?_
  · rw [CipherKey.length_toBytes]
    cases key.size <;> simp [KeySize.keyBytes, KeySize.nk]
  · obtain ⟨size, hsize⟩ := KeySize.exists_ofLength_eq_ok hbytes
    exact ⟨_, congrArg (Except.map _) hsize⟩

theorem parseBlock_readsAs : ReadsAs parseBlock Block.toBytes [16] .blockText .blockLength := by
  rw [parseBlock_eq]
  refine readText_readsAs ofBytes_block_eq_ok_iff (fun b => ?_) fun bytes hbytes => ?_
  · exact List.mem_singleton.mpr b.length_toBytes
  · exact ⟨_, if_pos (List.mem_singleton.mp hbytes)⟩

/-- A letter outside ASCII counts as two bytes. -/
example : parseBlock "0é" = .error (.blockText .oddLength) ∧
    parseBlock " 0é0\n" = .error (.blockText (.invalidDigit 0xc3 1)) := by
  decide +kernel

/-- What comes of reading any text as a key, and as a block, once the blank
characters at its ends are dropped. What that leaves of a text is the only part of
it with blank characters around and none at its own ends. -/
theorem parse_readsAs :
    (∀ (text : String) (trimmed : List Char),
        IsTrimmed text.toList trimmed ↔ trim text.toList = trimmed) ∧
      ReadsAs parseKey CipherKey.toBytes [16, 24, 32] .keyText .keyLength ∧
      ReadsAs parseBlock Block.toBytes [16] .blockText .blockLength :=
  ⟨fun _ _ => isTrimmed_iff, parseKey_readsAs, parseBlock_readsAs⟩

end Program

end Rijndael
