import Rijndael.Text.CharLiteral

/-!
# Bytes in hexadecimal

Each byte is written as two digits, the upper half first. Writing uses small
letters; reading takes small and capital ones.

Reading works on the bytes of a text in its UTF-8 form. A character outside
ASCII counts as several bytes there, none of which is a digit, and the
position in an error is that of a byte.

## Main definitions

* `Hex.encode` and `Hex.decode`, between bytes and their written form;
* `HexError`, why a text is not the written form of bytes: the number of
  digits is looked at before the digits themselves.
-/

namespace Rijndael.Text

/-- Why a text cannot be read as bytes. -/
inductive HexError where
  | oddLength
  /-- The byte is no digit; its position counts from zero. -/
  | invalidDigit (byte : UInt8) (position : Nat)
  deriving DecidableEq, Repr

def HexError.message : HexError → String
  | .oddLength => "Odd number of digits"
  | .invalidDigit byte position =>
    s!"Invalid character {charLiteral byte} at position {position}"

namespace Hex

/-- The digit for a value below sixteen, with small letters. -/
def digit (value : UInt8) : Char :=
  if value < 10 then Char.ofNat (0x30 + value.toNat) else Char.ofNat (0x57 + value.toNat)

/-- The value of a digit, given by its ASCII code. -/
def value? (code : UInt8) : Option UInt8 :=
  if 0x30 ≤ code ∧ code ≤ 0x39 then some (code - 0x30)
  else if 0x61 ≤ code ∧ code ≤ 0x66 then some (code - 0x57)
  else if 0x41 ≤ code ∧ code ≤ 0x46 then some (code - 0x37)
  else none

def encodeByte (b : UInt8) : List Char := [digit (b >>> 4), digit (b &&& 0x0f)]

def encodeChars (bytes : List UInt8) : List Char := bytes.flatMap encodeByte

def encode (bytes : List UInt8) : String := String.ofList (encodeChars bytes)

/-- The values of digits, given by their codes; `position` is that of the
first. -/
def values (position : Nat) : List UInt8 → Except HexError (List UInt8)
  | [] => .ok []
  | code :: rest =>
    match value? code with
    | some value => (values (position + 1) rest).map (value :: ·)
    | none => .error (.invalidDigit code position)

/-- The bytes whose upper and lower halves alternate in a list. -/
def joinHalves : List UInt8 → List UInt8
  | upper :: lower :: rest => (upper <<< 4 ||| lower) :: joinHalves rest
  | _ => []

/-- The bytes that a row of digits stands for, given by their codes. -/
def decodeCodes (codes : List UInt8) : Except HexError (List UInt8) :=
  if codes.length % 2 = 0 then (values 0 codes).map joinHalves else .error .oddLength

/-- The bytes of characters in UTF-8. -/
def utf8 (cs : List Char) : List UInt8 := cs.flatMap String.utf8EncodeChar

/-- The bytes whose written form is a text. -/
def decode (cs : List Char) : Except HexError (List UInt8) := decodeCodes (utf8 cs)

end Hex

end Rijndael.Text
