import Rijndael.Text.Digits

/-!
# Characters in single quotes

The way in which messages show one character: between single quotes, with a
backslash before a quote or a backslash, short escapes for the commonest
control characters, and the code point in place of any other character that
does not print.
-/

namespace Rijndael.Text

/-- Whether the character with the given code below 256 prints as itself. The
control characters do not, nor do the no-break space and the soft hyphen. -/
def prints (code : UInt8) : Bool :=
  !(code < 0x20 || (0x7f ≤ code && code < 0xa0) || code == 0xa0 || code == 0xad)

/-- The character with the given code below 256, between single quotes. -/
def charLiteral (code : UInt8) : String :=
  let c := Char.ofNat code.toNat
  let shown :=
    if c = '\x00' then "\\0"
    else if c = '\t' then "\\t"
    else if c = '\n' then "\\n"
    else if c = '\r' then "\\r"
    else if c = '\'' then "\\'"
    else if c = '\\' then "\\\\"
    else if prints code then String.singleton c
    else s!"\\u\x7b{hexNumber code.toNat}\x7d"
  s!"'{shown}'"

end Rijndael.Text
