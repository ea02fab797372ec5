import Classlet.Text.Obscure

/-! # Quoted text

`Text.quote` writes a text between double quotes.  The quote and the backslash are written behind a
backslash, newline, tab, carriage return and NUL as `\n`, `\t`, `\r` and `\0`, and every other
character that is not printable as its code point in hexadecimal digits, in braces behind `\u`. -/

namespace Classlet.Text

/-- The lower case hexadecimal digits of a code point. -/
def hexDigits (n : Nat) : List Char := Nat.toDigits 16 n

/-- Whether a character is written as its code point. -/
def needsCodePoint (c : Char) : Bool :=
  if c.toNat < 0x7f then c.toNat < 0x20 else isObscure c

/-- One character inside a quoted text. -/
def escape (c : Char) : List Char :=
  if c == '"' then ['\\', '"']
  else if c == '\\' then ['\\', '\\']
  else if c == '\n' then ['\\', 'n']
  else if c == '\t' then ['\\', 't']
  else if c == '\r' then ['\\', 'r']
  else if c == '\x00' then ['\\', '0']
  else if needsCodePoint c then ['\\', 'u', '\x7b'] ++ hexDigits c.toNat ++ ['\x7d']
  else [c]

/-- A text between double quotes. -/
def quote (s : String) : String :=
  String.ofList ('"' :: s.toList.flatMap escape ++ ['"'])

end Classlet.Text
