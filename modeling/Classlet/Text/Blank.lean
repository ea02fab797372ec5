/-! # Blank characters and lines

`Text.isBlank` is the white space of all scripts, and `Text.trim` removes it from both ends of a
text.  `Text.lines` cuts a text at its newlines; a carriage return before a newline belongs to
the line end, and an empty last line is no line. -/

namespace Classlet.Text

/-- The white space characters. -/
def isBlank (c : Char) : Bool :=
  let n := c.toNat
  (0x9 ≤ n && n ≤ 0xd) || n == 0x20 || n == 0x85 || n == 0xa0 || n == 0x1680 ||
    (0x2000 ≤ n && n ≤ 0x200a) || n == 0x2028 || n == 0x2029 || n == 0x202f || n == 0x205f ||
    n == 0x3000

/-- A list of characters without the blanks at both ends. -/
def trimChars (cs : List Char) : List Char :=
  ((cs.dropWhile isBlank).reverse.dropWhile isBlank).reverse

/-- A text without the blanks at both ends. -/
def trim (s : String) : String := String.ofList (trimChars s.toList)

/-- A line without the carriage return that ended it together with a newline. -/
def dropReturn (line : List Char) : List Char :=
  if line.getLast? == some '\r' then line.dropLast else line

/-- The lines of a text, `line` being the part of the current line read so far, last character
first. -/
def linesFrom (line : List Char) : List Char → List (List Char)
  | [] => if line.isEmpty then [] else [line.reverse]
  | c :: cs =>
    if c == '\n' then dropReturn line.reverse :: linesFrom [] cs
    else linesFrom (c :: line) cs

def lines (s : String) : List String :=
  (linesFrom [] s.toList).map String.ofList

end Classlet.Text
