/-! # Joined texts

`Text.join` puts a separator between texts; most lists of the language are separated by commas,
which is `Text.commas`.  `Text.tuple` adds the parentheses of a tuple. -/

namespace Classlet.Text

/-- The texts in order with `separator` between them. -/
def join (separator : String) : List String → String
  | [] => ""
  | [s] => s
  | s :: more => s ++ separator ++ join separator more

/-- The texts in order with a comma and a space between them. -/
def commas (texts : List String) : String := join ", " texts

/-- Texts as a tuple; a single one is followed by a comma, which tells it from a text in
parentheses. -/
def tuple : List String → String
  | [s] => "(" ++ s ++ ",)"
  | texts => "(" ++ commas texts ++ ")"

end Classlet.Text
