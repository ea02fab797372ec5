import Classlet.Numeral.Format
import Classlet.Text.Quoted

/-! # Literals and tokens

The words of the language.  A token is a symbol, a keyword, an identifier or a literal, or it
marks the end of the text; it keeps the text it was read from, the value of a literal and the
number of the line it ends on.

Main definitions:

* `Literal`, the constants that can be written down;
* `Symbol` and `Keyword`, with their spellings `Symbol.text` and `Keyword.text`;
* `Token`, and `Token.describe`, the one-line text that shows a token. -/

namespace Classlet

/-- The constants of the language. -/
inductive Literal where
  | nil
  | bool (value : Bool)
  | int (value : Int64)
  | real (value : Float)
  | str (value : String)
  deriving Repr

namespace Literal

/-- The text that shows a literal together with its kind. -/
def describe : Literal → String
  | nil => "Nil"
  | bool b => "Bool(" ++ (if b then "true" else "false") ++ ")"
  | int n => "Int(" ++ Numeral.ofInt n.toInt ++ ")"
  | real x => "Real(" ++ Numeral.inspect x ++ ")"
  | str s => "Str(" ++ Text.quote s ++ ")"

end Literal

/-- The punctuation marks and operators. -/
inductive Symbol where
  | leftParen
  | rightParen
  | leftBrace
  | rightBrace
  | leftBracket
  | rightBracket
  | comma
  | dot
  | colon
  | semicolon
  | minus
  | plus
  | slash
  | star
  | percent
  | ampersand
  | pipe
  | caret
  | tilde
  | dotDot
  | starStar
  | arrow
  | fatArrow
  | bangEqual
  | equal
  | equalEqual
  | greater
  | greaterEqual
  | greaterGreater
  | less
  | lessEqual
  | lessLess
  deriving Repr, DecidableEq

namespace Symbol

def text : Symbol → String
  | leftParen => "("
  | rightParen => ")"
  | leftBrace => "\x7b"
  | rightBrace => "\x7d"
  | leftBracket => "["
  | rightBracket => "]"
  | comma => ","
  | dot => "."
  | colon => ":"
  | semicolon => ";"
  | minus => "-"
  | plus => "+"
  | slash => "/"
  | star => "*"
  | percent => "%"
  | ampersand => "&"
  | pipe => "|"
  | caret => "^"
  | tilde => "~"
  | dotDot => ".."
  | starStar => "**"
  | arrow => "->"
  | fatArrow => "=>"
  | bangEqual => "!="
  | equal => "="
  | equalEqual => "=="
  | greater => ">"
  | greaterEqual => ">="
  | greaterGreater => ">>"
  | less => "<"
  | lessEqual => "<="
  | lessLess => "<<"

def name : Symbol → String
  | leftParen => "LeftParen"
  | rightParen => "RightParen"
  | leftBrace => "LeftBrace"
  | rightBrace => "RightBrace"
  | leftBracket => "LeftBracket"
  | rightBracket => "RightBracket"
  | comma => "Comma"
  | dot => "Dot"
  | colon => "Colon"
  | semicolon => "Semicolon"
  | minus => "Minus"
  | plus => "Plus"
  | slash => "Slash"
  | star => "Star"
  | percent => "Percent"
  | ampersand => "Ampersand"
  | pipe => "Pipe"
  | caret => "Caret"
  | tilde => "Tilde"
  | dotDot => "DotDot"
  | starStar => "StarStar"
  | arrow => "Arrow"
  | fatArrow => "FatArrow"
  | bangEqual => "BangEqual"
  | equal => "Equal"
  | equalEqual => "EqualEqual"
  | greater => "Greater"
  | greaterEqual => "GreaterEqual"
  | greaterGreater => "GreaterGreater"
  | less => "Less"
  | lessEqual => "LessEqual"
  | lessLess => "LessLess"

end Symbol

/-- The reserved words.  No variable is ever bound to one of them. -/
inductive Keyword where
  | and
  | as
  | break
  | catch
  | classDef
  | elif
  | else
  | false
  | for
  | fun
  | if
  | import
  | in
  | loop
  | nil
  | not
  | operator
  | or
  | return
  | struct
  | throw
  | true
  | try
  | while
  deriving Repr, DecidableEq

namespace Keyword

/-- Every reserved word, in alphabetical order. -/
def all : List Keyword :=
  [.and, .as, .break, .catch, .classDef, .elif, .else, .false, .for, .fun, .if, .import, .in, .loop,
    .nil, .not, .operator, .or, .return, .struct, .throw, .true, .try, .while]

/-- How a reserved word is written. -/
def text : Keyword → String
  | .and => "and"
  | .as => "as"
  | .break => "break"
  | .catch => "catch"
  | .classDef => "class"
  | .elif => "elif"
  | .else => "else"
  | .false => "false"
  | .for => "for"
  | .fun => "fun"
  | .if => "if"
  | .import => "import"
  | .in => "in"
  | .loop => "loop"
  | .nil => "nil"
  | .not => "not"
  | .operator => "operator"
  | .or => "or"
  | .return => "return"
  | .struct => "struct"
  | .throw => "throw"
  | .true => "true"
  | .try => "try"
  | .while => "while"

def name : Keyword → String
  | .and => "And"
  | .as => "As"
  | .break => "Break"
  | .catch => "Catch"
  | .classDef => "Class"
  | .elif => "Elif"
  | .else => "Else"
  | .false => "False"
  | .for => "For"
  | .fun => "Fun"
  | .if => "If"
  | .import => "Import"
  | .in => "In"
  | .loop => "Loop"
  | .nil => "Nil"
  | .not => "Not"
  | .operator => "Operator"
  | .or => "Or"
  | .return => "Return"
  | .struct => "Struct"
  | .throw => "Throw"
  | .true => "True"
  | .try => "Try"
  | .while => "While"

/-- The reserved word with this spelling. -/
def ofText? (s : String) : Option Keyword := all.find? fun k => k.text == s

/-- The literal a reserved word stands for. -/
def literal? : Keyword → Option Literal
  | .true => some (.bool .true)
  | .false => some (.bool .false)
  | .nil => some .nil
  | _ => none

end Keyword

def isReserved (word : String) : Bool := (Keyword.ofText? word).isSome

/-- The kinds of tokens. -/
inductive TokenKind where
  | symbol (s : Symbol)
  | keyword (k : Keyword)
  | identifier
  | string
  | integer
  | real
  | endOfInput
  deriving Repr, DecidableEq

def TokenKind.name : TokenKind → String
  | .symbol s => s.name
  | .keyword k => k.name
  | .identifier => "Identifier"
  | .string => "StringLiteral"
  | .integer => "Integer"
  | .real => "Real"
  | .endOfInput => "EOF"

/-- A word of a source text. -/
structure Token where
  kind : TokenKind
  /-- The characters the token was read from. -/
  lexeme : String
  /-- The value of a literal token. -/
  literal : Option Literal
  /-- The number of the line on which the token ends. -/
  line : UInt32
  deriving Repr

namespace Token

/-- The mark behind the last token of a text. -/
def endOfInput (line : UInt32) : Token := ⟨.endOfInput, "", none, line⟩

/-- The kind, the lexeme and the literal of a token. -/
def describe (t : Token) : String :=
  let literal := match t.literal with
    | some l => "Some(" ++ l.describe ++ ")"
    | none => "None"
  t.kind.name ++ " " ++ t.lexeme ++ " " ++ literal

end Token

end Classlet
