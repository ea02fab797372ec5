import Classlet.Syntax
import Classlet.Text.Join

/-! # Printed syntax

`Expr.print` writes an expression as normalised source text, and `Statement.print` summarises a
statement in one line; a compound statement shows its header only.  Stack traces quote these
lines when there is no source text.

A binary or logical operand of a binary or logical expression is put in parentheses, which makes
the printed tree unambiguous. -/

namespace Classlet

def boolText (b : Bool) : String := if b then "true" else "false"

/-- A literal as it is written in source text. -/
def Literal.print : Literal → String
  | nil => "nil"
  | bool b => boolText b
  | int n => Numeral.ofInt n.toInt
  | real x => Numeral.literal x
  | str s => Text.quote s

/-- A parameter without its annotation. -/
def Param.print (p : Param) : String := if p.variadic then "*" ++ p.name else p.name

/-- The parameters of a function between parentheses. -/
def FunctionDecl.printParams (decl : FunctionDecl) : String :=
  "(" ++ Text.commas (decl.params.map Param.print) ++ ")"

def Connective.word : Connective → String
  | and => "and"
  | or => "or"

/-- Whether an expression needs parentheses as an operand. -/
def Expr.isOperation : Expr → Bool
  | binary .. | logical .. => true
  | _ => false

/-- A text in parentheses if `wrap` says so. -/
def parenthesized (wrap : Bool) (s : String) : String := if wrap then "(" ++ s ++ ")" else s

/-- The text that stands for the omitted body of a compound construct. -/
def elided : String := "\x7b ... \x7d"

mutual

/-- An expression as source text. -/
def Expr.print : Expr → String
  | .literal value => value.print
  | .var name => name
  | .tuple elements => Text.tuple (printAll elements)
  | .list elements => "[" ++ Text.commas (printAll elements) ++ "]"
  | .unary op operand => op.symbol ++ operand.print
  | .not operand => "not " ++ operand.print
  | .binary op left right =>
    parenthesized left.isOperation left.print ++ " " ++ op.symbol ++ " " ++
      parenthesized right.isOperation right.print
  | .logical op left right =>
    parenthesized left.isOperation left.print ++ " " ++ op.word ++ " " ++
      parenthesized right.isOperation right.print
  | .call callee arguments keywords =>
    callee.print ++ "(" ++ Text.commas (printAll arguments ++ printKeywords keywords) ++ ")"
  | .attr object name => object.print ++ "." ++ name
  | .index object index => object.print ++ "[" ++ index.print ++ "]"
  | .slice object start stop =>
    object.print ++ "[" ++ printBound start ++ ":" ++ printBound stop ++ "]"
  | .lambda decl => "fun" ++ decl.printParams ++ " " ++ elided
termination_by structural e => e

/-- Every expression of a list as source text. -/
def printAll : List Expr → List String
  | [] => []
  | e :: more => e.print :: printAll more
termination_by structural es => es

/-- Every keyword argument of a list as source text. -/
def printKeywords : List KeywordArg → List String
  | [] => []
  | .mk name value :: more => (name ++ "=" ++ value.print) :: printKeywords more
termination_by structural ks => ks

/-- A bound of a slice; an omitted one has no text. -/
def printBound : Option Expr → String
  | none => ""
  | some e => e.print
termination_by structural bound => bound

end

/-- What an import statement names, as source text. -/
def ImportPath.print : ImportPath → String
  | relative path => Text.quote path
  | standard parts => Text.join "." parts

/-- A statement in one line, without its bodies. -/
def StatementKind.print : StatementKind → String
  | .expression e => e.print ++ ";"
  | .assign targets values =>
    Text.commas (printAll targets) ++ " = " ++ Text.commas (printAll values) ++ ";"
  | .block _ [] => elided
  | .block _ _ => "try " ++ elided
  | .ifElse [] _ => "if " ++ elided
  | .ifElse (.mk condition _ :: _) _ => "if " ++ condition.print ++ " " ++ elided
  | .forRange name start stop _ =>
    "for " ++ name ++ " in " ++ start.print ++ ".." ++ stop.print ++ " " ++ elided
  | .whileDo condition _ => "while " ++ condition.print ++ " " ++ elided
  | .loop _ => "loop " ++ elided
  | .breakLoop => "break;"
  | .returnValues [] => "return;"
  | .returnValues values => "return " ++ Text.commas (printAll values) ++ ";"
  | .throwValue value => "throw " ++ value.print ++ ";"
  | .function decl => "fun " ++ decl.name ++ decl.printParams ++ " " ++ elided
  | .classDecl name _ _ isStruct =>
    (if isStruct then "struct " else "class ") ++ name ++ " " ++ elided
  | .importModule path none => "import " ++ path.print ++ ";"
  | .importModule path (some name) => "import " ++ path.print ++ " as " ++ name ++ ";"

def Statement.print (s : Statement) : String := s.kind.print

end Classlet
