import Classlet.Token

/-! # Syntax trees

Expressions and statements.  A statement carries the number of the line it begins on; that line
is what a stack trace quotes.

* `Expr` and `Statement` (with `StatementKind`) are the trees.
* `FunctionDecl` is a named function, a lambda (named `<lambda>`), a method, or an operator named
  after its symbol, such as `+` or `len`.
* `BinaryOp.symbol`, `UnaryOp.symbol` and `Conversion.word` spell the operators. -/

namespace Classlet

/-- The binary operators that a class can overload. -/
inductive BinaryOp where
  | add
  | sub
  | mul
  | div
  | mod
  | pow
  | shl
  | shr
  | bitAnd
  | bitOr
  | bitXor
  | eq
  | ne
  | lt
  | le
  | gt
  | ge
  deriving Repr, DecidableEq

namespace BinaryOp

/-- Every binary operator. -/
def all : List BinaryOp :=
  [add, sub, mul, div, mod, pow, shl, shr, bitAnd, bitOr, bitXor, eq, ne, lt, le, gt, ge]

def symbol : BinaryOp → String
  | add => "+"
  | sub => "-"
  | mul => "*"
  | div => "/"
  | mod => "%"
  | pow => "**"
  | shl => "<<"
  | shr => ">>"
  | bitAnd => "&"
  | bitOr => "|"
  | bitXor => "^"
  | eq => "=="
  | ne => "!="
  | lt => "<"
  | le => "<="
  | gt => ">"
  | ge => ">="

/-- The operator with this spelling. -/
def ofSymbol? (s : String) : Option BinaryOp := all.find? fun op => op.symbol == s

/-- The operator a token stands for. -/
def ofToken? : Symbol → Option BinaryOp
  | .plus => some add
  | .minus => some sub
  | .star => some mul
  | .slash => some div
  | .percent => some mod
  | .starStar => some pow
  | .lessLess => some shl
  | .greaterGreater => some shr
  | .ampersand => some bitAnd
  | .pipe => some bitOr
  | .caret => some bitXor
  | .equalEqual => some eq
  | .bangEqual => some ne
  | .less => some lt
  | .lessEqual => some le
  | .greater => some gt
  | .greaterEqual => some ge
  | _ => none

/-- Whether the operands may be swapped without changing the result. -/
def isCommutative : BinaryOp → Bool
  | add | mul | bitAnd | bitOr | bitXor | eq | ne => true
  | _ => false

/-- The operator that gives the same answer with the operands swapped: `a < b` is `b > a`. -/
def mirrored? : BinaryOp → Option BinaryOp
  | lt => some gt
  | le => some ge
  | gt => some lt
  | ge => some le
  | op => if op.isCommutative then some op else none

end BinaryOp

/-- The operators in front of an operand. -/
inductive UnaryOp where
  | neg
  | pos
  | invert
  deriving Repr, DecidableEq

def UnaryOp.symbol : UnaryOp → String
  | neg => "-"
  | pos => "+"
  | invert => "~"

/-- The conversions that a class can define as named operators. -/
inductive Conversion where
  | len
  | int
  | bool
  | str
  | repr
  deriving Repr, DecidableEq

namespace Conversion

def all : List Conversion := [len, int, bool, str, repr]

def word : Conversion → String
  | len => "len"
  | int => "int"
  | bool => "bool"
  | str => "str"
  | repr => "repr"

/-- The conversion a word stands for. -/
def ofWord? (s : String) : Option Conversion := all.find? fun c => c.word == s

end Conversion

/-- The connectives that evaluate their second operand only when it matters. -/
inductive Connective where
  | and
  | or
  deriving Repr, DecidableEq

/-- What an import statement names. -/
inductive ImportPath where
  /-- A path relative to the importing module. -/
  | relative (path : String)
  /-- Dotted parts below the root of the standard library. -/
  | standard (parts : List String)
  deriving Repr, DecidableEq

mutual

/-- Expressions. -/
inductive Expr where
  | literal (value : Literal)
  | var (name : String)
  | tuple (elements : List Expr)
  | list (elements : List Expr)
  | unary (op : UnaryOp) (operand : Expr)
  | not (operand : Expr)
  | binary (op : BinaryOp) (left right : Expr)
  | logical (op : Connective) (left right : Expr)
  | call (callee : Expr) (arguments : List Expr) (keywords : List KeywordArg)
  | attr (object : Expr) (name : String)
  | index (object index : Expr)
  | slice (object : Expr) (start stop : Option Expr)
  | lambda (decl : FunctionDecl)

/-- An argument passed by name. -/
inductive KeywordArg where
  | mk (name : String) (value : Expr)

/-- A parameter, with the class its arguments must have. -/
inductive Param where
  | mk (name : String) (typeExpr : Option Expr) (variadic : Bool)

/-- The definition of a function. -/
inductive FunctionDecl where
  | mk (name : String) (params : List Param) (returns : List Expr) (body : List Statement)
      (line : UInt32)

/-- A member of a class body. -/
inductive ClassMember where
  | method (decl : FunctionDecl)
  | operator (decl : FunctionDecl)
  | attr (name : String) (value : Expr)

/-- A condition and the statements it guards. -/
inductive Branch where
  | mk (condition : Expr) (body : List Statement)

/-- A handler of a `try` block. -/
inductive CatchClause where
  | mk (name : String) (errorType : Expr) (body : List Statement) (line : UInt32)

/-- A statement and the line it begins on. -/
inductive Statement where
  | mk (line : UInt32) (kind : StatementKind)

/-- Statements without their line. -/
inductive StatementKind where
  | expression (expr : Expr)
  | assign (targets values : List Expr)
  /-- A plain block, or a `try` block if it has handlers. -/
  | block (body : List Statement) (catches : List CatchClause)
  | ifElse (branches : List Branch) (otherwise : Option (List Statement))
  | forRange (name : String) (start stop : Expr) (body : List Statement)
  | whileDo (condition : Expr) (body : List Statement)
  | loop (body : List Statement)
  | breakLoop
  | returnValues (values : List Expr)
  | throwValue (value : Expr)
  | function (decl : FunctionDecl)
  | classDecl (name : String) (base : Option Expr) (members : List ClassMember) (isStruct : Bool)
  | importModule (path : ImportPath) (newName : Option String)

end

/-- A tree of no interest. -/
instance : Inhabited Expr := ⟨.literal .nil⟩

namespace KeywordArg

def name : KeywordArg → String
  | mk n _ => n

/-- The value of a keyword argument. -/
def value : KeywordArg → Expr
  | mk _ e => e

end KeywordArg

namespace Param

def name : Param → String
  | mk n _ _ => n

/-- The class expression of a parameter. -/
def typeExpr : Param → Option Expr
  | mk _ a _ => a

/-- Whether a parameter takes all remaining positional arguments. -/
def variadic : Param → Bool
  | mk _ _ v => v

end Param

namespace FunctionDecl

def name : FunctionDecl → String
  | mk n _ _ _ _ => n

def params : FunctionDecl → List Param
  | mk _ ps _ _ _ => ps

/-- The class expressions of the results. -/
def returns : FunctionDecl → List Expr
  | mk _ _ rs _ _ => rs

def body : FunctionDecl → List Statement
  | mk _ _ _ b _ => b

/-- The line of a function definition. -/
def line : FunctionDecl → UInt32
  | mk _ _ _ _ l => l

end FunctionDecl

namespace Statement

def line : Statement → UInt32
  | mk l _ => l

def kind : Statement → StatementKind
  | mk _ k => k

end Statement

/-- Whether an expression names a place that can stand on the left of `=`. -/
def Expr.isAssignable : Expr → Bool
  | var _ | attr .. | index .. | slice .. => true
  | _ => false

end Classlet
