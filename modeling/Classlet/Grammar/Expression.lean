import Classlet.Grammar.Parser
import Classlet.Syntax

/-! # The grammar of expressions

From the loosest to the tightest level: `or`, `and`, `not`, comparisons, `|`, `^`, `&`, shifts,
sums, products, signs, powers, postfixes (calls, indices, slices, attributes) and primaries.  The
binary levels associate to the left; a power takes a postfix on its left and a signed operand on
its right.

The rules refer back to expressions in brackets, to the right operand of a power, and to the
class expressions and the statements of a lambda.  `Rules` holds the parsers for these; the rules
of this module take one level of it, and `Classlet.Grammar.Statement` ties the knot. -/

namespace Classlet.Grammar

open Classlet.Parser

/-- Where a statement stands. -/
structure Surroundings where
  inLoop : Bool
  inFunction : Bool
  deriving Repr, DecidableEq

/-- The parsers that the rules refer back to. -/
structure Rules where
  /-- A bound on the repetitions of a rule that takes a token with each. -/
  passes : Nat
  expression : Parser Expr
  /-- An operand with its signs. -/
  signed : Parser Expr
  /-- An expression that names a class: a primary with its postfixes. -/
  typeExpr : Parser Expr
  declaration : Surroundings → Parser Statement

variable (rules : Rules)

/-! ### Functions -/

/-- The most parameters a function can have, and the most arguments of a call. -/
def maxArguments : Nat := 255

/-- Statements up to the closing brace, at most `fuel` of them. -/
def statementsUntilBrace (declaration : Parser Statement) : Nat → Parser (List Statement)
  | 0 => pure []
  | fuel + 1 => do
    if ← check (.symbol .rightBrace) then pure []
    else if ← atEnd then pure []
    else
      let s ← declaration
      let more ← statementsUntilBrace declaration fuel
      pure (s :: more)

/-- The statements of a block behind its opening brace. -/
def block (surroundings : Surroundings) : Parser (List Statement) := do
  let body ← statementsUntilBrace (rules.declaration surroundings) rules.passes
  let _ ← symbol .rightBrace .afterBlock
  pure body

/-- The body of a function behind its opening brace. -/
def functionBody : Parser (List Statement) := block rules ⟨false, true⟩

/-- An argument by name or by position, given those before it. -/
def argument (count : Nat) (keywords : List KeywordArg) : Parser (Expr ⊕ KeywordArg) := do
  if maxArguments ≤ count then fail .tooManyArguments
  else if (← check .identifier) && (← checkSecond (.symbol .equal)) then
    let name ← identifier .expression
    let _ ← accept (.symbol .equal)
    if keywords.any fun k => k.name == name.lexeme then failAt name (.repeatedKeyword name.lexeme)
    else
      let value ← rules.expression
      pure (.inr (.mk name.lexeme value))
  else if !keywords.isEmpty then fail .positionalAfterKeyword
  else
    let value ← rules.expression
    pure (.inl value)

/-- The arguments of a call behind those already read, at most `fuel` of them. -/
def arguments : Nat → List Expr → List KeywordArg → Parser (List Expr × List KeywordArg)
  | 0, positional, keywords => pure (positional, keywords)
  | fuel + 1, positional, keywords => do
    let (positional, keywords) ←
      match ← argument rules (positional.length + keywords.length) keywords with
      | .inl value => pure (positional ++ [value], keywords)
      | .inr keyword => pure (positional, keywords ++ [keyword])
    if ← acceptSymbol .comma then arguments fuel positional keywords
    else pure (positional, keywords)

/-- The rest of a call behind its opening parenthesis. -/
def callRest (callee : Expr) : Parser Expr := do
  let (positional, keywords) ←
    if ← check (.symbol .rightParen) then pure ([], []) else arguments rules rules.passes [] []
  let _ ← symbol .rightParen .afterArguments
  pure (.call callee positional keywords)

/-- The rest of an index or a slice behind its opening bracket. -/
def indexRest (object : Expr) : Parser Expr := do
  if ← acceptSymbol .colon then sliceRest none
  else
    let first ← rules.expression
    if ← acceptSymbol .colon then sliceRest (some first)
    else
      let _ ← symbol .rightBracket .afterIndex
      pure (.index object first)
where
  /-- The upper bound of a slice and its closing bracket. -/
  sliceRest (start : Option Expr) : Parser Expr := do
    let stop ←
      if ← check (.symbol .rightBracket) then pure none
      else
        let e ← rules.expression
        pure (some e)
    let _ ← symbol .rightBracket .afterSlice
    pure (.slice object start stop)

/-- The postfixes behind an expression, at most `fuel` of them. -/
def postfixes : Nat → Expr → Parser Expr
  | 0, e => pure e
  | fuel + 1, e => do
    if ← acceptSymbol .leftParen then postfixes fuel (← callRest rules e)
    else if ← acceptSymbol .leftBracket then postfixes fuel (← indexRest rules e)
    else if ← acceptSymbol .dot then
      let name ← identifier .attributeName
      postfixes fuel (.attr e name.lexeme)
    else pure e

/-- The rest of a tuple or of an expression in parentheses, behind the parenthesis. -/
def parenRest : Parser Expr := do
  if ← acceptSymbol .rightParen then pure (.tuple [])
  else
    let first ← rules.expression
    if ← acceptSymbol .comma then
      let more ← itemsUntil .rightParen rules.expression rules.passes
      let _ ← symbol .rightParen .afterTuple
      pure (.tuple (first :: more))
    else
      let _ ← symbol .rightParen .afterExpression
      pure first

/-- The rest of a list behind its opening bracket. -/
def listRest : Parser Expr := do
  let elements ← itemsUntil .rightBracket rules.expression rules.passes
  let _ ← symbol .rightBracket .afterList
  pure (.list elements)

def parameter : Parser Param := do
  let variadic ← acceptSymbol .star
  let name ← identifier .parameterName
  let typeExpr ←
    if ← acceptSymbol .colon then
      let e ← rules.typeExpr
      pure (some e)
    else pure none
  pure (.mk name.lexeme typeExpr variadic)

/-- Parameters behind `count` earlier ones, at most `fuel` of them. -/
def parametersFrom : Nat → Nat → Parser (List Param)
  | 0, _ => pure []
  | fuel + 1, count => do
    if maxArguments ≤ count then fail .tooManyParameters
    else
      let p ← parameter rules
      if ← acceptSymbol .comma then
        let more ← parametersFrom fuel (count + 1)
        pure (p :: more)
      else pure [p]

/-- The parameters of a function behind the opening parenthesis. -/
def parameters : Parser (List Param) := do
  let params ←
    if ← check (.symbol .rightParen) then pure []
    else parametersFrom rules rules.passes 0
  let _ ← symbol .rightParen .afterParameters
  pure params

/-- The classes of the results, if the function gives them. -/
def returnTypes : Parser (List Expr) := do
  if ← acceptSymbol .arrow then
    if ← acceptSymbol .leftParen then
      let types ← items rules.passes rules.typeExpr
      let _ ← symbol .rightParen .afterReturnTypes
      pure types
    else
      let t ← rules.typeExpr
      pure [t]
  else pure []

/-- The rest of a lambda behind `fun`, which stands on line `line`. -/
def lambdaRest (line : UInt32) : Parser Expr := do
  let _ ← symbol .leftParen (.afterWord "fun")
  let params ← parameters rules
  let returns ← returnTypes rules
  let body ←
    if ← acceptSymbol .fatArrow then
      let first ← peek
      let value ← rules.expression
      pure [Statement.mk first.line (.returnValues [value])]
    else
      let _ ← symbol .leftBrace .beforeLambdaBody
      functionBody rules
  pure (.lambda (.mk "<lambda>" params returns body line))

/-- Whether a kind of tokens carries a literal. -/
def isLiteralKind : TokenKind → Bool
  | .keyword .true | .keyword .false | .keyword .nil | .integer | .real | .string => true
  | _ => false

def primary : Parser Expr := fun ts =>
  match ts with
  | [] => fail (.lacking .expression) []
  | t :: rest =>
    if isLiteralKind t.kind then
      match t.literal with
      | some value => .ok (.literal value, rest)
      | none => failAt t (.lacking .literal) rest
    else if t.kind = .identifier then .ok (.var t.lexeme, rest)
    else if t.kind = .symbol .leftParen then parenRest rules rest
    else if t.kind = .symbol .leftBracket then listRest rules rest
    else if t.kind = .keyword .fun then lambdaRest rules t.line rest
    else fail (.lacking .expression) (t :: rest)

def postfixed : Parser Expr := do
  let e ← primary rules
  postfixes rules rules.passes e

/-- A postfix expression, perhaps raised to a power. -/
def power : Parser Expr := do
  let base ← postfixed rules
  if ← acceptSymbol .starStar then
    let exponent ← rules.signed
    pure (.binary .pow base exponent)
  else pure base

def sign? : TokenKind → Option UnaryOp
  | .symbol .minus => some .neg
  | .symbol .plus => some .pos
  | .symbol .tilde => some .invert
  | _ => none

/-- A power behind any number of signs. -/
def signed : Parser Expr
  | [] => power rules []
  | t :: ts =>
    match sign? t.kind with
    | some op =>
      match signed ts with
      | .ok (e, rest) => .ok (.unary op e, rest)
      | .error failure => .error failure
    | none => power rules (t :: ts)

/-- The binary operators of one level. -/
def binaryOn (operators : List BinaryOp) (k : TokenKind) : Option (Expr → Expr → Expr) :=
  match k with
  | .symbol s =>
    match BinaryOp.ofToken? s with
    | some op => if operators.contains op then some (Expr.binary op) else none
    | none => none
  | _ => none

/-- The binary levels that bounds of a range may use, from the loosest to the tightest. -/
def boundLevels : List (List BinaryOp) :=
  [[.bitOr], [.bitXor], [.bitAnd], [.shl, .shr], [.add, .sub], [.mul, .div, .mod]]

/-- All binary levels, from the loosest to the tightest. -/
def binaryLevels : List (List BinaryOp) := [.eq, .ne, .lt, .le, .gt, .ge] :: boundLevels

/-- Operands of the tightest level joined by the operators of the given levels. -/
def binary : List (List BinaryOp) → Parser Expr
  | [] => signed rules
  | operators :: tighter => chained rules.passes (binaryOn operators) (binary tighter)

/-- A comparison behind any number of `not`. -/
def negation : Parser Expr
  | [] => binary rules binaryLevels []
  | t :: ts =>
    if t.kind = .keyword .not then
      match negation ts with
      | .ok (e, rest) => .ok (.not e, rest)
      | .error failure => .error failure
    else binary rules binaryLevels (t :: ts)

/-- The connective `op`, written as the reserved word `word`. -/
def logicalOn (word : Keyword) (op : Connective) (k : TokenKind) : Option (Expr → Expr → Expr) :=
  if k = .keyword word then some (Expr.logical op) else none

def conjunction : Parser Expr := chained rules.passes (logicalOn .and .and) (negation rules)

/-- Conjunctions joined by `or`: any expression. -/
def expression : Parser Expr := chained rules.passes (logicalOn .or .or) (conjunction rules)

/-- A bound of a range, which is no comparison. -/
def rangeBound : Parser Expr := binary rules boundLevels

end Classlet.Grammar
