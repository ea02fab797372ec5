import Classlet.Grammar.Expression
import Classlet.Syntax.Print
import Classlet.Token.Scan

/-! # The grammar of statements, and whole texts

`Grammar.declaration` reads a statement, a function, a class or an import.  `return` is refused
outside of functions and `break` outside of loops of the same function.

`Grammar.rulesAt` ties the knot of the mutually recursive rules for texts of bounded nesting;
since every reference of a rule back to the rules comes behind a token of its own, the number of
tokens is deep enough for a text.

`parse` reads a whole text.  After an error it skips to the next statement boundary and goes on,
so that the errors of all statements are reported. -/

namespace Classlet

namespace Grammar

open Classlet.Parser

variable (rules : Rules)

/-! ### Declarations -/

/-- The rest of a function behind its name. -/
def functionRest (name : String) (line : UInt32) : Parser FunctionDecl := do
  let _ ← symbol .leftParen (.afterWord name)
  let params ← parameters rules
  let returns ← returnTypes rules
  let _ ← symbol .leftBrace (.beforeBodyOf name)
  let body ← functionBody rules
  pure (.mk name params returns body line)

def function : Parser FunctionDecl := do
  let name ← identifier .functionName
  functionRest rules name.lexeme name.line

/-- The name of the operator that a class defines, behind the reserved word. -/
def operatorName (keyword : Token) : Parser String := fun ts =>
  match ts with
  | [] => failAt keyword (.lacking .overloadable) []
  | t :: rest =>
    match t.kind with
    | .endOfInput => failAt keyword (.lacking .overloadable) (t :: rest)
    | .symbol .leftBracket =>
      (do
        let _ ← symbol .rightBracket (.afterWord "[")
        if ← acceptSymbol .equal then pure "[]=" else pure "[]") rest
    | .symbol .tilde => .ok ("~", rest)
    | .symbol s =>
      match BinaryOp.ofToken? s with
      | some op => .ok (op.symbol, rest)
      | none => failAt t (.lacking .overloadable) rest
    | .identifier =>
      if (Conversion.ofWord? t.lexeme).isSome then .ok (t.lexeme, rest)
      else failAt t (.lacking .overloadable) rest
    | _ => failAt t (.lacking .overloadable) rest

def classMember : Parser ClassMember := do
  if ← acceptKeyword .fun then
    let decl ← function rules
    pure (.method decl)
  else
    match ← accept (.keyword .operator) with
    | some keyword =>
      let name ← operatorName keyword
      let decl ← functionRest rules name keyword.line
      pure (.operator decl)
    | none =>
      let name ← identifier .member
      let _ ← symbol .equal .afterAttributeName
      let value ← rules.expression
      let _ ← symbol .semicolon .afterAttribute
      pure (.attr name.lexeme value)

/-- Members up to the closing brace, at most `fuel` of them. -/
def classMembers : Nat → Parser (List ClassMember)
  | 0 => pure []
  | fuel + 1 => do
    if ← check (.symbol .rightBrace) then pure []
    else if ← atEnd then pure []
    else
      let m ← classMember rules
      let more ← classMembers fuel
      pure (m :: more)

/-- The rest of a class or a struct behind its reserved word. -/
def classRest (keyword : Token) (isStruct : Bool) : Parser Statement := do
  let name ← identifier .className
  let base ←
    if ← acceptSymbol .leftParen then
      let e ← rules.expression
      let _ ← symbol .rightParen .afterBaseClass
      pure (some e)
    else pure none
  let _ ← symbol .leftBrace .beforeClassBody
  let members ← classMembers rules rules.passes
  let _ ← symbol .rightBrace .afterClassBody
  pure (.mk keyword.line (.classDecl name.lexeme base members isStruct))

/-- The dotted names behind the first one of a standard import, at most `fuel` of them. -/
def moduleParts : Nat → Parser (List String)
  | 0 => pure []
  | fuel + 1 => do
    if ← acceptSymbol .dot then
      let part ← identifier .moduleName
      let more ← moduleParts fuel
      pure (part.lexeme :: more)
    else pure []

/-- The dotted names of a standard import. -/
def standardPath : Parser ImportPath := do
  let first ← identifier .modulePath
  let more ← moduleParts rules.passes
  pure (.standard (first.lexeme :: more))

def importPath : Parser ImportPath
  | [] => standardPath rules []
  | t :: rest =>
    if t.kind = .string then
      match t.literal with
      | some (.str path) => .ok (.relative path, rest)
      | _ => failAt t (.lacking .importPath) rest
    else standardPath rules (t :: rest)

/-- The rest of an import behind its reserved word. -/
def importRest (keyword : Token) : Parser Statement := do
  let path ← importPath rules
  let newName ←
    if ← acceptKeyword .as then
      let name ← identifier .aliasName
      pure (some name.lexeme)
    else pure none
  let _ ← symbol .semicolon .afterImport
  pure (.mk keyword.line (.importModule path newName))

/-! ### Statements -/

/-- The `elif` branches of a conditional, at most `fuel` of them. -/
def elifBranches (surroundings : Surroundings) : Nat → Parser (List Branch)
  | 0 => pure []
  | fuel + 1 => do
    if ← acceptKeyword .elif then
      let condition ← rules.expression
      let _ ← symbol .leftBrace .afterElifCondition
      let body ← block rules surroundings
      let more ← elifBranches surroundings fuel
      pure (.mk condition body :: more)
    else pure []

/-- The rest of a conditional behind `if`. -/
def ifRest (surroundings : Surroundings) (line : UInt32) : Parser Statement := do
  let condition ← rules.expression
  let _ ← symbol .leftBrace .afterIfCondition
  let body ← block rules surroundings
  let more ← elifBranches rules surroundings rules.passes
  let otherwise ←
    if ← acceptKeyword .else then
      let _ ← symbol .leftBrace (.afterWord "else")
      let statements ← block rules surroundings
      pure (some statements)
    else pure none
  pure (.mk line (.ifElse (.mk condition body :: more) otherwise))

def loopBody (surroundings : Surroundings) : Parser (List Statement) := do
  let _ ← symbol .leftBrace .beforeLoopBody
  block rules { surroundings with inLoop := true }

def whileRest (surroundings : Surroundings) (line : UInt32) : Parser Statement := do
  let condition ← rules.expression
  let body ← loopBody rules surroundings
  pure (.mk line (.whileDo condition body))

/-- The rest of a loop over a range. -/
def forRest (surroundings : Surroundings) (line : UInt32) : Parser Statement := do
  let name ← identifier .loopVariable
  let _ ← expect (.keyword .in) .missingIn
  let start ← rangeBound rules
  let _ ← symbol .dotDot .inRange
  let stop ← rangeBound rules
  let body ← loopBody rules surroundings
  pure (.mk line (.forRange name.lexeme start stop body))

/-- The handlers of a `try` block, at most `fuel` of them. -/
def catchClauses (surroundings : Surroundings) : Nat → Parser (List CatchClause)
  | 0 => pure []
  | fuel + 1 => do
    match ← accept (.keyword .catch) with
    | some keyword =>
      let _ ← symbol .leftParen (.afterWord "catch")
      let name ← identifier .errorVariable
      let _ ← symbol .colon .afterErrorVariable
      let errorType ← rules.expression
      let _ ← symbol .rightParen .afterErrorType
      let _ ← symbol .leftBrace .beforeCatchBody
      let body ← block rules surroundings
      let more ← catchClauses surroundings fuel
      pure (.mk name.lexeme errorType body keyword.line :: more)
    | none => pure []

def tryRest (surroundings : Surroundings) (line : UInt32) : Parser Statement := do
  let _ ← symbol .leftBrace (.afterWord "try")
  let body ← block rules surroundings
  let clauses ← catchClauses rules surroundings rules.passes
  if clauses.isEmpty then fail .tryWithoutCatch
  else pure (.mk line (.block body clauses))

def returnRest (surroundings : Surroundings) (keyword : Token) : Parser Statement := do
  if !surroundings.inFunction then failAt keyword .returnAtTopLevel
  else
    let values ←
      if ← check (.symbol .semicolon) then pure [] else items rules.passes rules.expression
    let _ ← symbol .semicolon .afterReturnValue
    pure (.mk keyword.line (.returnValues values))

def breakRest (surroundings : Surroundings) (keyword : Token) : Parser Statement := do
  if !surroundings.inLoop then failAt keyword .breakOutsideLoop
  else
    let _ ← symbol .semicolon (.afterWord "break")
    pure (.mk keyword.line .breakLoop)

def throwRest (line : UInt32) : Parser Statement := do
  let value ← rules.expression
  let _ ← symbol .semicolon .afterThrownValue
  pure (.mk line (.throwValue value))

/-- One expression, or the tuple of several. -/
def tupleOrSingle : List Expr → Expr
  | [e] => e
  | es => .tuple es

/-- An assignment or an expression that stands alone. -/
def expressionStatement : Parser Statement := do
  let first ← peek
  let exprs ← items rules.passes (expression rules)
  match ← accept (.symbol .equal) with
  | some equal =>
    match exprs.find? fun e => !e.isAssignable with
    | some target => failAt equal (.invalidTarget target.print)
    | none =>
      let values ← items rules.passes (expression rules)
      let _ ← symbol .semicolon .afterAssignment
      pure (.mk first.line (.assign exprs values))
  | none =>
    let _ ← symbol .semicolon .afterExpression
    pure (.mk first.line (.expression (tupleOrSingle exprs)))

/-- The rest of the statement or declaration that the reserved word `k` begins, if it begins one. -/
def keywordRest? (surroundings : Surroundings) (k : Keyword) (t : Token) :
    Option (Parser Statement) :=
  match k with
  | .classDef => some (classRest rules t false)
  | .struct => some (classRest rules t true)
  | .import => some (importRest rules t)
  | .if => some (ifRest rules surroundings t.line)
  | .while => some (whileRest rules surroundings t.line)
  | .for => some (forRest rules surroundings t.line)
  | .loop => some do
    let body ← loopBody rules surroundings
    pure (.mk t.line (.loop body))
  | .try => some (tryRest rules surroundings t.line)
  | .return => some (returnRest rules surroundings t)
  | .break => some (breakRest surroundings t)
  | .throw => some (throwRest rules t.line)
  | _ => none

/-- A function behind `fun`, as a statement. -/
def functionStatement : Parser Statement := do
  let decl ← function rules
  pure (.mk decl.line (.function decl))

/-- A statement or a declaration.  `fun` begins a declaration only before a name. -/
def declaration (surroundings : Surroundings) : Parser Statement := fun ts =>
  match ts with
  | [] => expressionStatement rules []
  | t :: rest =>
    match t.kind with
    | .symbol .leftBrace =>
      (do
        let body ← block rules surroundings
        pure (Statement.mk t.line (.block body []))) rest
    | .keyword .fun =>
      if (current rest).kind = .identifier then functionStatement rules rest
      else expressionStatement rules (t :: rest)
    | .keyword k =>
      match keywordRest? rules surroundings k t with
      | some parser => parser rest
      | none => expressionStatement rules (t :: rest)
    | _ => expressionStatement rules (t :: rest)

/-! ### Whole texts -/

/-- Rules that accept nothing. -/
def exhausted (passes : Nat) : Rules where
  passes := passes
  expression := fail (.lacking .expression)
  signed := fail (.lacking .expression)
  typeExpr := fail (.lacking .expression)
  declaration _ := fail (.lacking .expression)

/-- The rules for texts that nest at most `n` deep and repeat a rule at most `passes` times. -/
def rulesAt (passes : Nat) : Nat → Rules
  | 0 => exhausted passes
  | n + 1 =>
    let inner := rulesAt passes n
    { passes := passes
      expression := expression inner
      signed := signed inner
      typeExpr := postfixed inner
      declaration := declaration inner }

/-- The reserved words that begin a statement after a syntax error. -/
def resumesAt : TokenKind → Bool
  | .keyword .classDef | .keyword .struct | .keyword .fun | .keyword .for | .keyword .if
  | .keyword .while | .keyword .loop | .keyword .try | .keyword .import | .keyword .return => true
  | _ => false

/-- Skip tokens behind `previous` up to a statement boundary: behind a semicolon, or before a
reserved word that begins a statement, or at the end. -/
def skipToBoundary (previous : Token) : List Token → List Token
  | [] => []
  | t :: ts =>
    if t.kind = .endOfInput || previous.kind = .symbol .semicolon || resumesAt t.kind then t :: ts
    else skipToBoundary t ts

/-- The tokens at which reading goes on after a syntax error; at least one token is skipped. -/
def synchronize : List Token → List Token
  | [] => []
  | t :: ts => if t.kind = .endOfInput then t :: ts else skipToBoundary t ts

/-- The statements of a whole text and its syntax errors, reading at most `fuel` statements. -/
def program (declaration : Parser Statement) : Nat → List Token → List Statement × List SyntaxError
  | 0, _ => ([], [])
  | fuel + 1, ts =>
    if (current ts).kind = .endOfInput then ([], [])
    else
      match declaration ts with
      | .ok (s, rest) =>
        let (statements, errors) := program declaration fuel rest
        (s :: statements, errors)
      | .error failure =>
        let (statements, errors) := program declaration fuel (synchronize failure.rest)
        (statements, failure.error :: errors)

/-- Read the statements of a list of tokens. -/
def parseTokens (ts : List Token) : Except (List SyntaxError) (List Statement) :=
  let size := ts.length + 1
  let rules := rulesAt size size
  let (statements, errors) := program (rules.declaration ⟨false, false⟩) size ts
  if errors.isEmpty then .ok statements else .error errors

end Grammar

/-- Read a source text: its statements, or all its syntax errors. -/
def parse (source : String) : Except (List SyntaxError) (List Statement) :=
  match Token.scan source with
  | .ok tokens => Grammar.parseTokens tokens
  | .error errors => .error errors

end Classlet
