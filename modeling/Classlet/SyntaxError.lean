import Classlet.Token

/-! # Syntax errors

A text is refused with a list of syntax errors, each with its line.  A scanning fault is a run of
characters that is no token; a parsing fault is a token that does not fit, and names the token.  The
causes are data, and `SyntaxError.message` words them. -/

namespace Classlet

/-- Why characters do not form a token. -/
inductive ScanFault where
  /-- A `!` without `=`. -/
  | loneBang
  | unexpected (c : Char)
  /-- A backslash in a string before a character that is no escape. -/
  | unknownEscape (c : Char)
  | unterminatedString
  | integerTooLarge (digits : String)
  deriving Repr, DecidableEq

/-- The wording of a scanning fault. -/
def ScanFault.message : ScanFault → String
  | loneBang => "Unexpected character '!', use 'not'."
  | unexpected c => "Unexpected character '" ++ c.toString ++ "'."
  | unknownEscape c => "Unknown escape sequence '\\" ++ c.toString ++ "'."
  | unterminatedString => "Unterminated string."
  | integerTooLarge ds => "Integer literal '" ++ ds ++ "' is too large."

/-- Where a symbol is missing. -/
inductive Place where
  | afterWord (word : String)
  | beforeBodyOf (name : String)
  | afterParameters
  | afterReturnTypes
  | afterBaseClass
  | beforeClassBody
  | afterAttributeName
  | afterAttribute
  | afterClassBody
  | afterImport
  | afterThrownValue
  | afterIfCondition
  | afterElifCondition
  | inRange
  | beforeLoopBody
  | afterErrorVariable
  | afterErrorType
  | beforeCatchBody
  | afterReturnValue
  | afterBlock
  | afterAssignment
  | afterExpression
  | afterArguments
  | afterSlice
  | afterIndex
  | afterTuple
  | afterList
  | beforeLambdaBody
  deriving Repr, DecidableEq

def Place.text : Place → String
  | afterWord word => "after '" ++ word ++ "'"
  | beforeBodyOf name => "before '" ++ name ++ "' body"
  | afterParameters => "after parameters"
  | afterReturnTypes => "after return types"
  | afterBaseClass => "after base class"
  | beforeClassBody => "before class body"
  | afterAttributeName => "after class attribute name"
  | afterAttribute => "after class attribute"
  | afterClassBody => "after class body"
  | afterImport => "after import"
  | afterThrownValue => "after thrown value"
  | afterIfCondition => "after if condition"
  | afterElifCondition => "after elif condition"
  | inRange => "in range"
  | beforeLoopBody => "before loop body"
  | afterErrorVariable => "after error variable"
  | afterErrorType => "after error type"
  | beforeCatchBody => "before catch body"
  | afterReturnValue => "after return value"
  | afterBlock => "after block"
  | afterAssignment => "after assignment"
  | afterExpression => "after expression"
  | afterArguments => "after arguments"
  | afterSlice => "after slice"
  | afterIndex => "after index"
  | afterTuple => "after tuple"
  | afterList => "after list"
  | beforeLambdaBody => "before lambda body"

/-- What a text lacks where a token does not fit. -/
inductive Lacking where
  | functionName
  | className
  | parameterName
  | member
  | overloadable
  | modulePath
  | moduleName
  | aliasName
  | loopVariable
  | errorVariable
  | attributeName
  | expression
  /-- A literal token without a value. -/
  | literal
  /-- A string token without a text. -/
  | importPath
  deriving Repr, DecidableEq

def Lacking.text : Lacking → String
  | functionName => "function name"
  | className => "class name"
  | parameterName => "parameter name"
  | member => "method or attribute"
  | overloadable => "an overloadable operator"
  | modulePath => "module path"
  | moduleName => "module name"
  | aliasName => "name after 'as'"
  | loopVariable => "loop variable"
  | errorVariable => "error variable name"
  | attributeName => "attribute name after '.'"
  | expression => "expression"
  | literal => "literal value"
  | importPath => "import path"

/-- Why a token does not fit. -/
inductive ParseFault where
  | missing (symbol : Symbol) (place : Place)
  /-- A loop variable without `in`. -/
  | missingIn
  | lacking (what : Lacking)
  | tooManyParameters
  | tooManyArguments
  | repeatedKeyword (name : String)
  | positionalAfterKeyword
  | tryWithoutCatch
  | returnAtTopLevel
  | breakOutsideLoop
  /-- A left side of `=` that names no place; the text is the printed expression. -/
  | invalidTarget (printed : String)
  deriving Repr, DecidableEq

def ParseFault.message : ParseFault → String
  | missing symbol place => "Expect '" ++ symbol.text ++ "' " ++ place.text ++ "."
  | missingIn => "Expect 'in' after loop variable."
  | lacking what => "Expect " ++ what.text ++ "."
  | tooManyParameters => "Can't have more than 255 parameters."
  | tooManyArguments => "Can't have more than 255 arguments."
  | repeatedKeyword name => "Keyword argument '" ++ name ++ "' repeated."
  | positionalAfterKeyword => "Positional argument follows keyword argument."
  | tryWithoutCatch => "Expect at least one 'catch' after 'try' block."
  | returnAtTopLevel => "Can't return from top-level code."
  | breakOutsideLoop => "Can't use 'break' outside of a loop."
  | invalidTarget printed => "Invalid assignment target '" ++ printed ++ "'."

/-- The cause of a syntax error. -/
inductive SyntaxFault where
  | scanning (fault : ScanFault)
  /-- A fault at the token with this lexeme, or at the end of the text. -/
  | parsing (lexeme : Option String) (fault : ParseFault)
  deriving Repr, DecidableEq

/-- An error in a source text. -/
structure SyntaxError where
  line : UInt32
  fault : SyntaxFault
  deriving Repr, DecidableEq

namespace SyntaxError

/-- The wording of a syntax error, without its line. -/
def message (e : SyntaxError) : String :=
  match e.fault with
  | .scanning fault => fault.message
  | .parsing none fault => "at end: " ++ fault.message
  | .parsing (some lexeme) fault => "at '" ++ lexeme ++ "': " ++ fault.message

/-- The full text of a syntax error. -/
def describe (e : SyntaxError) : String :=
  "[line " ++ Numeral.ofInt e.line.toNat ++ "] SyntaxError: " ++ e.message

/-- A parsing fault at a token. -/
def near (t : Token) (fault : ParseFault) : SyntaxError :=
  ⟨t.line, .parsing (if t.kind = .endOfInput then none else some t.lexeme) fault⟩

end SyntaxError

end Classlet
