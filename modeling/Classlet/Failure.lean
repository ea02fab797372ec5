import Classlet.Value
import Classlet.Path
import Classlet.SyntaxError
import Classlet.Syntax
import Classlet.Text.Join

/-! # Errors of a running program

A run can fail for a reason that the runtime finds (`Cause`), or because the program throws an
instance of an error class.  A cause belongs to one of the error classes of the language,
`Cause.kind`, and has a text, `Cause.message`.

A `RuntimeError` collects the trace of the statements that it passes through, one for each depth
of calls. -/

namespace Classlet

/-- The error classes that the language brings along. -/
inductive ErrorKind where
  | error
  | identifier
  | type
  | value
  | zeroDivision
  | attr
  | assertion
  | index
  | imports
  | syntactic
  | recursion
  deriving Repr, DecidableEq

namespace ErrorKind

/-- Every kind, the base class of all others first. -/
def all : List ErrorKind :=
  [.error, .identifier, .type, .value, .zeroDivision, .attr, .assertion, .index, .imports,
    .syntactic, .recursion]

def name : ErrorKind → String
  | .error => "Error"
  | .identifier => "IdentifierError"
  | .type => "TypeError"
  | .value => "ValueError"
  | .zeroDivision => "ZeroDivisionError"
  | .attr => "AttributeError"
  | .assertion => "AssertionError"
  | .index => "IndexError"
  | .imports => "ImportError"
  | .syntactic => "SyntaxError"
  | .recursion => "RecursionError"

end ErrorKind

/-- The built-in sequences that can be indexed. -/
inductive SequenceKind where
  | str
  | list
  | tuple
  deriving Repr, DecidableEq

def SequenceKind.name : SequenceKind → String
  | .str => "str"
  | .list => "list"
  | .tuple => "tuple"

/-- How many arguments a built-in function takes. -/
inductive Arity where
  | exactly (n : Nat)
  | between (min max : Nat)
  | atLeast (n : Nat)
  deriving Repr, DecidableEq

namespace Arity

/-- Whether a number of arguments is right. -/
def accepts : Arity → Nat → Bool
  | exactly n, count => count == n
  | between min max, count => min ≤ count && count ≤ max
  | atLeast min, count => min ≤ count

def describe : Arity → String
  | exactly 1 => "exactly 1 argument"
  | exactly n => "exactly " ++ Numeral.ofInt n ++ " arguments"
  | between min max => "from " ++ Numeral.ofInt min ++ " to " ++ Numeral.ofInt max ++ " arguments"
  | atLeast min => "at least " ++ Numeral.ofInt min ++ " arguments"

end Arity

/-- Why the runtime refuses to go on.  Type names, values and the like are given as the texts that
the message shows. -/
inductive Cause where
  /-- An error made by a host program. -/
  | stated (kind : ErrorKind) (message : String)
  -- variables
  | reservedName (name : String)
  | undefinedName (name : String)
  | classChange (name : String) (old new : String)
  -- arithmetic and comparison
  | unsupportedOperands (op : BinaryOp) (left right : String)
  | badOperand (op : UnaryOp) (operand : String)
  | overflow
  | divisionByZero
  | shiftCount (n : Int64)
  | fractionalPower
  | repetitionTooLong
  -- conversions
  | conversionResult (conversion : Conversion) (className result : String)
  | noConversion (conversion : Conversion) (typeName : String)
  | noLength (typeName : String)
  | notFinite (number : String)
  | badIntLiteral (text : String)
  | badRealLiteral (text : String)
  | badIntArgument (typeName : String)
  | badRealArgument (typeName : String)
  -- sequences
  | indexType (kind : SequenceKind) (typeName : String)
  | indexRange (kind : SequenceKind)
  | notSubscriptable (typeName : String)
  | sliceBoundType (typeName : String)
  | notSliceable (typeName : String)
  | noItemAssignment (typeName : String)
  | notIterable (typeName : String)
  | unpackCount (need got : Nat)
  -- attributes
  | noAttribute (typeName member : String)
  | noExport (moduleName member : String)
  | classAttribute (member className : String)
  | moduleAttribute (member moduleName : String)
  -- calls
  | notCallable (typeName : String)
  | callDepth (limit : Nat)
  | builtinArity (name : String) (arity : Arity) (given : Nat)
  | atMostOneArgument (name : String) (given : Nat)
  | unexpectedKeyword (name keyword : String)
  | repeatedKeyword (keyword : String)
  | tooManyPositional (name : String) (expected given : Nat)
  | multipleValues (name keyword : String)
  | multipleMessages (className : String)
  | missingArgument (name parameter : String)
  | argumentClass (name parameter expected got : String)
  | resultClass (name expected got : String)
  | resultCount (name : String) (expected : Nat) (got : String)
  | keywordType (keyword typeName : String)
  | noInstances (className : String)
  | takesNoArguments (className : String)
  | notAClassArgument
  | appendTarget (typeName : String)
  | assertion (message : String)
  -- definitions
  | duplicateParameter (parameter function : String)
  | misplacedVariadic (function : String)
  | notAClassAnnotated (typeName : String)
  | baseNotAClass (className typeName : String)
  | builtinBase (className : String)
  | variadicOperator (symbol className : String)
  | receiverClass (symbol className receiver : String)
  | operatorArity (symbol className : String) (expected got : Nat)
  | operatorResult (symbol className : String) (conversion : Conversion)
  | notOverloadable (symbol className : String)
  -- statements
  | rangeBoundType (typeName : String)
  | notThrowable
  | catchNonError (className : String)
  | catchNonClass (typeName : String)
  | sliceAssignment
  | notAssignable (printed : String)
  -- modules
  | cyclicImport (path : Path)
  | cannotImport (path : Path) (reason : String)
  | badSource (path : Path) (errors : List SyntaxError)
  | exportsType (typeName : String)
  | exportEntryType (typeName : String)
  | undefinedExport (name : String)

def Conversion.resultClass : Conversion → String
  | .len | .int => "int"
  | .bool => "bool"
  | .str | .repr => "str"

namespace Cause

/-- The error class of a cause. -/
def kind : Cause → ErrorKind
  | stated kind _ => kind
  | undefinedName _ => .identifier
  | overflow | shiftCount _ | fractionalPower | repetitionTooLong | notFinite _ | badIntLiteral _
  | badRealLiteral _ | unpackCount .. => .value
  | divisionByZero => .zeroDivision
  | indexRange _ => .index
  | noAttribute .. | noExport .. => .attr
  | assertion _ => .assertion
  | callDepth _ => .recursion
  | duplicateParameter .. | misplacedVariadic _ | notAssignable _ | badSource .. | reservedName _ =>
    .syntactic
  | cyclicImport _ | cannotImport .. | undefinedExport _ => .imports
  | _ => .type

def message : Cause → String
  | stated _ text => text
  | reservedName name => "cannot bind keyword '" ++ name ++ "'"
  | undefinedName name => "name '" ++ name ++ "' is not defined"
  | classChange name old new => "cannot assign " ++ new ++ " to '" ++ name ++ "' of type " ++ old
  | unsupportedOperands op left right =>
    "unsupported operand type(s) for " ++ op.symbol ++ ": '" ++ left ++ "' and '" ++ right ++ "'"
  | badOperand op operand => "bad operand type for unary " ++ op.symbol ++ ": '" ++ operand ++ "'"
  | overflow => "integer overflow"
  | divisionByZero => "division by zero"
  | shiftCount n => "shift count out of range: " ++ Numeral.ofInt n.toInt
  | fractionalPower => "negative number cannot be raised to a fractional power"
  | repetitionTooLong => "repeated sequence is too long"
  | conversionResult conversion className result =>
    "operator " ++ conversion.word ++ " of '" ++ className ++ "' returned '" ++ result ++
      "', expected '" ++ conversion.resultClass ++ "'"
  | noConversion conversion typeName =>
    "'" ++ typeName ++ "' does not define operator " ++ conversion.word
  | noLength typeName => "object of type '" ++ typeName ++ "' has no len()"
  | notFinite number => "cannot convert " ++ number ++ " to int"
  | badIntLiteral text => "invalid literal for int(): " ++ Text.quote text
  | badRealLiteral text => "could not convert string to real: " ++ Text.quote text
  | badIntArgument typeName => "int() argument must be a str or a number, not '" ++ typeName ++ "'"
  | badRealArgument typeName =>
    "real() argument must be a str or a number, not '" ++ typeName ++ "'"
  | indexType kind typeName => kind.name ++ " indices must be int, not " ++ typeName
  | indexRange kind => kind.name ++ " index out of range"
  | notSubscriptable typeName => "'" ++ typeName ++ "' object is not subscriptable"
  | sliceBoundType typeName => "slice indices must be int or nil, not " ++ typeName
  | notSliceable typeName => "'" ++ typeName ++ "' object is not sliceable"
  | noItemAssignment typeName => "'" ++ typeName ++ "' object does not support item assignment"
  | notIterable typeName => "'" ++ typeName ++ "' object is not iterable"
  | unpackCount need got =>
    "too " ++ (if got < need then "few" else "many") ++ " values to unpack (need " ++
      Numeral.ofInt need ++ ", got " ++ Numeral.ofInt got ++ ")"
  | noAttribute typeName member => "'" ++ typeName ++ "' has no attribute '" ++ member ++ "'"
  | noExport moduleName member =>
    "module '" ++ moduleName ++ "' has no attribute '" ++ member ++ "'"
  | classAttribute member className =>
    "cannot set attribute '" ++ member ++ "' of class '" ++ className ++ "'"
  | moduleAttribute member moduleName =>
    "cannot set attribute '" ++ member ++ "' of module '" ++ moduleName ++ "'"
  | notCallable typeName => "'" ++ typeName ++ "' object is not callable"
  | callDepth limit => "maximum call depth of " ++ Numeral.ofInt limit ++ " exceeded"
  | builtinArity name arity given =>
    name ++ "() takes " ++ arity.describe ++ " (" ++ Numeral.ofInt given ++ " given)"
  | atMostOneArgument name given =>
    name ++ "() takes at most 1 argument (" ++ Numeral.ofInt given ++ " given)"
  | unexpectedKeyword name keyword =>
    name ++ "() got an unexpected keyword argument '" ++ keyword ++ "'"
  | repeatedKeyword keyword => "keyword argument repeated: '" ++ keyword ++ "'"
  | tooManyPositional name expected given =>
    name ++ "() takes " ++ Numeral.ofInt expected ++ " positional arguments but " ++
      Numeral.ofInt given ++ " were given"
  | multipleValues name keyword =>
    name ++ "() got multiple values for argument '" ++ keyword ++ "'"
  | multipleMessages className => className ++ "() got multiple values for 'message'"
  | missingArgument name parameter =>
    name ++ "() missing required argument '" ++ parameter ++ "'"
  | argumentClass name parameter expected got =>
    name ++ "() argument '" ++ parameter ++ "' must be " ++ expected ++ ", not " ++ got
  | resultClass name expected got => name ++ "() must return " ++ expected ++ ", not " ++ got
  | resultCount name expected got =>
    name ++ "() must return " ++ Numeral.ofInt expected ++ " values, not " ++ got
  | keywordType keyword typeName => keyword ++ " must be str, not " ++ typeName
  | noInstances className => "cannot create '" ++ className ++ "' instances"
  | takesNoArguments className => className ++ "() takes no arguments"
  | notAClassArgument => "isinstance() arg 2 must be a class"
  | appendTarget typeName => "append() arg 1 must be list, not " ++ typeName
  | assertion text => text
  | duplicateParameter parameter function =>
    "duplicate parameter '" ++ parameter ++ "' in '" ++ function ++ "'"
  | misplacedVariadic function =>
    "only the last parameter of '" ++ function ++ "' may be variadic"
  | notAClassAnnotated typeName => "type annotation must be a class, not " ++ typeName
  | baseNotAClass className typeName =>
    "base of '" ++ className ++ "' must be a class, not " ++ typeName
  | builtinBase className => "cannot derive from built-in class '" ++ className ++ "'"
  | variadicOperator symbol className =>
    "operator " ++ symbol ++ " of '" ++ className ++ "': operators cannot be variadic"
  | receiverClass symbol className receiver =>
    "operator " ++ symbol ++ " of '" ++ className ++ "': receiver '" ++ receiver ++
      "' must be annotated with '" ++ className ++ "'"
  | operatorArity symbol className expected got =>
    "operator " ++ symbol ++ " of '" ++ className ++ "' takes exactly " ++ Numeral.ofInt expected ++
      " parameters, got " ++ Numeral.ofInt got
  | operatorResult symbol className conversion =>
    "operator " ++ symbol ++ " of '" ++ className ++ "': must return " ++ conversion.resultClass
  | notOverloadable symbol className =>
    "operator " ++ symbol ++ " of '" ++ className ++ "': not an overloadable operator"
  | rangeBoundType typeName => "range bounds must be int, not " ++ typeName
  | notThrowable => "thrown values must derive from the Error class"
  | catchNonError className => "cannot catch '" ++ className ++ "': it does not derive from Error"
  | catchNonClass typeName => "catch type must be a class, not " ++ typeName
  | sliceAssignment => "slice assignment is not supported"
  | notAssignable printed => "cannot assign to " ++ printed
  | cyclicImport path => "cyclic import of '" ++ path.text ++ "'"
  | cannotImport path reason => "cannot import '" ++ path.text ++ "': " ++ reason
  | badSource path errors =>
    "in '" ++ path.text ++ "': " ++
      Text.join "; "
        (errors.map fun e => "line " ++ Numeral.ofInt e.line.toNat ++ ": " ++ e.message)
  | exportsType typeName => "exports must be a list of str, not " ++ typeName
  | exportEntryType typeName => "exports must be a list of str, found " ++ typeName
  | undefinedExport name => "cannot export undefined name '" ++ name ++ "'"

end Cause

/-- What was raised. -/
inductive Raised where
  /-- By the runtime. -/
  | cause (cause : Cause)
  /-- By the program, with an instance of an error class. -/
  | thrown (ref : InstanceRef)

/-- One entry of a stack trace. -/
structure TraceFrame where
  file : String
  line : UInt32
  source : String
  scope : String
  deriving Repr, DecidableEq

def TraceFrame.describe (f : TraceFrame) : String :=
  "  File \"" ++ f.file ++ "\", line " ++ Numeral.ofInt f.line.toNat ++ ", in " ++ f.scope ++
    "\n    " ++
    f.source

/-- An error on its way out of a program. -/
structure RuntimeError where
  raised : Raised
  /-- The statements the error passed through, innermost first. -/
  trace : List TraceFrame := []
  /-- The depth of calls at which the last of them was recorded. -/
  recordedDepth : Option Nat := none

namespace RuntimeError

def ofCause (c : Cause) : RuntimeError := { raised := .cause c }

def thrown (ref : InstanceRef) : RuntimeError := { raised := .thrown ref }

/-- Record a statement that the error passes through, once for each depth of calls. -/
def record (e : RuntimeError) (depth : Nat) (frame : TraceFrame) : RuntimeError :=
  if e.recordedDepth = some depth then e
  else { e with trace := e.trace ++ [frame], recordedDepth := some depth }

end RuntimeError

end Classlet
