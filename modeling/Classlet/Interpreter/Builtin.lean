import Classlet.Interpreter.Operation

/-! # Built-in functions and classes

The functions that every program can use, and the values that calls of the built-in classes
make.  A call of a class with one argument converts it. -/

namespace Classlet

open Eval

/-! ### Signatures -/

/-- The arguments that a built-in function takes. -/
structure Signature where
  name : String
  arity : Arity
  /-- The keyword arguments that it understands. -/
  keywords : List String := []

def Signature.check (s : Signature) (count : Nat) (keywords : List String) : Except Cause Unit :=
  if !s.arity.accepts count then .error (.builtinArity s.name s.arity count)
  else
    match keywords.find? fun k => !s.keywords.contains k with
    | some keyword => .error (.unexpectedKeyword s.name keyword)
    | none => .ok ()

namespace Builtin

/-- Every built-in function. -/
def all : List Builtin := [.print, .len, .repr, .type, .isinstance, .assert, .append]

/-- The signature of a built-in function. -/
def signature (f : Builtin) : Signature :=
  match f with
  | .print => ⟨f.name, .atLeast 0, ["sep", "end"]⟩
  | .len | .repr | .type => ⟨f.name, .exactly 1, []⟩
  | .isinstance | .append => ⟨f.name, .exactly 2, []⟩
  | .assert => ⟨f.name, .between 1 2, []⟩

end Builtin

variable (e : Engine)

/-! ### Functions -/

def keyword? (keywords : KeywordValues) (name : String) : Option Value :=
  (keywords.find? fun k => k.1 == name).map (·.2)

/-- A keyword argument that is a text; `nil` stands for an omitted one. -/
def keywordText (keywords : KeywordValues) (name omitted : String) : Eval String :=
  match keyword? keywords name with
  | none | some .nil => pure omitted
  | some (.str s) => pure s
  | some v => failWithType v (.keywordType name)

/-- The texts of values as they are printed. -/
def strAll : List Value → Eval (List String)
  | [] => pure []
  | v :: vs => do
    let s ← strOperation e v
    let more ← strAll vs
    pure (s :: more)

def printValues (arguments : List Value) (keywords : KeywordValues) : Eval Value := do
  let separator ← keywordText keywords "sep" " "
  let ending ← keywordText keywords "end" "\n"
  let parts ← strAll e arguments
  Eval.modify fun s => { s with output := s.output ++ (Text.join separator parts ++ ending) }
  pure .nil

/-- Fail with a message unless a value counts as true. -/
def assertTrue (condition : Value) (text : Option Value) : Eval Value := do
  if ← truthy e condition then pure .nil
  else
    let message ← match text with
      | some v => strOperation e v
      | none => pure "assertion failed"
    fail (.assertion message)

/-- Add a value to the end of a list. -/
def appendTo (target v : Value) : Eval Value :=
  match target with
  | .list l => do
    let w ← copied v
    remember fun m => (Value.nil, m.modifyList l fun vs => vs.push w)
  | _ => failWithType target .appendTarget

/-- Run a built-in function on arguments that fit its signature. -/
def runBuiltin (f : Builtin) (arguments : List Value) (keywords : KeywordValues) : Eval Value :=
  match f, arguments with
  | .print, _ => printValues e arguments keywords
  | .len, [v] => do
    let n ← length e v
    pure (.int n)
  | .repr, [v] => do
    let s ← reprOperation e v
    pure (.str s)
  | .type, [v] => pure (.ofClass v.classRef)
  | .isinstance, [v, .ofClass c] => readMemory fun m => .bool (m.isA v.classRef c)
  | .isinstance, _ => fail .notAClassArgument
  | .assert, [v] => assertTrue e v none
  | .assert, [v, text] => assertTrue e v (some text)
  | .append, [target, v] => appendTo target v
  | _, _ => pure .nil

def callBuiltin (f : Builtin) (arguments : List Value) (keywords : KeywordValues) : Eval Value := do
  ofExcept (f.signature.check arguments.length (keywords.map (·.1)))
  runBuiltin e f arguments keywords

/-! ### Classes -/

/-- The one argument of a conversion, if there is one. -/
def singleArgument (className : String) (arguments : List Value) (keywords : KeywordValues) :
    Except Cause (Option Value) :=
  match keywords with
  | (name, _) :: _ => .error (.unexpectedKeyword className name)
  | [] =>
    match arguments with
    | [] => .ok none
    | [v] => .ok (some v)
    | _ => .error (.atMostOneArgument className arguments.length)

/-- The bound below which a real is converted to an integer. -/
def maxTruncated : Float := 9.2e18

/-- A finite number without its fraction. -/
def truncated (x : Float) : Int :=
  match Binary64.ofFloat x with
  | .finite negative m exponent =>
    let (num, den) := Binary64.scaled m exponent
    if negative then -(num / den : Nat) else (num / den : Nat)
  | _ => 0

def makeInt (v : Value) : Eval Value :=
  match v with
  | .int _ => pure v
  | .bool b => pure (.int (Arithmetic.ofBool b))
  | .real x =>
    if x.isFinite && x.abs < maxTruncated then pure (.int (Int64.ofInt (truncated x)))
    else fail (.notFinite (Numeral.display x))
  | .str s =>
    match Numeral.readInt? (Text.trim s) with
    | some n => pure (.int n)
    | none => fail (.badIntLiteral s)
  | .instance _ => convert e v .int
  | _ => failWithType v .badIntArgument

def makeReal (v : Value) : Eval Value :=
  match v with
  | .real _ => pure v
  | .int n => pure (.real n.toFloat)
  | .bool b => pure (.real (if b then 1.0 else 0.0))
  | .str s =>
    match Numeral.readReal? (Text.trim s) with
    | some x => pure (.real x)
    | none => fail (.badRealLiteral s)
  | _ => failWithType v .badRealArgument

/-- The message that an error class is called with: a keyword argument or the one argument. -/
def errorMessage (className : String) (arguments : List Value) (keywords : KeywordValues) :
    Except Cause (Option Value) :=
  match keyword? keywords "message" with
  | some v =>
    if !arguments.isEmpty then .error (.multipleMessages className)
    else
      match keywords.eraseP fun k => k.1 == "message" with
      | (name, _) :: _ => .error (.unexpectedKeyword className name)
      | [] => .ok (some v)
  | none => singleArgument className arguments keywords

/-- An instance of an error class with its message. -/
def makeError (c : ClassRef) (arguments : List Value) (keywords : KeywordValues) : Eval Value := do
  let text ← ofExcept (errorMessage (← readMemory fun m => m.className c) arguments keywords)
  let message ← match text with
    | none => pure ""
    | some v => strOperation e v
  let i ← remember fun m => m.newInstance c [("message", .str message)]
  pure (.instance i)

/-- The value that a call of a class makes with the construction of its chain. -/
def construct (construction : Construction) (c : ClassRef) (arguments : List Value)
    (keywords : KeywordValues) : Eval Value := do
  match construction with
  | .error => makeError e c arguments keywords
  | _ =>
    let name ← readMemory fun m => m.className c
    let argument ← ofExcept (singleArgument name arguments keywords)
    match construction, argument with
    | .bool, none => pure (.bool false)
    | .bool, some v => do
      let b ← truthy e v
      pure (.bool b)
    | .int, none => pure (.int 0)
    | .int, some v => makeInt e v
    | .real, none => pure (.real 0.0)
    | .real, some v => makeReal v
    | .str, none => pure (.str "")
    | .str, some v => do
      let s ← strOperation e v
      pure (.str s)
    | .list, none => newListOf []
    | .list, some v => do
      let vs ← elementsOf e v
      newListOf vs
    | .tuple, none => pure (.tuple [])
    | .tuple, some v => do
      let vs ← elementsOf e v
      pure (.tuple vs)
    | .error, _ => pure .nil

end Classlet
