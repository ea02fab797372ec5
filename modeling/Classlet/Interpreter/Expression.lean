import Classlet.Interpreter.Operation

/-! # Expressions

`Engine.evalExpr` evaluates an expression: operands from left to right, a callee before its
arguments.  Elements of list and tuple displays are bound, so struct values are copied into them.

A lambda, like a function statement, makes a function: the class expressions of its parameters
and results are evaluated where it is defined, and it captures the scopes it sees there. -/

namespace Classlet

open Eval

def Literal.value : Literal → Value
  | nil => .nil
  | bool b => .bool b
  | int n => .int n
  | real x => .real x
  | str s => .str s

/-! ### Attributes -/

/-- The attribute of a value: fields first, then the class chain.  A function found on the class is
bound to the instance. -/
def getAttribute (object : Value) (name : String) : Eval Value :=
  match object with
  | .instance i => do
    match ← readMemory fun m => m.field? i name with
    | some v => pure v
    | none =>
      match ← classAttribute? i name with
      | some (.function f) => bound i (.function f)
      | some (.builtin f) => bound i (.builtin f)
      | some v => pure v
      | none => failWithType object fun typeName => .noAttribute typeName name
  | .ofClass c => do
    if name = "name" then readMemory fun m => .str (m.className c)
    else
      match ← readMemory fun m => m.findAttribute? c name with
      | some v => pure v
      | none => fail (.noAttribute (← readMemory fun m => m.className c) name)
  | .module r => do
    match ← readMemory fun m => (m.moduleInfo r).exports.get? name with
    | some v => pure v
    | none => fail (.noExport (← readMemory fun m => (m.moduleInfo r).name) name)
  | _ => failWithType object fun typeName => .noAttribute typeName name
where
  /-- A function bound to an instance. -/
  bound (i : InstanceRef) (method : Callable) : Eval Value := do
    let r ← remember fun m => m.newMethod ⟨.instance i, method⟩
    pure (.method r)

/-- Set an attribute, which only instances allow. -/
def setAttribute (object : Value) (name : String) (v : Value) : Eval Unit :=
  match object with
  | .instance i => remember fun m => ((), m.bindField i name v)
  | .ofClass c => do fail (.classAttribute name (← readMemory fun m => m.className c))
  | .module r => do fail (.moduleAttribute name (← readMemory fun m => (m.moduleInfo r).name))
  | _ => failWithType object fun typeName => .noAttribute typeName name

/-! ### Functions -/

/-- Check the names of parameters behind those in `seen`: no name comes twice, and only the last
parameter is variadic. -/
def checkParams (function : String) (seen : List String) : List Param → Except Cause Unit
  | [] => .ok ()
  | p :: more =>
    if seen.contains p.name then .error (.duplicateParameter p.name function)
    else if p.variadic && !more.isEmpty then .error (.misplacedVariadic function)
    else checkParams function (p.name :: seen) more

/-- The type that the value of a class expression stands for. -/
def typeOfValue (v : Value) : Eval TypeSpec :=
  match v with
  | .ofClass c => pure (if c = .nil then .any else .ofClass c)
  | _ => failWithType v .notAClassAnnotated

/-- In the body of a class its own name stands for the class to come. -/
def ownerType? (owner : Option String) (x : Expr) : Option TypeSpec :=
  match x with
  | .var name => if owner = some name then some (.owner name) else none
  | _ => none

/-- A function behind a new context: the scopes of the running code, frozen. -/
def freezeFunction (decl : FunctionDecl) (params : List ParamSpec) (returns : List TypeSpec) :
    Eval FunctionRef := fun s =>
  let (closure, scopes) := s.scopes.freeze s.activation.context
  let returns := if returns.isEmpty then [.any] else returns
  let unit := s.activation.unit
  remember (fun m => m.newFunction ⟨decl, params, returns, closure, unit, none⟩)
    { s with scopes := scopes }

/-- A function that captures the scopes of the running code. -/
def captureFunction (decl : FunctionDecl) (params : List ParamSpec) (returns : List TypeSpec) :
    Eval FunctionRef := do
  reclaim
  freezeFunction decl params returns

variable (e : Engine)

mutual

def Engine.evalExpr : Expr → Eval Value
  | .literal l => pure l.value
  | .var name => fun s =>
    match s.toStore.lookup s.activation.context name with
    | .ok v => (.ok v, s)
    | .error c => fail c s
  | .tuple elements => do
    let vs ← evalElements elements
    pure (.tuple vs)
  | .list elements => do
    let vs ← evalElements elements
    newListOf vs
  | .unary op operand => do
    let v ← Engine.evalExpr operand
    unaryOperation e op v
  | .not operand => do
    let v ← Engine.evalExpr operand
    let b ← truthy e v
    pure (.bool (!b))
  | .binary op left right => do
    let v ← Engine.evalExpr left
    let w ← Engine.evalExpr right
    binaryOperation e op v w
  | .logical op left right => do
    let v ← Engine.evalExpr left
    let b ← truthy e v
    if b == (op == .or) then pure v else Engine.evalExpr right
  | .call callee arguments keywords => do
    let f ← Engine.evalExpr callee
    let vs ← evalAll arguments
    let ks ← evalKeywords [] keywords
    e.call f false vs ks
  | .attr object name => do
    let v ← Engine.evalExpr object
    getAttribute v name
  | .index object index => do
    let v ← Engine.evalExpr object
    let i ← Engine.evalExpr index
    indexOperation e v i
  | .slice object start stop => do
    let v ← Engine.evalExpr object
    let i ← evalBound start
    let j ← evalBound stop
    sliceOperation v i j
  | .lambda decl => do
    let f ← Engine.makeFunction decl none
    pure (.function f)
termination_by structural x => x

def evalAll : List Expr → Eval (List Value)
  | [] => pure []
  | x :: more => do
    let v ← Engine.evalExpr x
    let vs ← evalAll more
    pure (v :: vs)
termination_by structural xs => xs

/-- Evaluate the elements of a list or tuple display. -/
def evalElements : List Expr → Eval (List Value)
  | [] => pure []
  | x :: more => do
    let v ← copied (← Engine.evalExpr x)
    let vs ← evalElements more
    pure (v :: vs)
termination_by structural xs => xs

/-- Evaluate keyword arguments behind those already evaluated; no keyword comes twice. -/
def evalKeywords (seen : KeywordValues) : List KeywordArg → Eval KeywordValues
  | [] => pure seen
  | .mk name x :: more => do
    if seen.any fun k => k.1 == name then fail (.repeatedKeyword name)
    else
      let v ← Engine.evalExpr x
      evalKeywords (seen ++ [(name, v)]) more
termination_by structural ks => ks

/-- Evaluate a bound of a slice; an omitted one is `nil`. -/
def evalBound : Option Expr → Eval Value
  | none => pure .nil
  | some x => Engine.evalExpr x
termination_by structural bound => bound

/-- The types that class expressions stand for. -/
def resolveTypes (owner : Option String) : List Expr → Eval (List TypeSpec)
  | [] => pure []
  | x :: more => do
    let t ← match ownerType? owner x with
      | some t => pure t
      | none => do typeOfValue (← Engine.evalExpr x)
    let ts ← resolveTypes owner more
    pure (t :: ts)
termination_by structural xs => xs

/-- The type of a parameter; without a class expression it is any. -/
def resolveOptional (owner : Option String) : Option Expr → Eval TypeSpec
  | none => pure .any
  | some x =>
    match ownerType? owner x with
    | some t => pure t
    | none => do typeOfValue (← Engine.evalExpr x)
termination_by structural x => x

/-- The parameters of a function with their types. -/
def resolveParams (owner : Option String) : List Param → Eval (List ParamSpec)
  | [] => pure []
  | .mk name typeExpr variadic :: more => do
    let t ← resolveOptional owner typeExpr
    let ps ← resolveParams owner more
    pure (⟨name, t, variadic⟩ :: ps)
termination_by structural ps => ps

/-- Make a function; `owner` is the name of the class whose body defines it. -/
def Engine.makeFunction : FunctionDecl → Option String → Eval FunctionRef
  | .mk name params returns body line, owner => do
    ofExcept (checkParams name [] params)
    let ps ← resolveParams owner params
    let rs ← resolveTypes owner returns
    captureFunction (.mk name params returns body line) ps rs
termination_by structural decl => decl

end

end Classlet
