import Classlet.Interpreter.Builtin
import Classlet.Interpreter.Statement

/-! # Calls

A call of a user function first gives every parameter its argument: `Function.arrange` puts
positional arguments in order and keyword arguments where they belong, and `bindArguments` checks
their classes and binds them in a new context behind the scopes that the function captured.  Then
the body runs as a new activation, and its result is checked against the declared classes.

The receiver of a method is bound without copying, so that a method can change a struct value. -/

namespace Classlet

open Eval

/-! ### Arguments -/

/-- A parameter and its argument, if it has one. -/
abbrev Slot := ParamSpec × Option Value

/-- The arguments of a call, put in order. -/
structure Arrangement where
  /-- The parameters that take one argument each. -/
  slots : List Slot
  /-- The variadic parameter with its arguments. -/
  rest : Option (ParamSpec × List Value)

namespace Function

def name (f : Function) : String := f.decl.name

def variadic? (f : Function) : Option ParamSpec := f.params.getLast?.filter (·.variadic)

/-- The parameters that take one argument each. -/
def fixed (f : Function) : List ParamSpec :=
  if f.variadic?.isSome then f.params.dropLast else f.params

end Function

/-- Give positional arguments to parameters, as far as they reach. -/
def fillPositional : List ParamSpec → List Value → List Slot
  | [], _ => []
  | p :: ps, [] => (p, none) :: fillPositional ps []
  | p :: ps, v :: vs => (p, some v) :: fillPositional ps vs

/-- Give a keyword argument to the parameter of its name. -/
def fillKeyword (function keyword : String) (v : Value) : List Slot → Except Cause (List Slot)
  | [] => .error (.unexpectedKeyword function keyword)
  | (p, slot) :: more =>
    if p.name = keyword then
      match slot with
      | some _ => .error (.multipleValues function keyword)
      | none => .ok ((p, some v) :: more)
    else (fillKeyword function keyword v more).map ((p, slot) :: ·)

/-- Give keyword arguments to the parameters of their names, in order. -/
def fillKeywords (function : String) : KeywordValues → List Slot → Except Cause (List Slot)
  | [], slots => .ok slots
  | (keyword, v) :: more, slots =>
    match fillKeyword function keyword v slots with
    | .ok slots => fillKeywords function more slots
    | .error c => .error c

/-- Put the arguments of a call in order. -/
def Function.arrange (f : Function) (arguments : List Value) (keywords : KeywordValues) :
    Except Cause Arrangement :=
  let rest := arguments.drop f.fixed.length
  if !rest.isEmpty && f.variadic?.isNone then
    .error (.tooManyPositional f.name f.fixed.length arguments.length)
  else
    (fillKeywords f.name keywords (fillPositional f.fixed arguments)).map fun slots =>
      { slots := slots, rest := f.variadic?.map fun p => (p, rest) }

def checkArgument (f : Function) (p : ParamSpec) (v : Value) : Eval Unit := fun s =>
  let m := s.memory
  if m.accepts p.spec f.owner v.classRef then (.ok (), s)
  else fail (.argumentClass f.name p.name (m.specText p.spec) (m.typeName v)) s

/-- Check the classes of the arguments of a variadic parameter. -/
def checkArguments (f : Function) (p : ParamSpec) : List Value → Eval Unit
  | [] => pure ()
  | v :: vs => do
    checkArgument f p v
    checkArguments f p vs

/-- Bind the parameters that take one argument each; `shared` says that the first one is a
receiver. -/
def bindSlots (f : Function) (c : ContextId) (shared : Bool) : List Slot → Eval Unit
  | [] => pure ()
  | (p, none) :: _ => fail (.missingArgument f.name p.name)
  | (p, some v) :: more => do
    checkArgument f p v
    if shared then defineShared c p.name v else define c p.name v
    bindSlots f c false more

/-- Bind a variadic parameter to the tuple of its arguments. -/
def bindRest (f : Function) (c : ContextId) : Option (ParamSpec × List Value) → Eval Unit
  | none => pure ()
  | some (p, vs) => do
    checkArguments f p vs
    define c p.name (.tuple vs)

def bindArguments (f : Function) (c : ContextId) (hasReceiver : Bool) (arguments : List Value)
    (keywords : KeywordValues) : Eval Unit := do
  let arrangement ← ofExcept (f.arrange arguments keywords)
  bindSlots f c hasReceiver arrangement.slots
  bindRest f c arrangement.rest

/-! ### Results -/

def checkResult (m : Memory) (f : Function) (spec : TypeSpec) (v : Value) : Except Cause Unit :=
  if m.accepts spec f.owner v.classRef then .ok ()
  else .error (.resultClass f.name (m.specText spec) (m.typeName v))

/-- Check results against their classes, in order. -/
def checkEach (m : Memory) (f : Function) : List TypeSpec → List Value → Except Cause Unit
  | spec :: specs, v :: vs =>
    match checkResult m f spec v with
    | .ok () => checkEach m f specs vs
    | .error c => .error c
  | _, _ => .ok ()

/-- Check the result of a function: one value, or a tuple of as many values as it declares. -/
def checkResults (m : Memory) (f : Function) (v : Value) : Except Cause Unit :=
  match f.returns with
  | [spec] => checkResult m f spec v
  | specs =>
    match v with
    | .tuple vs =>
      if vs.length = specs.length then checkEach m f specs vs
      else .error (.resultCount f.name specs.length (Numeral.ofInt vs.length))
    | _ => .error (.resultCount f.name specs.length (m.typeName v))

/-! ### Calls -/

/-- A context behind the scopes that a function has captured, and still holds. -/
def openCall (r : FunctionRef) (f : Function) : Eval ContextId := fun s =>
  if s.gone.contains r then (.stopped .stale, s)
  else
    let (c, scopes) := s.scopes.openContext (some f.closure)
    (.ok c, { s with scopes := scopes })

/-- A new context for a call of a function. -/
def enterContext (r : FunctionRef) (f : Function) : Eval ContextId := do
  reclaim
  openCall r f

variable (e : Engine)

/-- Run the body of a function whose arguments are bound in a context.  Imports are resolved for the
module that is running. -/
def runBody (f : Function) (c : ContextId) : Eval Completion := fun s =>
  withActivation { context := c, unit := f.unit, scope := f.name, module := s.activation.module }
    (e.execStatements f.decl.body) s

/-- Call a function `f`, which is the one behind the reference `r`. -/
def callFunction (r : FunctionRef) (f : Function) (hasReceiver : Bool) (arguments : List Value)
    (keywords : KeywordValues) : Eval Value := do
  if e.settings.maxCallDepth ≤ (← read fun s => s.depth) then
    fail (.callDepth e.settings.maxCallDepth)
  else
    let c ← enterContext r f
    let completion ← releasing c do
      bindArguments f c hasReceiver arguments keywords
      runBody e f c
    let v := completion.value
    ofExcept (← readMemory fun m => checkResults m f v)
    pure v

/-- Call the function behind a reference. -/
def callReference (r : FunctionRef) (hasReceiver : Bool) (arguments : List Value)
    (keywords : KeywordValues) : Eval Value := do
  match ← readMemory fun m => m.function? r with
  | some f => callFunction e r f hasReceiver arguments keywords
  | none => pure .nil

/-- Call a bound method: its receiver comes first. -/
def callMethodReference (r : MethodRef) (arguments : List Value) (keywords : KeywordValues) :
    Eval Value := do
  match ← readMemory fun m => m.method? r with
  | some ⟨receiver, .function f⟩ => callReference e f true (receiver :: arguments) keywords
  | some ⟨receiver, .builtin f⟩ => callBuiltin e f (receiver :: arguments) keywords
  | none => pure .nil

/-- A new instance of a class on which `init` is run, or without an `init`. -/
def makeInstance (c : ClassRef) (init : Option Value) (arguments : List Value)
    (keywords : KeywordValues) : Eval Value := do
  let i ← remember fun m => m.newInstance c []
  match init with
  | some method =>
    let _ ← e.call method true (.instance i :: arguments) keywords
    pure (.instance i)
  | none =>
    if arguments.isEmpty && keywords.isEmpty then pure (.instance i)
    else fail (.takesNoArguments (← readMemory fun m => m.className c))

/-- Call a class.  `init` comes before the construction of a built-in class. -/
def instantiate (c : ClassRef) (arguments : List Value) (keywords : KeywordValues) :
    Eval Value := do
  match ← readMemory fun m => m.findAttribute? c "init" with
  | some method => makeInstance e c (some method) arguments keywords
  | none =>
    match ← readMemory fun m => m.findConstruction? c with
    | some construction => construct e construction c arguments keywords
    | none =>
      let (name, isBuiltin) ← readMemory fun m => (m.className c, (m.classInfo c).isBuiltin)
      if isBuiltin then fail (.noInstances name)
      else makeInstance e c none arguments keywords

/-- Call a value; `hasReceiver` says that the first argument is the receiver of a method. -/
def callValue (callee : Value) (hasReceiver : Bool) (arguments : List Value)
    (keywords : KeywordValues) : Eval Value :=
  match callee with
  | .function r => callReference e r hasReceiver arguments keywords
  | .method r => callMethodReference e r arguments keywords
  | .builtin f => callBuiltin e f arguments keywords
  | .ofClass c => instantiate e c arguments keywords
  | _ => failWithType callee .notCallable

end Classlet
