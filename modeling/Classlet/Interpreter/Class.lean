import Classlet.Interpreter.Expression

/-! # Class definitions

The body of a class is run from top to bottom: methods and operators become functions, attributes
are evaluated.  An operator is stored under the attribute that `operatorAttribute` gives it,
which also checks that it has as many parameters as the operator takes and that a conversion
returns what it should. -/

namespace Classlet

open Eval

/-! ### Operators of a class -/

/-- Whether a type is the class that is being defined. -/
def TypeSpec.isOwner : TypeSpec → Bool
  | owner _ => true
  | _ => false

/-- Whether the last parameter of a function is variadic. -/
def Function.isVariadic (f : Function) : Bool := f.params.getLast?.any (·.variadic)

/-- The first parameter of a function, if its class expression is there and is not the class of the
function. -/
def Function.foreignReceiver? (f : Function) : Option String :=
  match f.decl.params, f.params with
  | p :: _, q :: _ => if p.typeExpr.isSome && !q.spec.isOwner then some p.name else none
  | _, _ => none

/-- Whether the declared results of a function are right for a conversion: none, or its class. -/
def Function.returnsFor (m : Memory) (f : Function) (conversion : Conversion) : Bool :=
  match f.returns with
  | [.any] => f.decl.returns.isEmpty
  | [.ofClass c] => (m.classInfo c).isBuiltin && m.className c == conversion.resultClass
  | _ => false

/-- The operators that are not conversions: the number of parameters and the attribute.  A sign with
one parameter is a unary operator. -/
def operatorShape? (symbol : String) (params : Nat) : Option (Nat × String) :=
  if symbol = UnaryOp.invert.symbol then some (1, UnaryOp.invert.key)
  else if symbol = UnaryOp.neg.symbol ∧ params = 1 then some (1, UnaryOp.neg.key)
  else if symbol = UnaryOp.pos.symbol ∧ params = 1 then some (1, UnaryOp.pos.key)
  else if symbol = "[]" then some (2, indexKey)
  else if symbol = "[]=" then some (3, setIndexKey)
  else (BinaryOp.ofSymbol? symbol).map fun op => (2, op.key)

/-- The attribute under which a class stores an operator that it defines. -/
def operatorAttribute (m : Memory) (className : String) (f : Function) : Except Cause String :=
  let symbol := f.decl.name
  let count := f.params.length
  if f.isVariadic then .error (.variadicOperator symbol className)
  else
    match f.foreignReceiver? with
    | some receiver => .error (.receiverClass symbol className receiver)
    | none =>
      match Conversion.ofWord? symbol with
      | some conversion =>
        if count ≠ 1 then .error (.operatorArity symbol className 1 count)
        else if !f.returnsFor m conversion then .error (.operatorResult symbol className conversion)
        else .ok conversion.key
      | none =>
        match operatorShape? symbol count with
        | some (expected, key) =>
          if count = expected then .ok key
          else .error (.operatorArity symbol className expected count)
        | none => .error (.notOverloadable symbol className)

/-! ### The body of a class -/

/-- What the body of a class has defined. -/
structure ClassBody where
  attributes : Bindings Value := []
  /-- The functions that belong to the class. -/
  functions : List FunctionRef := []

def ClassBody.addFunction (b : ClassBody) (name : String) (f : FunctionRef) : ClassBody :=
  { attributes := b.attributes.insert name (.function f), functions := b.functions ++ [f] }

def ClassBody.addAttribute (b : ClassBody) (name : String) (v : Value) : ClassBody :=
  { b with attributes := b.attributes.insert name v }

variable (e : Engine)

def defineMember (className : String) (body : ClassBody) : ClassMember → Eval ClassBody
  | .method decl => do
    let f ← e.makeFunction decl (some className)
    pure (body.addFunction decl.name f)
  | .operator decl => do
    let f ← e.makeFunction decl (some className)
    let key ← operatorName f
    pure (body.addFunction key f)
  | .attr name value => do
    let v ← e.evalExpr value
    pure (body.addAttribute name v)
where
  /-- The attribute of an operator that has just been made. -/
  operatorName (f : FunctionRef) : Eval String := do
    match ← readMemory fun m => (m.function? f).map (operatorAttribute m className) with
    | some answer => ofExcept answer
    | none => pure ""

def defineMembers (className : String) (body : ClassBody) : List ClassMember → Eval ClassBody
  | [] => pure body
  | member :: more => do
    let body ← defineMember e className body member
    defineMembers className body more

def evalBase (className : String) : Option Expr → Eval (Option ClassRef)
  | none => pure none
  | some x => do
    match ← e.evalExpr x with
    | .ofClass c => pure (some c)
    | v => failWithType v (.baseNotAClass className)

def makeClass (name : String) (body : ClassBody) (isStruct : Bool) (base : Option ClassRef) :
    Eval ClassRef := fun s =>
  match s.memory.newClass name body.attributes isStruct base with
  | .ok (c, memory) =>
    (.ok c, { s with memory := body.functions.foldl (fun m f => m.setOwner c f) memory })
  | .error cause => fail cause s

/-- Define a class and bind its name. -/
def defineClass (name : String) (base : Option Expr) (members : List ClassMember)
    (isStruct : Bool) : Eval Unit := do
  let base ← evalBase e name base
  let body ← defineMembers e name {} members
  let c ← makeClass name body isStruct base
  assign (← context) name (.ofClass c)

end Classlet
