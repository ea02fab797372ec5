import Classlet.Interpreter.Expression

/-! # Assignments

All values are evaluated before anything is bound.  One target takes several values as a tuple,
several targets take one value apart, and otherwise targets and values correspond.

A struct value that a container hands out for an index can be a copy.  `updatePlace` therefore
stores it back into its container after it has been changed, level by level. -/

namespace Classlet

open Eval

variable (e : Engine)

/-- Check the number of values for a number of targets. -/
def checkUnpack (need got : Nat) : Except Cause Unit :=
  if need = got then .ok () else .error (.unpackCount need got)

/-- The values for a number of targets. -/
def spread (need : Nat) (values : List Value) : Eval (List Value) :=
  match need, values with
  | 1, [v] => pure [v]
  | 1, vs => pure [.tuple vs]
  | need, [v] => do
    let vs ← elementsOf e v
    ofExcept (checkUnpack need vs.length)
    pure vs
  | need, vs => do
    ofExcept (checkUnpack need vs.length)
    pure vs

/-- Evaluate a place and run `update` on its value. -/
def updatePlace : Expr → (Value → Eval Unit) → Eval Unit
  | .index object index, update =>
    updatePlace object fun parent => do
      let i ← e.evalExpr index
      let container ← indexOperation e parent i
      update container
      if container.isStruct then setIndexOperation e parent i container
  | place, update => do
    let container ← e.evalExpr place
    update container
termination_by structural place => place

def assignTo (target : Expr) (v : Value) : Eval Unit :=
  match target with
  | .var name => do assign (← context) name v
  | .attr object name => updatePlace e object fun o => setAttribute o name v
  | .index object index =>
    updatePlace e object fun container => do
      let i ← e.evalExpr index
      setIndexOperation e container i v
  | .slice .. => fail .sliceAssignment
  | _ => fail (.notAssignable target.print)

/-- Assign values to targets in order. -/
def assignAll : List Expr → List Value → Eval Unit
  | target :: targets, v :: vs => do
    assignTo e target v
    assignAll targets vs
  | _, _ => pure ()

def assignment (targets values : List Expr) : Eval Unit := do
  let vs ← evalAll e values
  let vs ← spread e targets.length vs
  assignAll e targets vs

end Classlet
