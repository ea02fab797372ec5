import Classlet.Interpreter.Assignment
import Classlet.Proofs.Evaluator.Closed
import Mathlib.Data.List.Induction

/-! # Places

A place is built from a variable with steps: an attribute, or an index that is a literal.  Reading a
place follows its steps (`evalExpr_along`).  Assigning to it reads the steps before the last one,
stores at the last one, and stores struct values back where nothing but indices lies between them
and the last step (`assignTo_along`, with `walk`). -/

namespace Classlet

open Eval

/-- A step of a place. -/
inductive PlaceStep where
  | attr (name : String)
  | index (l : Literal)

namespace PlaceStep

def on (x : Expr) : PlaceStep → Expr
  | attr name => .attr x name
  | index l => .index x (.literal l)

def isIndex : PlaceStep → Bool
  | attr _ => false
  | index _ => true

variable (e : Engine)

/-- What a step leads to from a container. -/
def read : PlaceStep → Value → Eval Value
  | attr name, c => getAttribute c name
  | index l, c => indexOperation e c l.value

/-- Store a value where a step leads from a container. -/
def store : PlaceStep → Value → Value → Eval Unit
  | attr name, c, v => setAttribute c name v
  | index l, c, v => setIndexOperation e c l.value v

end PlaceStep

def Expr.along (x : Expr) (steps : List PlaceStep) : Expr := steps.foldl PlaceStep.on x

theorem Expr.along_append (x : Expr) (steps more : List PlaceStep) :
    x.along (steps ++ more) = (x.along steps).along more := List.foldl_append

variable (e : Engine) {update : Value → Eval Unit}

/-- What steps lead to from a container. -/
def follow : List PlaceStep → Value → Eval Value
  | [], c => pure c
  | st :: more, c => st.read e c >>= follow more

/-- Run `update` where steps lead, and store struct values back on the way out if all steps behind
them are indices. -/
def walk (update : Value → Eval Unit) : List PlaceStep → Value → Eval Unit
  | [], c => update c
  | st :: more, c => do
    let d ← st.read e c
    walk update more d
    if d.isStruct && (st :: more).all (·.isIndex) then st.store e c d

theorem evalExpr_on (x : Expr) (st : PlaceStep) :
    e.evalExpr (st.on x) = e.evalExpr x >>= st.read e := by
  cases st <;> rfl

theorem evalExpr_var {s : State} {name : String} {v : Value}
    (h : s.toStore.lookup s.activation.context name = .ok v) :
    e.evalExpr (.var name) s = (.ok v, s) := by
  rw [Engine.evalExpr]
  dsimp only
  rw [h]

/-- Computing nothing after a computation changes nothing. -/
theorem Eval.bind_pure {α : Type} (x : Eval α) : (x >>= pure) = x := by
  funext s
  rw [bind_apply]
  rcases x s with ⟨_ | _ | _, s'⟩ <;> rfl

theorem evalExpr_along : ∀ (steps : List PlaceStep) (x : Expr),
    e.evalExpr (x.along steps) = e.evalExpr x >>= follow e steps
  | [], x => (bind_pure _).symm
  | st :: more, x => by
      rw [Expr.along, List.foldl_cons, ← Expr.along, evalExpr_along more, evalExpr_on,
        ← bind_assoc]
      rfl

/-- Where an attribute comes last, nothing is stored back. -/
theorem walk_attr (name : String) : ∀ (steps : List PlaceStep) (c : Value),
    walk e update (steps ++ [.attr name]) c = follow e (steps ++ [.attr name]) c >>= update
  | [], c => by
      have hlast : ∀ d, walk e update [.attr name] d = getAttribute d name >>= update := by
        intro d
        rw [walk]
        refine congrArg (getAttribute d name >>= ·) (funext fun d => ?_)
        simp only [PlaceStep.isIndex, List.all_cons, Bool.false_and, Bool.and_false,
          Bool.false_eq_true, if_false]
        exact bind_pure _
      rw [List.nil_append, hlast, follow, ← bind_assoc]
      rfl
  | st :: more, c => by
      have hall : (st :: (more ++ [PlaceStep.attr name])).all (·.isIndex) = false := by
        simp [PlaceStep.isIndex]
      rw [List.cons_append, walk, follow, ← bind_assoc]
      refine congrArg (st.read e c >>= ·) (funext fun d => ?_)
      rw [hall, Bool.and_false, walk_attr name more d]
      exact bind_pure _

/-- An index before the update belongs to the update of the place before it. -/
theorem walk_index (l : Literal) : ∀ (steps : List PlaceStep) (c : Value),
    walk e update (steps ++ [.index l]) c = walk e (walk e update [.index l]) steps c
  | [], _ => rfl
  | st :: more, c => by
      have hall : (st :: (more ++ [PlaceStep.index l])).all (·.isIndex) =
          (st :: more).all (·.isIndex) := by
        simp [PlaceStep.isIndex]
      rw [List.cons_append, walk, walk]
      refine congrArg (st.read e c >>= ·) (funext fun d => ?_)
      rw [hall, walk_index l more d]

theorem updatePlace_along (name : String) (steps : List PlaceStep) :
    updatePlace e ((Expr.var name).along steps) update =
      e.evalExpr (.var name) >>= walk e update steps := by
  induction steps using List.reverseRecOn generalizing update with
  | nil => rfl
  | append_singleton steps st ih =>
    rw [Expr.along_append]
    cases st with
    | attr a =>
      have hplace : updatePlace e (((Expr.var name).along steps).along [.attr a]) update =
          e.evalExpr (((Expr.var name).along steps).along [.attr a]) >>= update := rfl
      rw [hplace, ← Expr.along_append, evalExpr_along, ← bind_assoc]
      exact congrArg (e.evalExpr (.var name) >>= ·) (funext fun c => (walk_attr e a steps c).symm)
    | index l =>
      have hupdate : ∀ c, (do
          let d ← indexOperation e c l.value
          update d
          if d.isStruct then setIndexOperation e c l.value d) = walk e update [.index l] c := by
        intro c
        refine congrArg (indexOperation e c l.value >>= ·) (funext fun d => ?_)
        simp only [PlaceStep.isIndex, List.all_cons, List.all_nil, Bool.and_true]
        rfl
      have hplace : updatePlace e (((Expr.var name).along steps).along [.index l]) update =
          updatePlace e ((Expr.var name).along steps) (walk e update [.index l]) :=
        congrArg (updatePlace e ((Expr.var name).along steps)) (funext hupdate)
      rw [hplace, ih]
      exact congrArg (e.evalExpr (.var name) >>= ·) (funext fun c => (walk_index e l steps c).symm)

/-- Assigning to a place walks along the steps before the last one and stores there. -/
theorem assignTo_along (name : String) (steps : List PlaceStep) (last : PlaceStep) (v : Value) :
    assignTo e ((Expr.var name).along (steps ++ [last])) v =
      e.evalExpr (.var name) >>= walk e (fun c => last.store e c v) steps := by
  rw [Expr.along_append, ← updatePlace_along]
  cases last <;> rfl

end Classlet
