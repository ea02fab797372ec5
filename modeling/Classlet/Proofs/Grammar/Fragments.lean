import Mathlib.Logic.Relation
import Classlet.Grammar.Expression

/-! # Fragments of syntax trees

A `Fragment` is an expression, a function or a statement of a syntax tree, a statement with the loop
and the function around it.  `Fragment.parts` are the fragments directly below a fragment, and
`Fragment.Within` are all of them at any depth.  A loop body stands in a loop; the body of a
function, a method, an operator or a lambda stands in a function, and in no loop.

`Fragment.Everywhere good x` says that `good` holds of `x` and of all that stands below it, and
`Fragment.Throughout` says it of a list. -/

namespace Classlet

open Grammar

/-! ### Fragments -/

/-- A part of a syntax tree; a statement with what it stands in. -/
inductive Fragment where
  | expr (x : Expr)
  | function (decl : FunctionDecl)
  | statement (w : Surroundings) (code : Statement)

def Grammar.Surroundings.looping (w : Surroundings) : Surroundings := { w with inLoop := true }

/-- The surroundings of the body of a function, wherever the function stands. -/
def Grammar.Surroundings.function : Surroundings := ⟨false, true⟩

def Grammar.Surroundings.module : Surroundings := ⟨false, false⟩

namespace Fragment

/-- Statements that stand in the same surroundings. -/
def ofBody (w : Surroundings) (body : List Statement) : List Fragment := body.map (statement w)

end Fragment

open Fragment

/-- The fragments directly below an expression. -/
def Expr.parts : Expr → List Fragment
  | literal _ | var _ => []
  | tuple elements | list elements => elements.map expr
  | unary _ x | not x | attr x _ => [.expr x]
  | binary _ x y | logical _ x y | index x y => [.expr x, .expr y]
  | call f arguments keywords =>
    .expr f :: (arguments.map expr ++ keywords.map fun k => .expr k.value)
  | slice x start stop => .expr x :: (start.toList ++ stop.toList).map expr
  | lambda decl => [.function decl]

/-- The fragments directly below a function. -/
def FunctionDecl.parts (decl : FunctionDecl) : List Fragment :=
  (decl.params.filterMap Param.typeExpr ++ decl.returns).map expr ++ ofBody .function decl.body

def ClassMember.parts : ClassMember → List Fragment
  | method decl | operator decl => [.function decl]
  | attr _ value => [.expr value]

def Branch.parts (w : Surroundings) : Branch → List Fragment
  | mk condition body => .expr condition :: ofBody w body

def CatchClause.parts (w : Surroundings) : CatchClause → List Fragment
  | mk _ errorType body _ => .expr errorType :: ofBody w body

/-- The fragments directly below a statement. -/
def StatementKind.parts (w : Surroundings) : StatementKind → List Fragment
  | expression x | throwValue x => [.expr x]
  | assign targets values => (targets ++ values).map expr
  | block body catches => ofBody w body ++ catches.flatMap (CatchClause.parts w)
  | ifElse branches otherwise =>
    branches.flatMap (Branch.parts w) ++ ofBody w (otherwise.getD [])
  | forRange _ start stop body => .expr start :: .expr stop :: ofBody w.looping body
  | whileDo condition body => .expr condition :: ofBody w.looping body
  | loop body => ofBody w.looping body
  | returnValues values => values.map expr
  | function decl => [.function decl]
  | classDecl _ base members _ => base.toList.map expr ++ members.flatMap ClassMember.parts
  | breakLoop | importModule .. => []

namespace Fragment

/-- The fragments directly below a fragment. -/
def parts : Fragment → List Fragment
  | expr x => x.parts
  | function decl => decl.parts
  | statement w code => code.kind.parts w

/-- The fragment `y` is `x` or stands below it. -/
def Within (x y : Fragment) : Prop := Relation.ReflTransGen (fun a b => b ∈ a.parts) x y

/-- The fragment `x` is part of the statements of a module. -/
def PartOf (x : Fragment) (code : List Statement) : Prop :=
  ∃ y ∈ ofBody .module code, y.Within x

/-! ### What holds at every depth -/

variable {good fine : Fragment → Prop} {x y : Fragment}

/-- A fragment and all fragments below it are good. -/
def Everywhere (good : Fragment → Prop) (x : Fragment) : Prop := ∀ y, x.Within y → good y

/-- All fragments of a list are good, and all below them. -/
def Throughout (good : Fragment → Prop) (xs : List Fragment) : Prop := ∀ x ∈ xs, x.Everywhere good

theorem Everywhere.here (h : x.Everywhere good) : good x := h x .refl

theorem Everywhere.within (h : x.Everywhere good) (hy : x.Within y) : y.Everywhere good :=
  fun z hz => h z (hy.trans hz)

theorem Everywhere.parts (h : x.Everywhere good) : Throughout good x.parts :=
  fun _ hy => h.within (.single hy)

theorem Everywhere.of_parts (hgood : good x) (hparts : Throughout good x.parts) :
    x.Everywhere good := by
  intro z hz
  rcases hz.cases_head with rfl | ⟨y, hy, hyz⟩
  · exact hgood
  · exact hparts y hy z hyz

theorem everywhere_iff : x.Everywhere good ↔ good x ∧ Throughout good x.parts :=
  ⟨fun h => ⟨h.here, h.parts⟩, fun h => .of_parts h.1 h.2⟩

theorem Everywhere.mono (h : x.Everywhere good) (hgood : ∀ y, good y → fine y) :
    x.Everywhere fine := fun y hy => hgood y (h y hy)

@[simp] theorem throughout_nil : Throughout good [] := fun _ hx => by cases hx

@[simp] theorem throughout_cons {xs : List Fragment} :
    Throughout good (x :: xs) ↔ x.Everywhere good ∧ Throughout good xs := List.forall_mem_cons

theorem throughout_single : Throughout good [x] ↔ x.Everywhere good := List.forall_mem_singleton

theorem throughout_pair : Throughout good [x, y] ↔ x.Everywhere good ∧ y.Everywhere good := by
  simp

@[simp] theorem throughout_append {xs ys : List Fragment} :
    Throughout good (xs ++ ys) ↔ Throughout good xs ∧ Throughout good ys := List.forall_mem_append

theorem throughout_map {α : Type} {f : α → Fragment} {as : List α} :
    Throughout good (as.map f) ↔ ∀ a ∈ as, (f a).Everywhere good := List.forall_mem_map

end Fragment

end Classlet
