import Classlet.Proofs.Grammar.WellFormed

/-! # Where `break` and `return` stand

A fragment of a syntax tree is placed (`Fragment.Placed`) if every `break` below it stands in a loop
and every `return` in a function.  The parser makes sure of both, so that every tree of a text is
placed (`parse_placed`). -/

namespace Classlet

open Grammar

namespace Fragment

/-- A `break` stands in a loop, and a `return` in a function. -/
def Fits : Fragment → Prop
  | statement w (.mk _ .breakLoop) => w.inLoop = true
  | statement w (.mk _ (.returnValues _)) => w.inFunction = true
  | _ => True

@[simp] theorem fits_breakLoop {w : Surroundings} {line : UInt32} :
    (statement w (.mk line .breakLoop)).Fits ↔ w.inLoop = true := .rfl

@[simp] theorem fits_returnValues {w : Surroundings} {line : UInt32} {values : List Expr} :
    (statement w (.mk line (.returnValues values))).Fits ↔ w.inFunction = true := .rfl

/-- Every `break` stands in a loop, and every `return` in a function. -/
def Placed (x : Fragment) : Prop := ∀ y, x.Within y → y.Fits

/-- All fragments of a list are placed. -/
def AllPlaced (xs : List Fragment) : Prop := ∀ x ∈ xs, x.Placed

theorem Placed.fits {x : Fragment} (h : x.Placed) : x.Fits := Everywhere.here h

theorem Placed.within {x y : Fragment} (h : x.Placed) (hy : x.Within y) : y.Placed :=
  Everywhere.within h hy

theorem Placed.parts {x : Fragment} (h : x.Placed) : AllPlaced x.parts := Everywhere.parts h

theorem allPlaced_cons {x : Fragment} {xs : List Fragment} :
    AllPlaced (x :: xs) ↔ x.Placed ∧ AllPlaced xs := throughout_cons

theorem allPlaced_append {xs ys : List Fragment} :
    AllPlaced (xs ++ ys) ↔ AllPlaced xs ∧ AllPlaced ys := throughout_append

theorem WellFormed.fits : ∀ x : Fragment, x.WellFormed → x.Fits
  | statement _ (.mk _ .breakLoop), h => h
  | statement _ (.mk _ (.returnValues _)), h => h
  | statement _ (.mk _ (.expression _)), _ | statement _ (.mk _ (.assign ..)), _
  | statement _ (.mk _ (.block ..)), _ | statement _ (.mk _ (.ifElse ..)), _
  | statement _ (.mk _ (.forRange ..)), _ | statement _ (.mk _ (.whileDo ..)), _
  | statement _ (.mk _ (.loop _)), _ | statement _ (.mk _ (.throwValue _)), _
  | statement _ (.mk _ (.function _)), _ | statement _ (.mk _ (.classDecl ..)), _
  | statement _ (.mk _ (.importModule ..)), _ | expr _, _ | function _, _ => trivial

end Fragment

open Fragment

/-- The same of a statement, given what it stands in. -/
abbrev Statement.Placed (w : Surroundings) (code : Statement) : Prop :=
  (Fragment.statement w code).Placed

/-- Every `break` of a text stands in a loop of its function or of the module, and every `return`
in a function. -/
theorem parse_placed {source : String} {code : List Statement} (h : parse source = .ok code) :
    AllPlaced (ofBody .module code) :=
  fun x hx => (parse_formed h x hx).mono fun y hy => WellFormed.fits y hy.wellFormed

end Classlet
