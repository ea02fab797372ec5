import Classlet.Interpreter.Call
import Classlet.Interpreter.Module
import Classlet.Proofs.Evaluator.Closed
import Classlet.Proofs.Grammar.Placement

/-! # How statements complete

Statements complete with `break` only in a loop, and with `return` only in a function: the parser
sees to it that the words stand there (`Classlet.Proofs.Grammar.Placement`), and the evaluator that
a `break` goes no further than the loop.  `Eval.Exits w x` says that `x` completes only as
statements in the surroundings `w` may.

So the statements of a text complete normally if they complete, and the body of a function never
completes with a `break` (`parse_contained`), whatever the engine and the state: what calls and
modules do with the other completions does not matter. -/

namespace Classlet

open Eval Grammar Fragment

/-- Statements with these surroundings may complete so. -/
def Completion.Fits (w : Surroundings) : Completion → Prop
  | normal => True
  | broken => w.inLoop = true
  | returned _ => w.inFunction = true

/-- Whatever completes in a loop completes the pass or leaves the statements around the loop. -/
theorem Completion.Fits.of_looping {w : Surroundings} {completion : Completion}
    (h : completion.Fits w.looping) (hbroken : completion ≠ .broken) : completion.Fits w := by
  cases completion with
  | normal => trivial
  | broken => exact absurd rfl hbroken
  | returned v => exact h

/-- A computation completes only as statements with these surroundings may. -/
def Eval.Exits (w : Surroundings) (x : Eval Completion) : Prop :=
  ∀ s s' completion, x s = (.ok completion, s') → completion.Fits w

namespace Eval.Exits

variable {α : Type} {w : Surroundings} {x : Eval Completion}

theorem pure {completion : Completion} (h : completion.Fits w) :
    Exits w (pure completion) := by
  rintro s s' c ⟨⟩
  exact h

theorem bind {x : Eval α} {f : α → Eval Completion} (h : ∀ a, Exits w (f a)) :
    Exits w (x >>= f) := by
  intro s s' c hrun
  obtain ⟨a, s₁, -, hf⟩ := of_bind_ok hrun
  exact h a s₁ s' c hf

theorem ite {c : Prop} [Decidable c] {x y : Eval Completion} (hx : Exits w x) (hy : Exits w y) :
    Exits w (if c then x else y) := by
  split
  · exact hx
  · exact hy

theorem completing (x : Eval Unit) : Exits w (completing x) := bind fun _ => pure trivial

theorem throwValue (v : Value) : Exits w (throwValue v) := by
  intro s s' c hrun
  unfold Classlet.throwValue at hrun
  split at hrun
  · split at hrun <;> cases hrun
  · cases hrun

/-! ### Scopes and errors -/

theorem poppingScope {c : ContextId} {scope : ScopeId} (h : Exits w x) :
    Exits w (poppingScope c scope x) := by
  intro s s' completion hrun
  unfold Eval.poppingScope at hrun
  rcases hx : x s with ⟨outcome, s₁⟩
  rw [hx] at hrun
  dsimp only at hrun
  split at hrun
  · cases hrun
    exact h s s₁ completion hx
  · cases hrun

theorem inNewScope (h : Exits w x) : Exits w (inNewScope x) :=
  bind fun _ => bind fun _ => h.poppingScope

theorem withVariable (name : String) (v : Value) (h : Exits w x) :
    Exits w (withVariable name v x) := inNewScope (bind fun _ => bind fun _ => h)

theorem recording (statement : Statement) (h : Exits w x) : Exits w (recording statement x) := by
  intro s s' completion hrun
  unfold Classlet.recording at hrun
  split at hrun
  · cases hrun
  · rename_i hx
    cases hrun
    exact h s s' completion hx

theorem handling {handler : RuntimeError → Eval Completion} (h : Exits w x)
    (hhandler : ∀ error, Exits w (handler error)) : Exits w (handling x handler) := by
  intro s s' completion hrun
  unfold Classlet.handling at hrun
  split at hrun
  · exact hhandler _ _ _ _ hrun
  · rename_i hx
    cases hrun
    exact h s s' completion hx

/-! ### Loops -/

theorem countedLoop {body : Int → Eval Completion} (h : ∀ i, Exits w.looping (body i)) :
    ∀ count i, Exits w (countedLoop body count i)
  | 0, _ => pure trivial
  | count + 1, i => by
      intro s s' completion hrun
      unfold Classlet.countedLoop at hrun
      split at hrun
      · exact countedLoop h count (i + 1) _ _ _ hrun
      · cases hrun
        trivial
      · rename_i hbroken hbody
        cases hrun
        exact (h i s s' completion hbody).of_looping fun hc => hbroken (by rw [hc])

theorem guardedLoop {test : Eval Bool} {body : Eval Completion} (h : Exits w.looping body) :
    ∀ passes, Exits w (guardedLoop test body passes)
  | 0 => by
      rintro s s' completion ⟨⟩
  | passes + 1 => by
      intro s s' completion hrun
      unfold Classlet.guardedLoop at hrun
      split at hrun
      · split at hrun
        · exact guardedLoop h passes _ _ _ hrun
        · cases hrun
          trivial
        · rename_i hbroken hbody
          cases hrun
          exact (h _ s' completion hbody).of_looping fun hc => hbroken (by rw [hc])
      · cases hrun
        trivial
      · cases hrun
      · cases hrun

/-! ### All statements -/

variable (e : Engine)

mutual

theorem execStatement {w : Surroundings} : ∀ {code : Statement}, code.Placed w →
    Exits w (e.execStatement code)
  | .mk line kind, h => by
      rw [Engine.execStatement]
      exact recording _ (execKind h)
termination_by structural code => code

theorem execStatements {w : Surroundings} : ∀ {code : List Statement}, AllPlaced (ofBody w code) →
    Exits w (e.execStatements code)
  | [], _ => by
      rw [Engine.execStatements]
      exact pure trivial
  | first :: more, h => by
      obtain ⟨hfirst, hmore⟩ := allPlaced_cons.mp h
      intro s s' completion hrun
      rw [Engine.execStatements] at hrun
      dsimp only at hrun
      split at hrun
      · exact execStatements hmore _ _ _ hrun
      · rename_i hrest
        cases hrun
        exact execStatement hfirst s s' completion hrest
termination_by structural code => code

theorem execKind {w : Surroundings} {line : UInt32} : ∀ {kind : StatementKind},
    Statement.Placed w (.mk line kind) → Exits w (execKind e kind)
  | .expression x, _ => by
      rw [Classlet.execKind]
      exact bind fun _ => pure trivial
  | .assign targets values, _ => by
      rw [Classlet.execKind]
      exact completing _
  | .block body [], h => by
      rw [Classlet.execKind]
      exact inNewScope (execStatements (allPlaced_append.mp h.parts).1)
  | .block body (clause :: clauses), h => by
      obtain ⟨hbody, hclauses⟩ := allPlaced_append.mp h.parts
      rw [Classlet.execKind]
      exact bind fun classes => handling (inNewScope (execStatements hbody))
        (execHandlers hclauses classes)
  | .ifElse branches otherwise, h => by
      obtain ⟨hbranches, hotherwise⟩ := allPlaced_append.mp h.parts
      rw [Classlet.execKind]
      exact execBranches hbranches (execOtherwise hotherwise)
  | .forRange name start stop body, h => by
      have hbody := (allPlaced_cons.mp (allPlaced_cons.mp h.parts).2).2
      rw [Classlet.execKind]
      exact bind fun i => bind fun j =>
        countedLoop (fun k => withVariable name _ (execStatements hbody)) _ i
  | .whileDo test body, h => by
      rw [Classlet.execKind]
      exact guardedLoop (inNewScope (execStatements (allPlaced_cons.mp h.parts).2)) _
  | .loop body, h => by
      rw [Classlet.execKind]
      exact guardedLoop (inNewScope (execStatements h.parts)) _
  | .breakLoop, h => by
      rw [Classlet.execKind]
      exact pure h.fits
  | .returnValues values, h => by
      rw [Classlet.execKind]
      exact bind fun vs => pure h.fits
  | .throwValue value, _ => by
      rw [Classlet.execKind]
      exact bind fun v => throwValue v
  | .function decl, _ => by
      rw [Classlet.execKind]
      exact completing _
  | .classDecl name base members isStruct, _ => by
      rw [Classlet.execKind]
      exact completing _
  | .importModule path newName, _ => by
      rw [Classlet.execKind]
      exact completing _
termination_by structural kind => kind

theorem execBranches {w : Surroundings} : ∀ {branches : List Branch} {otherwise : Eval Completion},
    AllPlaced (branches.flatMap (Branch.parts w)) → Exits w otherwise →
    Exits w (execBranches e branches otherwise)
  | [], otherwise, _, ho => by
      rw [Classlet.execBranches]
      exact ho
  | .mk test body :: more, otherwise, h, ho => by
      obtain ⟨hbranch, hmore⟩ := allPlaced_append.mp h
      rw [Classlet.execBranches]
      exact bind fun holds => ite (inNewScope (execStatements (allPlaced_cons.mp hbranch).2))
        (execBranches hmore ho)
termination_by structural branches => branches

theorem execOtherwise {w : Surroundings} : ∀ {otherwise : Option (List Statement)},
    AllPlaced (ofBody w (otherwise.getD [])) → Exits w (execOtherwise e otherwise)
  | none, _ => by
      rw [Classlet.execOtherwise]
      exact pure trivial
  | some body, h => by
      rw [Classlet.execOtherwise]
      exact inNewScope (execStatements h)
termination_by structural otherwise => otherwise

theorem execHandlers {w : Surroundings} : ∀ {clauses : List CatchClause},
    AllPlaced (clauses.flatMap (CatchClause.parts w)) → ∀ classes error,
    Exits w (execHandlers e clauses classes error)
  | [], _, classes, error => by
      rw [Classlet.execHandlers]
      · rintro s s' completion ⟨⟩
      · exact fun name type body line more c cs hc => by cases hc
  | .mk name errorType body line :: more, _, [], error => by
      rw [Classlet.execHandlers]
      · rintro s s' completion ⟨⟩
      · exact fun name type body line more c cs _ hc => by cases hc
  | .mk name errorType body line :: more, h, c :: cs, error => by
      obtain ⟨hclause, hmore⟩ := allPlaced_append.mp h
      rw [Classlet.execHandlers]
      exact bind fun takes => ite
        (bind fun exception => withVariable name exception
          (execStatements (allPlaced_cons.mp hclause).2))
        (execHandlers hmore cs error)
termination_by structural clauses => clauses

end

/-! ### Activations -/

theorem withActivation (activation : Activation) (h : Exits w x) :
    Exits w (withActivation activation x) := by
  intro s s' completion hrun
  have hx : (x { s with activation := activation, depth := s.depth + 1 }).1 = .ok completion :=
    congrArg Prod.fst hrun
  exact h _ _ completion (Prod.ext hx rfl)

theorem tracing (h : Exits w x) : Exits w (tracing x) := by
  intro s s' completion hrun
  unfold Classlet.tracing at hrun
  split at hrun
  · cases hrun
  · rename_i hx
    cases hrun
    exact h s s' completion hx

theorem runBody {f : Function} (h : Exits w (e.execStatements f.decl.body)) (c : ContextId) :
    Exits w (runBody e f c) := fun s => h.withActivation _ s

/-- What may complete neither with `break` nor with `return` completes normally if it completes. -/
theorem eq_normal {x : Eval Completion} (h : Exits .module x) {s : State} {completion : Completion}
    (hrun : (x s).1 = .ok completion) : completion = .normal := by
  have hfits := h s (x s).2 completion (Prod.ext hrun rfl)
  cases completion with
  | normal => rfl
  | broken => cases hfits
  | returned v => cases hfits

/-- What stands in a function and in no loop does not complete with `break`. -/
theorem ne_broken {x : Eval Completion} (h : Exits .function x) (s : State) :
    (x s).1 ≠ .ok .broken := fun hrun => by
  cases h s (x s).2 .broken (Prod.ext hrun rfl)

end Eval.Exits

/-! ### Texts -/

/-- The `break`s and `return`s of a tree stay in its loops and functions, where they stand and
whenever the tree runs. -/
structure ExitsContained (code : List Statement) : Prop where
  /-- Every `break` stands in a loop of the same function, or of the module. -/
  break_in_loop : ∀ w line,
    (Fragment.statement w (.mk line .breakLoop)).PartOf code → w.inLoop = true
  /-- Every `return` stands in a function. -/
  return_in_function : ∀ w line values,
    (Fragment.statement w (.mk line (.returnValues values))).PartOf code → w.inFunction = true
  /-- The statements complete normally, raise an error, or are stopped from outside. -/
  ends : ∀ (e : Engine) s, (e.execStatements code s).1 = .ok .normal ∨
    (∃ error, (e.execStatements code s).1 = .raised error) ∨
    ∃ why, (e.execStatements code s).1 = .stopped why
  /-- The body of a function does not complete with `break`. -/
  body_not_broken : ∀ decl, (Fragment.function decl).PartOf code → ∀ (e : Engine) s,
    (e.execStatements decl.body s).1 ≠ .ok .broken
  /-- A module that runs them does not see them complete with `break` or `return`. -/
  module_completes : ∀ (e : Engine) activation s completion,
    (tracing (withActivation activation (e.execStatements code)) s).1 = .ok completion →
      completion = .normal
  /-- A call of a function does not see its body complete with `break`. -/
  call_not_broken : ∀ f : Function, (Fragment.function f.decl).PartOf code → ∀ e c s,
    (runBody e f c s).1 ≠ .ok .broken

/-- **`break` and `return` never leave the loops and functions in which they stand.** -/
theorem parse_contained {source : String} {code : List Statement} (h : parse source = .ok code) :
    ExitsContained code := by
  have hplaced := parse_placed h
  have hpart : ∀ {x : Fragment}, x.PartOf code → x.Placed :=
    fun ⟨y, hy, hx⟩ => (hplaced y hy).within hx
  have hcode : ∀ e : Engine, Exits .module (e.execStatements code) :=
    fun e => Exits.execStatements e hplaced
  have hbody : ∀ {decl : FunctionDecl}, (Fragment.function decl).PartOf code → ∀ e : Engine,
      Exits .function (e.execStatements decl.body) :=
    fun hdecl e => Exits.execStatements e (allPlaced_append.mp (hpart hdecl).parts).2
  refine
    { break_in_loop := fun w line hx => fits_breakLoop.mp (hpart hx).fits
      return_in_function := fun w line values hx => fits_returnValues.mp (hpart hx).fits
      ends := fun e s => ?_
      body_not_broken := fun decl hdecl e => (hbody hdecl e).ne_broken
      module_completes := fun e activation s completion =>
        ((hcode e).withActivation activation).tracing.eq_normal
      call_not_broken := fun f hf e c => ((hbody hf e).runBody e c).ne_broken }
  cases hends : (e.execStatements code s).1 with
  | ok completion =>
      rw [(hcode e).eq_normal hends]
      exact .inl rfl
  | raised error => exact .inr (.inl ⟨error, rfl⟩)
  | stopped why => exact .inr (.inr ⟨why, rfl⟩)

/-- A function with a loop and a lambda of its own, in a loop of the module. -/
def nestedExits : String :=
  "while true { fun f(x) { loop { if x { break; } } return fun(y) => y; } break; }"

theorem parse_contained_nested :
    ∃ code, parse nestedExits = .ok code ∧ ExitsContained code := by
  have hparse : (parse nestedExits).isOk = true := by decide +kernel
  obtain ⟨code, hcode⟩ : ∃ code, parse nestedExits = .ok code := by
    cases hresult : parse nestedExits with
    | ok code => exact ⟨code, rfl⟩
    | error errors =>
        rw [hresult] at hparse
        cases hparse
  exact ⟨code, hcode, parse_contained hcode⟩

end Classlet
