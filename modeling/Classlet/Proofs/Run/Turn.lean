import Classlet.Proofs.Run.Moment

/-! # Turns

A `Turn` is a step of which more is said: a name is bound in the context of the running code or in
one that was opened for a call that has not begun, and a module that ends gets the exports that its
bindings call for.  `Turns` are turns one after the other, through fit moments.

Whatever is run takes turns; that it takes steps follows (`Turns.leads`). -/

namespace Classlet

open Eval

/-- The bindings of the top level of a module. -/
def State.bindings (s : State) (r : ModuleRef) : Bindings Value :=
  s.scopes.baseBindings (s.memory.moduleInfo r).context

/-- The exports that a module has by its bindings. -/
def State.exports (s : State) (r : ModuleRef) : Except Cause (Bindings Value) :=
  computeExports s.memory (s.bindings r)

namespace Moment

variable (m : Moment)

/-- What the evaluator can do at a moment. -/
inductive Turn : Moment → Prop where
  | worked {s : State} : m.state.Works s → Turn (m.withState s)
  | collected {s : State} : m.state.Collects s → Turn (m.withState s)
  | captured (decl : FunctionDecl) {params : List ParamSpec} (returns : List TypeSpec) :
      (params.map ParamSpec.name).Nodup →
      Turn (m.withState (freezeFunction decl params returns m.state).2)
  | assigned (name : String) (v : Value) :
      Turn (m.withState (assign m.state.activation.context name v m.state).2)
  /-- The running code binds a variable of its own, or a parameter is bound for a call. -/
  | bound {c : ContextId} (shared : Bool) (name : String) (v : Value) :
      c = m.state.activation.context ∨ (∃ rest, m.pending = .call c :: rest) →
      (∀ scope, m.state.scopes.innermost c = .ok scope →
        (m.state.scopes.frame scope).values.get? name = none) →
      (shared → ∃ rest, m.pending = .call c :: rest) →
      Turn (m.withState (bindNew c shared name v m.state).2)
  | opened : Turn m.openBlock
  | closed {c : ContextId} {scope : ScopeId} {rest : List Pending} :
      m.pending = .block c scope :: rest → m.state.scopes.popFault? c scope = none →
      Turn { m with
        state := { m.state with
          scopes := m.state.scopes.dropScope c scope m.state.memory.closure? }
        pending := rest }
  | called {r : FunctionRef} {f : Function} {c : ContextId} {s : State} :
      m.state.memory.function? r = some f → openCall r f m.state = (.ok c, s) →
      Turn (m.enterCall s c)
  | began {c : ContextId} {rest : List Pending} (unit : SourceUnit) (name : String) :
      m.pending = .call c :: rest → Turn (m.enterBody c unit name)
  | ended {caller : Activation} {depth : Nat} {rest : List Pending} :
      m.pending = .body caller depth :: rest →
      Turn { m with state := m.state.leave caller depth, pending := rest }
  | returned {c : ContextId} {rest : List Pending} {scopes : Arena Value} :
      m.pending = .call c :: rest → m.state.scopes.Open c → m.state.root ≠ c →
      m.state.activation.context ≠ c →
      m.state.scopes.releaseContext c m.state.memory.closure? = .ok scopes →
      Turn { m with state := { m.state with scopes := scopes }, pending := rest }
  /-- A module begins. -/
  | entered {s : State} {x : Running} : m.ModuleStep (m.enter s x) → Turn (m.enter s x)
  /-- A module ends, and its exports are computed. -/
  | completed {x : Running} {rest : List Pending} {exports : Bindings Value} :
      m.pending = .module x :: rest → m.state.exports x.ref = .ok exports →
      Turn (m.finish x exports rest)
  /-- An error leaves a module. -/
  | failed {x : Running} {rest : List Pending} (trace : List TraceFrame) :
      m.pending = .module x :: rest →
      Turn { m with
        state := { m.state.leave x.caller x.depth with lastTrace := trace }
        pending := rest }

variable {m} {m₁ m₂ m₃ m' : Moment}

/-- A turn is a step. -/
theorem Turn.step (h : m.Turn m') : m.Step m' := by
  cases h with
  | worked hworks => exact .worked hworks
  | collected hcollects => exact .collected hcollects
  | captured decl returns hparams => exact .captured decl returns hparams
  | assigned name v => exact .assigned name v
  | bound shared name v _ hnew hshared => exact .bound _ shared name v hnew hshared
  | opened => exact .opened
  | closed hpending hpop => exact .closed hpending hpop
  | called hf henter => exact .called hf henter
  | began unit name hpending => exact .began unit name hpending
  | ended hpending => exact .ended hpending
  | returned hpending hopen hroot hhere hrelease =>
      exact .returned hpending hopen hroot hhere hrelease
  | entered hstep => exact .module hstep
  | completed hpending _ => exact .module (.completed _ hpending)
  | failed trace hpending => exact .module (.failed trace hpending)

/-- Turns one after the other; all moments on the way are fit. -/
inductive Turns (m : Moment) : Moment → Prop where
  | refl : m.Fit → Turns m m
  | step {m₁ m₂ : Moment} : Turns m m₁ → m₁.Turn m₂ → m₂.Fit → Turns m m₂

namespace Turns

theorem first (h : m₁.Turns m₂) : m₁.Fit := by
  induction h with
  | refl h => exact h
  | step _ _ _ ih => exact ih

theorem last (h : m₁.Turns m₂) : m₂.Fit := by
  cases h with
  | refl h => exact h
  | step _ _ h => exact h

theorem trans (h₁ : m₁.Turns m₂) (h₂ : m₂.Turns m₃) : m₁.Turns m₃ := by
  induction h₂ with
  | refl _ => exact h₁
  | step _ hturn hfit ih => exact ih.step hturn hfit

theorem leads (h : m₁.Turns m₂) : m₁.Leads m₂ := by
  induction h with
  | refl hm => exact .refl hm
  | step _ hturn hfit ih => exact ih.step hturn.step hfit

end Turns

/-- One turn to a fit moment. -/
theorem Turn.turns (h : m.Turn m') (hm : m.Fit) (hm' : m'.Fit) : m.Turns m' :=
  .step (.refl hm) h hm'

end Moment

end Classlet
