import Classlet.Proofs.Evaluator.Reached
import Classlet.Proofs.Memory.Structs

/-! # The moments of a run

A `Moment` is where a run stands: the state, and the work that has begun and has to be ended, the
innermost first (`Pending`).  `Step` is what can happen next:

* objects are made or changed, something is printed, loaded or traced (`worked`);
* functions are let go of, or dropped closures are reclaimed (`collected`);
* a function captures the scopes that it sees (`captured`);
* the running code assigns to a name, or a name is bound that its scope does not have yet;
* a block, a call, the body of a function or a module begins or ends.

Every step does one thing to scopes, activations and kept modules, so that what holds of a run is
shown step by step.  That whatever is run is made of these steps is shown in
`Classlet.Proofs.Run.Adequacy`.  The moments of interest are those in which the scopes are in order
and no function has two parameters of one name (`State.Fit`). -/

namespace Classlet

open Eval

/-! ### States -/

/-- What the functions capture, and the parameters that they bind. -/
def Memory.signatures (m : Memory) : List (ContextId × List ParamSpec) :=
  m.functions.toList.map fun f => (f.closure, f.params)

theorem Memory.closures_eq_signatures (m : Memory) : m.closures = m.signatures.map (·.1) := by
  simp [Memory.closures, Memory.signatures]

theorem Memory.mem_signatures {m : Memory} {r : FunctionRef} {f : Function}
    (h : m.function? r = some f) : (f.closure, f.params) ∈ m.signatures := by
  refine List.mem_map_of_mem (f := fun f : Function => (f.closure, f.params)) ?_
  rw [Array.mem_toList_iff]
  exact Array.mem_of_getElem? h

/-- The scopes are in order, and the parameters of every function have different names. -/
structure State.Fit (s : State) : Prop where
  sound : s.Sound
  params : ∀ f ∈ s.memory.signatures, (f.2.map ParamSpec.name).Nodup

/-- Nothing has changed but objects, and what is printed, traced, loaded or let go of next. -/
structure State.Works (s s' : State) : Prop where
  scopes : s'.scopes = s.scopes
  gone : s'.gone = s.gone
  root : s'.root = s.root
  activation : s'.activation = s.activation
  depth : s'.depth = s.depth
  cache : s'.cache = s.cache
  signatures : s'.memory.signatures = s.memory.signatures
  modules : s'.memory.modules = s.memory.modules
  classes : s.memory.classes.toList <+: s'.memory.classes.toList
  objects : s.memory.Nests → s.memory.Evolves s'.memory
  loads : s.loads.toList <+: s'.loads.toList

theorem State.Works.of_same {s s' : State} (hstore : s'.toStore = s.toStore)
    (hgone : s'.gone = s.gone) (hroot : s'.root = s.root)
    (hactivation : s'.activation = s.activation) (hdepth : s'.depth = s.depth)
    (hcache : s'.cache = s.cache) (hloads : s.loads.toList <+: s'.loads.toList) : s.Works s' := by
  have hmemory : s'.memory = s.memory := congrArg Store.memory hstore
  refine ⟨congrArg Store.scopes hstore, hgone, hroot, hactivation, hdepth, hcache, ?_, ?_, ?_, ?_,
    hloads⟩
  · rw [hmemory]
  · rw [hmemory]
  · rw [hmemory]
  · intro hk
    exact .of_instances hk (by rw [hmemory])

theorem State.Works.refl (s : State) : s.Works s :=
  .of_same rfl rfl rfl rfl rfl rfl List.prefix_rfl

theorem State.Works.of_memory {s : State} {memory : Memory}
    (hsignatures : memory.signatures = s.memory.signatures)
    (hmodules : memory.modules = s.memory.modules)
    (hclasses : s.memory.classes.toList <+: memory.classes.toList)
    (hobjects : s.memory.Nests → s.memory.Evolves memory) : s.Works { s with memory := memory } :=
  ⟨rfl, rfl, rfl, rfl, rfl, rfl, hsignatures, hmodules, hclasses, hobjects, List.prefix_rfl⟩

/-- Asking the loader is noted, and changes nothing else. -/
theorem State.works_load (s : State) (p : Path) : s.Works { s with loads := s.loads.push p } :=
  .of_same rfl rfl rfl rfl rfl rfl (Memory.prefix_push s.loads p)

/-- An instance is made whose fields hold no struct values. -/
theorem State.works_newInstance (s : State) (c : ClassRef) {fields : Bindings Value}
    (hfields : ∀ p ∈ fields, p.2.isStruct = false) :
    s.Works { s with memory := (s.memory.newInstance c fields).2 } := by
  refine .of_memory rfl rfl List.prefix_rfl fun hk => ?_
  have hgrows : s.memory.Grows s.memory fields.structs := by
    rw [Bindings.structs_eq_nil hfields]
    exact .refl s.memory
  exact .of_grows (hgrows.pushInstance (j := (s.memory.newInstance c fields).1) rfl) hk

theorem State.Fit.works {s s' : State} (h : s.Fit) (hworks : s.Works s') : s'.Fit where
  sound := by
    refine h.sound.of_scopes hworks.scopes ?_ hworks.gone hworks.root hworks.activation
    rw [Memory.closures_eq_signatures, hworks.signatures, ← Memory.closures_eq_signatures]
  params := by
    rw [hworks.signatures]
    exact h.params

theorem State.Fit.collects {s s' : State} (h : s.Fit) (hcollects : s.Collects s') : s'.Fit where
  sound := (hcollects.sheds h.sound).sound
  params := by
    rw [hcollects.trims.memory]
    exact h.params

theorem State.Fit.of_sound {s s' : State} (h : s.Fit) (hsound : s'.Sound)
    (hfunctions : s'.memory.functions = s.memory.functions) : s'.Fit where
  sound := hsound
  params := by
    rw [Memory.signatures, hfunctions]
    exact h.params

/-- Bind a name in the innermost scope of a context, with or without copying. -/
def Eval.bindNew (c : ContextId) (shared : Bool) (name : String) (v : Value) : Eval Unit :=
  if shared then defineShared c name v else define c name v

/-- A state in which an activation has ended. -/
def State.leave (s : State) (activation : Activation) (depth : Nat) : State :=
  { s with activation := activation, depth := depth }

/-! ### Moments -/

/-- A module that is being evaluated. -/
structure Running where
  /-- The path under which it was asked for. -/
  path : Path
  /-- Whether the host evaluates it; otherwise it is imported. -/
  hosted : Bool
  ref : ModuleRef
  /-- What goes on at its end, and how deep. -/
  caller : Activation
  depth : Nat

/-- Work that has begun and has to be ended. -/
inductive Pending where
  /-- A scope was pushed. -/
  | block (context : ContextId) (scope : ScopeId)
  /-- A context was opened for a call. -/
  | call (context : ContextId)
  /-- The body of a function runs in the context that was opened for it. -/
  | body (caller : Activation) (depth : Nat)
  | module (x : Running)

/-- The module that is being evaluated, if that is the work. -/
def Pending.running? : Pending → Option Running
  | module x => some x
  | _ => none

/-- Where a run stands. -/
structure Moment where
  state : State
  /-- The work that has begun, the innermost first. -/
  pending : List Pending := []
  /-- The paths of the modules that the host has evaluated to the end, the latest first. -/
  hosted : List Path := []

/-- The state after a module has run to the end and is kept. -/
def State.finish (s : State) (x : Running) (exports : Bindings Value) : State :=
  let s := s.leave x.caller x.depth
  State.keep { s with memory := s.memory.setExports x.ref exports } (Location.canonical x.path)
    x.ref

namespace Moment

/-- The modules that are being evaluated, the innermost first. -/
def running (m : Moment) : List Running := m.pending.filterMap Pending.running?

def Fit (m : Moment) : Prop := m.state.Fit

/-- A moment at which only the state has changed. -/
def withState (m : Moment) (s : State) : Moment := { m with state := s }

/-- The moment at which a scope has been pushed for a block of the running code. -/
def openBlock (m : Moment) : Moment :=
  let c := m.state.activation.context
  { m with
    state := { m.state with scopes := (m.state.scopes.pushScope c).2 }
    pending := .block c (m.state.scopes.pushScope c).1 :: m.pending }

/-- The moment at which a context has been opened for a call. -/
def enterCall (m : Moment) (s : State) (c : ContextId) : Moment :=
  { m with state := s, pending := .call c :: m.pending }

/-- The moment at which the body of a function begins in a context.  The module that is running
stays the same. -/
def enterBody (m : Moment) (c : ContextId) (unit : SourceUnit) (name : String) : Moment :=
  { m with
    state := m.state.enter ⟨c, unit, name, m.state.activation.module⟩
    pending := .body m.state.activation m.state.depth :: m.pending }

/-- The moment at which the top level of a new module begins. -/
def enter (m : Moment) (s : State) (x : Running) : Moment :=
  { m with
    state := s.enter ⟨(s.memory.moduleInfo x.ref).context, (s.memory.moduleInfo x.ref).unit,
      moduleScope, some x.ref⟩
    pending := .module x :: m.pending }

/-- The moment at which a module has run to the end. -/
def finish (m : Moment) (x : Running) (exports : Bindings Value) (rest : List Pending) : Moment :=
  { state := m.state.finish x exports
    pending := rest
    hosted := if x.hosted then Location.canonical x.path :: m.hosted else m.hosted }

variable (m : Moment)

/-- What can happen to modules at a moment. -/
inductive ModuleStep : Moment → Prop where
  /-- A module that is not kept and does not lead back to itself is loaded, and begins.  The
  running code imports for the module that is running, the host for any module. -/
  | imported {p : Path} {source : Option String} {parent : Option ModuleRef} {r : ModuleRef}
      {s : State} :
      m.pending = [] ∨ parent = m.state.activation.module →
      m.state.cached? p = none →
      (parent.any fun q => m.state.memory.inImportChain q p) = false →
      openModule (Location.canonical p) source parent
        { m.state with loads := m.state.loads.push p } = (.ok r, s) →
      ModuleStep (m.enter s ⟨p, false, r, m.state.activation, m.state.depth⟩)
  /-- The host evaluates a module when nothing else runs. -/
  | evaluated {p : Path} {source : Option String} {parent : Option ModuleRef} {r : ModuleRef}
      {s : State} :
      m.pending = [] → openModule (Location.canonical p) source parent m.state = (.ok r, s) →
      ModuleStep (m.enter s ⟨p, true, r, m.state.activation, m.state.depth⟩)
  | completed {x : Running} {rest : List Pending} (exports : Bindings Value) :
      m.pending = .module x :: rest → ModuleStep (m.finish x exports rest)
  /-- An error leaves a module. -/
  | failed {x : Running} {rest : List Pending} (trace : List TraceFrame) :
      m.pending = .module x :: rest →
      ModuleStep { m with
        state := { m.state.leave x.caller x.depth with lastTrace := trace }
        pending := rest }

/-- What can happen at a moment. -/
inductive Step : Moment → Prop where
  | worked {s : State} : m.state.Works s → Step (m.withState s)
  /-- What nothing refers to any more is given up. -/
  | collected {s : State} : m.state.Collects s → Step (m.withState s)
  | captured (decl : FunctionDecl) {params : List ParamSpec} (returns : List TypeSpec) :
      (params.map ParamSpec.name).Nodup →
      Step (m.withState (freezeFunction decl params returns m.state).2)
  | assigned (name : String) (v : Value) :
      Step (m.withState (assign m.state.activation.context name v m.state).2)
  /-- A parameter, a loop variable or an exception is bound.  Only the receiver of a call is bound
  without copying. -/
  | bound (c : ContextId) (shared : Bool) (name : String) (v : Value) :
      (∀ scope, m.state.scopes.innermost c = .ok scope →
        (m.state.scopes.frame scope).values.get? name = none) →
      (shared → ∃ rest, m.pending = .call c :: rest) →
      Step (m.withState (bindNew c shared name v m.state).2)
  /-- A block, a branch, a pass of a loop or a handler begins. -/
  | opened : Step m.openBlock
  | closed {c : ContextId} {scope : ScopeId} {rest : List Pending} :
      m.pending = .block c scope :: rest → m.state.scopes.popFault? c scope = none →
      Step { m with
        state := { m.state with
          scopes := m.state.scopes.dropScope c scope m.state.memory.closure? }
        pending := rest }
  /-- A context is opened behind the scopes of a function. -/
  | called {r : FunctionRef} {f : Function} {c : ContextId} {s : State} :
      m.state.memory.function? r = some f → openCall r f m.state = (.ok c, s) →
      Step (m.enterCall s c)
  | began {c : ContextId} {rest : List Pending} (unit : SourceUnit) (name : String) :
      m.pending = .call c :: rest → Step (m.enterBody c unit name)
  | ended {caller : Activation} {depth : Nat} {rest : List Pending} :
      m.pending = .body caller depth :: rest →
      Step { m with state := m.state.leave caller depth, pending := rest }
  | returned {c : ContextId} {rest : List Pending} {scopes : Arena Value} :
      m.pending = .call c :: rest → m.state.scopes.Open c → m.state.root ≠ c →
      m.state.activation.context ≠ c →
      m.state.scopes.releaseContext c m.state.memory.closure? = .ok scopes →
      Step { m with state := { m.state with scopes := scopes }, pending := rest }
  /-- A module begins, or ends. -/
  | module {m' : Moment} : m.ModuleStep m' → Step m'

/-! ### Trails -/

variable {m : Moment}

/-- Steps one after the other, with a property of every moment on the way. -/
inductive Trail (P : Moment → Prop) (m : Moment) : Moment → Prop where
  | refl : P m → Trail P m m
  | step {m₁ m₂ : Moment} : Trail P m m₁ → m₁.Step m₂ → P m₂ → Trail P m m₂

/-- The moment `m'` comes after `m`, and all moments on the way are fit. -/
abbrev Leads (m m' : Moment) : Prop := Trail Fit m m'

namespace Trail

variable {P Q : Moment → Prop} {m₁ m₂ m₃ : Moment}

theorem first (h : Trail P m₁ m₂) : P m₁ := by
  induction h with
  | refl h => exact h
  | step _ _ _ ih => exact ih

theorem last (h : Trail P m₁ m₂) : P m₂ := by
  cases h with
  | refl h => exact h
  | step _ _ h => exact h

theorem trans (h₁ : Trail P m₁ m₂) (h₂ : Trail P m₂ m₃) : Trail P m₁ m₃ := by
  induction h₂ with
  | refl _ => exact h₁
  | step _ hstep hP ih => exact ih.step hstep hP

/-- What every step keeps is kept along a trail. -/
theorem keeps (h : Trail P m₁ m₂)
    (hstep : ∀ {m m' : Moment}, P m → m.Step m' → P m' → Q m → Q m') (hQ : Q m₁) : Q m₂ := by
  induction h with
  | refl _ => exact hQ
  | step htrail hs hP ih => exact hstep htrail.last hs hP ih

end Trail

theorem Step.leads {m' : Moment} (h : m.Step m') (hm : m.Fit) (hm' : m'.Fit) : m.Leads m' :=
  .step (.refl hm) h hm'

end Moment

end Classlet
