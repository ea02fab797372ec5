import Classlet.Proofs.Evaluator.Calls

/-! # What holds whenever a program runs

`Reached` are the states in which the evaluator can be asked to do something while a program is
running: at any point in the middle of expressions, blocks, loops, handlers, calls and imports, at
any depth.  A `Query` is what only has an answer and effects on objects: an expression, a call, an
import, or a module that is run.  A `Task` is a query or code.

Every reached state is sound (`Reached.sound`), so that every task leaves the scope stacks, the
activation and the depth as it found them (`Reached.balanced`), and every query leaves all variables
alone (`Reached.isolated`). -/

namespace Classlet

open Eval

variable {α : Type}

/-! ### Queries and tasks -/

/-- What can be asked without naming a variable of the code that asks. -/
inductive Query where
  | expression (x : Expr)
  | call (callee : Value) (hasReceiver : Bool) (arguments : List Value) (keywords : KeywordValues)
  | importModule (target : ImportPath) (parent : Option ModuleRef)
  /-- Run statements as the module at a path. -/
  | evaluate (p : Path) (source : Option String) (statements : List Statement)
    (parent : Option ModuleRef)

namespace Query

def Answer : Query → Type
  | expression _ => Value
  | call .. => Value
  | importModule .. => ModuleRef
  | evaluate .. => ModuleRef

def run (e : Engine) : (q : Query) → Eval q.Answer
  | expression x => e.evalExpr x
  | call callee hasReceiver arguments keywords =>
    callValue e callee hasReceiver arguments keywords
  | importModule target parent => Classlet.importModule e target parent
  | evaluate p source statements parent => evaluateParsed e p source statements parent

end Query

/-- What the evaluator can be asked to do. -/
inductive Task where
  | query (q : Query)
  | statement (code : Statement)
  | statements (code : List Statement)

namespace Task

def Answer : Task → Type
  | query q => q.Answer
  | statement _ => Completion
  | statements _ => Completion

def run (e : Engine) : (t : Task) → Eval t.Answer
  | query q => q.run e
  | statement code => e.execStatement code
  | statements code => e.execStatements code

end Task

section tasks
variable (settings : Settings) (loader : Loader) (fuel : Nat)

theorem isolated_query : ∀ q : Query, Isolated (q.run (engine settings loader fuel))
  | .expression x => rules.closed.evalExpr (rules.engine settings loader fuel) x
  | .call callee hasReceiver arguments keywords =>
      rules.callValue (rules.engine settings loader fuel) callee hasReceiver arguments keywords
  | .importModule target parent =>
      isolated_importModule parent (rules.execStatements (rules.engine settings loader fuel)) target
  | .evaluate p source statements parent =>
      isolated_evaluateParsed p source parent
        (rules.execStatements (rules.engine settings loader fuel)) statements

theorem confined_task : ∀ t : Task,
    Confined Activation.context (t.run (engine settings loader fuel))
  | .query q => (isolated_query settings loader fuel q).confined
  | .statement code => rules.execStatement (rules.engine settings loader fuel) code
  | .statements code => rules.execStatements (rules.engine settings loader fuel) code

end tasks

/-! ### Reached states -/

/-- A state in which an activation begins. -/
def State.enter (s : State) (activation : Activation) : State :=
  { s with activation := activation, depth := s.depth + 1 }

/-- The states in which the evaluator does something while a program runs. -/
inductive Reached (settings : Settings) (loader : Loader) : State → Prop where
  | initial : Reached settings loader .initial
  /-- A part of the program has been run, whatever it ended with. -/
  | ran {s : State} (task : Task) (fuel : Nat) :
      Reached settings loader s →
      Reached settings loader (task.run (engine settings loader fuel) s).2
  /-- Objects have changed, or what is printed, kept, traced, loaded or let go of next. -/
  | changed {s s' : State} :
      Reached settings loader s →
      s'.scopes = s.scopes → s'.memory.closures = s.memory.closures → s'.gone = s.gone →
      s'.root = s.root → s'.activation = s.activation → s'.depth = s.depth →
      Reached settings loader s'
  | captured {s : State} (decl : FunctionDecl) (params : List ParamSpec)
      (returns : List TypeSpec) :
      Reached settings loader s →
      Reached settings loader (captureFunction decl params returns s).2
  | assigned {s : State} (name : String) (v : Value) :
      Reached settings loader s →
      Reached settings loader (assign s.activation.context name v s).2
  | defined {s : State} (name : String) (v : Value) :
      Reached settings loader s →
      Reached settings loader (define s.activation.context name v s).2
  /-- A block, a branch, a pass of a loop or a handler begins. -/
  | opened {s : State} :
      Reached settings loader s →
      Reached settings loader { s with scopes := (s.scopes.pushScope s.activation.context).2 }
  /-- The body of a function begins. -/
  | called {s s₁ s₂ : State} {r : FunctionRef} {f : Function} {c : ContextId}
      {hasReceiver : Bool} {arguments : List Value} {keywords : KeywordValues} :
      Reached settings loader s → s.memory.function? r = some f →
      enterContext r f s = (.ok c, s₁) →
      bindArguments f c hasReceiver arguments keywords s₁ = (.ok (), s₂) →
      Reached settings loader (s₂.enter ⟨c, f.unit, f.name, s₂.activation.module⟩)
  /-- The top level of a module begins. -/
  | entered {s s₁ : State} {p : Path} {source : Option String} {parent : Option ModuleRef}
      {r : ModuleRef} :
      Reached settings loader s → newModule p source parent s = (.ok r, s₁) →
      Reached settings loader (s₁.enter ⟨(s₁.memory.moduleInfo r).context,
        (s₁.memory.moduleInfo r).unit, moduleScope, some r⟩)

/-! ### The initial state is sound -/

theorem State.Sound.defineAll : ∀ (names : List (String × Value)) {s : State}, s.Sound →
    State.Sound { s with toStore := s.toStore.defineAll s.root names }
  | [], _, hs => hs
  | (name, v) :: more, s, hs => by
      have h := (Settles.define s.root name v hs hs.root.1).sound
      unfold Eval.define Eval.bindAt at h
      unfold Store.defineAll Store.define
      dsimp only at h ⊢
      cases hplace : s.toStore.newPlace s.root name with
      | ok scope =>
          rw [hplace] at h
          exact defineAll more h
      | error fault => exact defineAll more hs

theorem State.Sound.root_only {s : State} {base : ScopeId}
    (hexact : s.scopes.Exact {}) (hclosures : s.memory.closures = [])
    (hdropped : s.scopes.dropped = []) (hgone : s.gone = [])
    (hadds : Arena.Adds {} s.scopes s.root { scopes := [base], parent := none } [base])
    (hhere : s.activation.context = s.root) : s.Sound := by
  have hempty : ∀ d, ¬ ({} : Arena Value).InUse d := fun d hd => absurd hd.1 (Nat.not_lt_zero _)
  have hagree : ∀ d, (s.scopes.context d).parent = none ∧
      (s.scopes.context d).captured = false := by
    intro d
    by_cases he : d = s.root
    · rw [he]
      exact ⟨hadds.context_new.parent, hadds.context_new.captured⟩
    · exact ⟨(hadds.context_old d he).parent, (hadds.context_old d he).captured⟩
  have hroot : s.scopes.Open s.root :=
    ⟨(hadds.inUse s.root).mpr (.inl rfl), (hagree s.root).2⟩
  have hmentions : s.held ++ s.scopes.dropped = [] := by
    rw [State.held, Memory.held, hclosures, hdropped]
    rfl
  constructor
  case exact =>
    rw [hmentions]
    exact hexact
  case frozen =>
    intro c hc
    rw [hmentions] at hc
    cases hc
  case parent =>
    intro c p hp
    rw [(hagree c).1] at hp
    cases hp
  case stack_ne =>
    intro c hc
    rcases (hadds.inUse c).mp hc with rfl | hc
    · rw [hadds.context_new.scopes]
      exact List.cons_ne_nil _ _
    · exact absurd hc (hempty c)
  case root => exact hroot
  case here =>
    rw [hhere]
    exact hroot
  case gone_lt =>
    rw [hgone]
    exact fun _ hr => by cases hr

theorem sound_initial : State.initial.Sound := by
  obtain ⟨hexact, base, hadds⟩ :=
    Arena.openContext_spec (α := Value) .empty none fun p hp => by cases hp
  unfold State.initial
  generalize ({} : Arena Value).openContext none = opened at hexact hadds
  have hroot : State.Sound
      { memory := .initial
        scopes := opened.2
        root := opened.1
        activation := ⟨opened.1, ⟨"<prelude>", none⟩, moduleScope, none⟩ } :=
    .root_only hexact rfl hadds.dropped rfl hadds rfl
  exact hroot.defineAll (globals .initial)

/-! ### All reached states are sound -/

section entering
variable {s s₁ s₂ : State}

theorem State.Sound.enter (hs : s.Sound) {activation : Activation}
    (hopen : s.scopes.Open activation.context) : (s.enter activation).Sound :=
  { hs with here := hopen }

theorem State.Sound.called {r : FunctionRef} {f : Function} {c : ContextId} {hasReceiver : Bool}
    {arguments : List Value} {keywords : KeywordValues} (hs : s.Sound)
    (hf : s.memory.function? r = some f) (henter : enterContext r f s = (.ok c, s₁))
    (hbind : bindArguments f c hasReceiver arguments keywords s₁ = (.ok (), s₂)) :
    (s₂.enter ⟨c, f.unit, f.name, s₂.activation.module⟩).Sound := by
  obtain ⟨t, -, -, ⟨-, hrun⟩ | ⟨c', scopes, base, hrun, hsound, hadds⟩⟩ := enterContext_spec hs hf
  · rw [hrun] at henter
    cases henter
  · rw [hrun] at henter
    cases henter
    have hopen : scopes.Open c := ⟨(hadds.inUse c).mpr (.inl rfl), hadds.context_new.captured⟩
    have hbound := confined_bindArguments f c hasReceiver arguments keywords _ hsound hopen
    have hopen' := hbound.stays_open hopen
    rw [hbind] at hbound hopen'
    exact hbound.sound.enter hopen'

theorem State.Sound.openedModule {p : Path} {source : Option String} {parent : Option ModuleRef}
    {r : ModuleRef} (hs : s.Sound) (hnew : openModule p source parent s = (.ok r, s₁)) :
    (s₁.enter ⟨(s₁.memory.moduleInfo r).context, (s₁.memory.moduleInfo r).unit, moduleScope,
      some r⟩).Sound := by
  obtain ⟨r', s', hrun, hsettles, -, hopen, -⟩ := openModule_spec p source parent hs
  rw [hrun] at hnew hsettles
  cases hnew
  exact hsettles.sound.enter hopen

theorem State.Sound.entered {p : Path} {source : Option String} {parent : Option ModuleRef}
    {r : ModuleRef} (hs : s.Sound) (hnew : newModule p source parent s = (.ok r, s₁)) :
    (s₁.enter ⟨(s₁.memory.moduleInfo r).context, (s₁.memory.moduleInfo r).unit, moduleScope,
      some r⟩).Sound := by
  obtain ⟨_, t, hr, hnew⟩ := of_bind_ok hnew
  have hreclaim := isolated_reclaim s hs
  rw [hr] at hreclaim
  exact hreclaim.sound.openedModule hnew

end entering

variable {settings : Settings} {loader : Loader} {s : State}

theorem Reached.sound (h : Reached settings loader s) : s.Sound := by
  induction h with
  | initial => exact sound_initial
  | ran task fuel _ ih => exact (confined_task settings loader fuel task _ ih ih.here).sound
  | changed _ hscopes hclosures hgone hroot hactivation _ ih =>
      exact ih.of_scopes hscopes hclosures hgone hroot hactivation
  | captured decl params returns _ ih =>
      exact (isolated_captureFunction decl params returns _ ih).sound
  | assigned name v _ ih => exact (Settles.assign _ name v ih ih.here.1).sound
  | defined name v _ ih => exact (Settles.define _ name v ih ih.here.1).sound
  | opened _ ih => exact ih.pushScope ih.here
  | called _ hf henter hbind ih => exact ih.called hf henter hbind
  | entered _ hnew ih => exact ih.entered hnew

/-! ### Scopes and activations balance -/

/-- The contexts that can be got at without the functions in `gone`: those that have a stack of
their own, those that the other functions have captured, and the parents of these. -/
def State.Kept (s : State) (gone : List FunctionRef) (c : ContextId) : Prop :=
  s.scopes.Kept (s.memory.held gone) c

/-- The stacks of all contexts that can still be got at are as they were in `s`, the activation and
the depth are back, and the scopes were never found in disorder. -/
structure Balanced (s : State) (r : Outcome α × State) : Prop where
  inUse : ∀ c, s.Kept r.2.gone c → r.2.scopes.InUse c
  stack : ∀ c, s.Kept r.2.gone c →
    (r.2.scopes.context c).scopes = (s.scopes.context c).scopes
  activation : r.2.activation = s.activation
  depth : r.2.depth = s.depth
  noFault : ∀ fault, r.1 ≠ .stopped (.unbalanced fault)

/-- **Whatever is run, and however it ends, it leaves scopes and activations balanced.** -/
theorem Reached.balanced (h : Reached settings loader s) (task : Task) (fuel : Nat) :
    Balanced s (task.run (engine settings loader fuel) s) := by
  have hsettles := confined_task settings loader fuel task s h.sound h.sound.here
  exact
    { inUse := hsettles.scopes.inUse
      stack := fun c hc => (hsettles.scopes.context c hc).scopes
      activation := hsettles.activation
      depth := hsettles.depth
      noFault := hsettles.noFault }

/-- A block that an error leaves. -/
theorem balanced_raising_block : Reached {} (fun _ => .unknown) .initial ∧
    Balanced .initial (Task.run (engine {} (fun _ => .unknown) 1)
      (.statements [.mk 1 (.block [.mk 1 (.expression (.var "x"))] [])]) .initial) :=
  ⟨.initial, Reached.balanced .initial _ 1⟩

/-! ### Variables are left alone -/

/-- Between `s` and `t` nothing has changed but lists, instances, what is printed, kept, traced or
loaded, what is new, and what can no longer be got at. -/
structure Undisturbed (s t : State) : Prop where
  root : t.root = s.root
  activation : t.activation = s.activation
  depth : t.depth = s.depth
  /-- Classes, functions, bound methods and modules are as they were. -/
  memory : s.memory.Keeps t.memory
  inUse : ∀ c, s.Kept t.gone c → t.scopes.InUse c
  /-- Contexts have the same scopes and the same parent. -/
  context : ∀ c, s.Kept t.gone c → (t.scopes.context c).Agrees (s.scopes.context c)
  /-- Scopes have the same variables. -/
  values : ∀ c, s.Kept t.gone c → ∀ scope ∈ (s.scopes.context c).scopes,
    (t.scopes.frame scope).values = (s.scopes.frame scope).values

theorem Settles.disturbs_nothing {r : Outcome α × State} (h : Settles [] s r) :
    Undisturbed s r.2 where
  root := h.root
  activation := h.activation
  depth := h.depth
  memory := h.memory
  inUse := h.scopes.inUse
  context := h.scopes.context
  values c hc scope hm := h.scopes.values c hc scope hm List.not_mem_nil

/-- **Expressions, calls and imports change no variable that was there before.** -/
theorem Reached.undisturbed (h : Reached settings loader s) (q : Query) (fuel : Nat) :
    Undisturbed s (q.run (engine settings loader fuel) s).2 :=
  (isolated_query settings loader fuel q s h.sound).disturbs_nothing

/-- An import that fails. -/
theorem undisturbed_failed_import : Reached {} (fun _ => .text "x;") .initial ∧
    Undisturbed .initial (Query.run (engine {} (fun _ => .text "x;") 1)
      (.importModule (.relative "bad") none) .initial).2 :=
  ⟨.initial, Reached.undisturbed .initial _ 1⟩

/-- The context that a function has captured is freed once the function is let go of. -/
example :
    let inner : Statement := .mk 1 (.function (.mk "f" [] [] [] 1))
    let outer : Statement :=
      .mk 1 (.function (.mk "make" [] [] [inner, .mk 1 (.returnValues [.var "f"])] 1))
    let call : Statement := .mk 2 (.expression (.call (.var "make") [] []))
    let last (schedule : List (List FunctionRef)) : State :=
      ((Task.statements [outer, call, call]).run (engine {} (fun _ => .unknown) 4)
        { State.initial with schedule := schedule }).2
    (last []).scopes.InUse ⟨3⟩ ∧ ¬ (last [[], [], [], [], [⟨1⟩]]).scopes.InUse ⟨3⟩ := by
  decide +kernel

/-- The trace of the error that ended an import is kept. -/
theorem lastTrace_failed_import : State.initial.lastTrace = [] ∧
    (Query.run (engine {} (fun _ => .text "x;") 1)
      (.importModule (.relative "bad") none) .initial).2.lastTrace =
      [{ file := "bad.crv", line := 1, source := "x;", scope := moduleScope }] := by
  decide +kernel

end Classlet
