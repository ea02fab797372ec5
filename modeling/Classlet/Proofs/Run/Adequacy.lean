import Classlet.Proofs.Run.Calls

/-! # Modules, and all of a run

An import finds a kept module, or is refused, or runs a module (`Moment.Imports`).  A module that
runs begins with a scope and an activation of its own; at its end it is kept, or an error leaves it
(`Moment.Runs`).  `Moment.Fetches` and `Moment.Evaluates` say the same of turns.  With that
everything that the evaluator does is paced (`paced_rules`), and so is what the host asks for when
nothing runs (`Task.turns`). -/

namespace Classlet

open Eval

variable {α : Type} {m : Moment}

namespace Moment

/-! ### Modules that run -/

/-- What was dropped is reclaimed, and a module begins. -/
def Begins (m : Moment) (s₁ : State) (x : Running) : Prop :=
  ∃ t, m.state.Collects t ∧ (m.withState t).ModuleStep (m.enter s₁ x)

theorem Begins.leads {s₁ : State} {x : Running} (h : m.Begins s₁ x) (hm : m.Fit)
    (hfit : (m.enter s₁ x).Fit) : m.Leads (m.enter s₁ x) := by
  obtain ⟨t, hcollects, hstep⟩ := h
  have hm' : (m.withState t).Fit := State.Fit.collects hm hcollects
  exact ((Step.collected hcollects).leads hm hm').step (.module hstep) hfit

theorem Begins.turns {s₁ : State} {x : Running} (h : m.Begins s₁ x) (hm : m.Fit)
    (hfit : (m.enter s₁ x).Fit) : m.Turns (m.enter s₁ x) := by
  obtain ⟨t, hcollects, hstep⟩ := h
  exact (turns_collects hm hcollects).step (.entered hstep) hfit

/-- A module begins at a moment and runs.  In the end it is kept, or there is none. -/
inductive Runs (m : Moment) (x : Running) : Outcome ModuleRef × State → Prop where
  | kept {s₁ s : State} (exports : Bindings Value) :
      m.Begins s₁ x → (m.enter s₁ x).Leads ((m.enter s₁ x).withState s) →
      Runs m x (.ok x.ref, s.finish x exports)
  | lost {s₁ s : State} {o : Outcome ModuleRef} (trace : List TraceFrame) :
      m.Begins s₁ x → (m.enter s₁ x).Leads ((m.enter s₁ x).withState s) →
      (∀ r, o ≠ .ok r) →
      Runs m x (o, { s.leave x.caller x.depth with lastTrace := trace })

/-- An import of the module at a path. -/
inductive Imports (m : Moment) (p : Path) : Outcome ModuleRef × State → Prop where
  | found {r : ModuleRef} : m.state.cached? p = some r → Imports m p (.ok r, m.state)
  /-- It leads back to itself, or its source cannot be had or read. -/
  | refused {o : Outcome ModuleRef} {s : State} :
      m.state.cached? p = none → (∀ r, o ≠ .ok r) → m.state.Works s → Imports m p (o, s)
  | ran {x : Running} {r : Outcome ModuleRef × State} :
      m.state.cached? p = none → x.path = p → x.hosted = false → m.Runs x r → Imports m p r

/-- A module that has run took steps.  The host's modules are noted. -/
theorem Runs.leads {x : Running} {r : Outcome ModuleRef × State} (h : m.Runs x r) (hm : m.Fit)
    (hend : r.2.Sound) : ∃ hosted, (x.hosted = false → hosted = m.hosted) ∧
      m.Leads { m with state := r.2, hosted := hosted } := by
  cases h with
  | kept exports hbegins hrun =>
      have hfit := State.Fit.of_sound hrun.last hend rfl
      have hbegun := hbegins.leads hm hrun.first
      have hleads := hbegun.trans (hrun.step (.module (.completed exports rfl)) hfit)
      exact ⟨_, fun hx => if_neg (by simp [hx]), hleads⟩
  | lost trace hbegins hrun _ =>
      have hfit := State.Fit.of_sound hrun.last hend rfl
      have hbegun := hbegins.leads hm hrun.first
      have hleads := hbegun.trans (hrun.step (.module (.failed trace rfl)) hfit)
      exact ⟨m.hosted, fun _ => rfl, hleads⟩

theorem Imports.leads {p : Path} {r : Outcome ModuleRef × State} (h : m.Imports p r) (hm : m.Fit)
    (hend : r.2.Sound) : m.Leads (m.withState r.2) := by
  cases h with
  | found _ => exact .refl hm
  | refused _ _ hworks => exact (Step.worked hworks).leads hm (State.Fit.works hm hworks)
  | ran _ _ hx hrun =>
      obtain ⟨hosted, hhosted, hleads⟩ := hrun.leads hm hend
      rw [hhosted hx] at hleads
      exact hleads

/-- A module begins at a moment and runs, and gets the exports that its bindings call for if it is
kept. -/
inductive Evaluates (m : Moment) (x : Running) : Outcome ModuleRef × State → Prop where
  | kept {s₁ s : State} {exports : Bindings Value} :
      m.Begins s₁ x → (m.enter s₁ x).Turns ((m.enter s₁ x).withState s) →
      s.exports x.ref = .ok exports → Evaluates m x (.ok x.ref, s.finish x exports)
  | lost {s₁ s : State} {o : Outcome ModuleRef} (trace : List TraceFrame) :
      m.Begins s₁ x → (m.enter s₁ x).Turns ((m.enter s₁ x).withState s) →
      (∀ r, o ≠ .ok r) →
      Evaluates m x (o, { s.leave x.caller x.depth with lastTrace := trace })

/-- An import of the module at a path, turn by turn. -/
inductive Fetches (m : Moment) (p : Path) : Outcome ModuleRef × State → Prop where
  | found {r : ModuleRef} : m.state.cached? p = some r → Fetches m p (.ok r, m.state)
  | refused {o : Outcome ModuleRef} {s : State} :
      m.state.cached? p = none → (∀ r, o ≠ .ok r) → m.state.Works s → Fetches m p (o, s)
  | ran {x : Running} {r : Outcome ModuleRef × State} :
      m.state.cached? p = none → x.path = p → x.hosted = false → m.Evaluates x r → Fetches m p r

theorem Evaluates.runs {x : Running} {r : Outcome ModuleRef × State} (h : m.Evaluates x r) :
    m.Runs x r := by
  cases h with
  | kept hstep hrun _ => exact .kept _ hstep hrun.leads
  | lost trace hstep hrun ho => exact .lost trace hstep hrun.leads ho

theorem Fetches.imports {p : Path} {r : Outcome ModuleRef × State} (h : m.Fetches p r) :
    m.Imports p r := by
  cases h with
  | found hr => exact .found hr
  | refused hnone ho hworks => exact .refused hnone ho hworks
  | ran hnone hpath hx hrun => exact .ran hnone hpath hx hrun.runs

theorem Evaluates.turns {x : Running} {r : Outcome ModuleRef × State} (h : m.Evaluates x r)
    (hm : m.Fit) (hend : r.2.Sound) : ∃ hosted, (x.hosted = false → hosted = m.hosted) ∧
      m.Turns { m with state := r.2, hosted := hosted } := by
  cases h with
  | kept hbegins hrun hexports =>
      have hfit := State.Fit.of_sound hrun.last hend rfl
      have hbegun := hbegins.turns hm hrun.first
      have hturns := hbegun.trans (hrun.step (.completed rfl hexports) hfit)
      exact ⟨_, fun hx => if_neg (by simp [hx]), hturns⟩
  | lost trace hbegins hrun _ =>
      have hfit := State.Fit.of_sound hrun.last hend rfl
      have hbegun := hbegins.turns hm hrun.first
      exact ⟨m.hosted, fun _ => rfl, hbegun.trans (hrun.step (.failed trace rfl) hfit)⟩

theorem Fetches.turns {p : Path} {r : Outcome ModuleRef × State} (h : m.Fetches p r) (hm : m.Fit)
    (hend : r.2.Sound) : m.Turns (m.withState r.2) := by
  cases h with
  | found _ => exact .refl hm
  | refused _ _ hworks => exact (Turn.worked hworks).turns hm (State.Fit.works hm hworks)
  | ran _ _ hx hrun =>
      obtain ⟨hosted, hhosted, hturns⟩ := hrun.turns hm hend
      rw [hhosted hx] at hturns
      exact hturns

theorem Fit.enter {p : Path} {source : Option String} {parent : Option ModuleRef} {s s₁ : State}
    {x : Running} (hs : s.Fit) (hnew : openModule p source parent s = (.ok x.ref, s₁)) :
    (m.enter s₁ x).Fit := by
  have hfunctions : s₁.memory.functions = s.memory.functions :=
    (congrArg (fun r => r.2.memory.functions) hnew).symm
  exact hs.of_sound (hs.sound.openedModule hnew) hfunctions

/-- A module that the host evaluates begins. -/
theorem begins_evaluated (p : Path) (source : Option String) (parent : Option ModuleRef)
    (hm : m.Fit) (hidle : m.pending = []) : ∃ r s₁,
      newModule (Location.canonical p) source parent m.state = (.ok r, s₁) ∧
      m.Begins s₁ ⟨p, true, r, m.state.activation, m.state.depth⟩ ∧
      (m.enter s₁ ⟨p, true, r, m.state.activation, m.state.depth⟩).Fit := by
  obtain ⟨t, hreclaim, -⟩ := hm.sound.reclaim
  have hcollects : m.state.Collects t := .reclaimed hreclaim
  have ht := State.Fit.collects hm hcollects
  obtain ⟨r, s₁, hnew, -⟩ := openModule_spec (Location.canonical p) source parent ht.sound
  have hstep := ModuleStep.evaluated (m := m.withState t) hidle hnew
  refine ⟨r, s₁, (newModule_of_reclaim hreclaim).trans hnew, ⟨t, hcollects, ?_⟩, Fit.enter ht hnew⟩
  rw [← hcollects.trims.activation, ← hcollects.trims.depth]
  exact hstep

/-- A module that is imported begins when its source has been loaded. -/
theorem begins_imported {p : Path} (source : Option String) {parent : Option ModuleRef}
    (hm : m.Fit) (hparent : m.pending = [] ∨ parent = m.state.activation.module)
    (hcached : m.state.cached? p = none)
    (hchain : (parent.any fun r => m.state.memory.inImportChain r p) = false) : ∃ r s₁,
      newModule (Location.canonical p) source parent
        { m.state with loads := m.state.loads.push p } = (.ok r, s₁) ∧
      m.Begins s₁ ⟨p, false, r, m.state.activation, m.state.depth⟩ ∧
      (m.enter s₁ ⟨p, false, r, m.state.activation, m.state.depth⟩).Fit := by
  obtain ⟨t, ht, hsheds⟩ := hm.sound.reclaim
  have hcollects : m.state.Collects t := .reclaimed ht
  have hfit : t.Fit := State.Fit.collects hm hcollects
  have hloaded : State.Fit { t with loads := t.loads.push p } := hfit.works (t.works_load p)
  obtain ⟨r, s₁, hnew, -⟩ := openModule_spec (Location.canonical p) source parent hloaded.sound
  have hreclaim : reclaim { m.state with loads := m.state.loads.push p } =
      (.ok (), { t with loads := t.loads.push p }) := by
    rw [hcollects.trims.loads]
    exact State.reclaim_loads _ ht
  have hstep : (m.withState t).ModuleStep
      ((m.withState t).enter s₁ ⟨p, false, r, t.activation, t.depth⟩) := by
    refine .imported ?_ ?_ ?_ hnew
    · show _ ∨ parent = t.activation.module
      rw [hcollects.trims.activation]
      exact hparent
    · show (t.cache.find? _).map _ = none
      rw [hcollects.trims.cache]
      exact hcached
    · show (parent.any fun q => t.memory.inImportChain q p) = false
      rw [hcollects.trims.memory]
      exact hchain
  refine ⟨r, s₁, (newModule_of_reclaim hreclaim).trans hnew, ⟨t, hcollects, ?_⟩,
    Fit.enter hloaded hnew⟩
  rw [← hcollects.trims.activation, ← hcollects.trims.depth]
  exact hstep

/-- A module gets exports, or there is a cause against them. -/
theorem publish_cases (r : ModuleRef) (s : State) :
    (∃ exports, s.exports r = .ok exports ∧
      publish r s = (.ok (), { s with memory := s.memory.setExports r exports })) ∨
      ∃ cause, publish r s = (.raised (.ofCause cause), s) := by
  unfold publish
  dsimp only
  split
  · rename_i exports hexports
    exact .inl ⟨exports, hexports, rfl⟩
  · rename_i cause _
    exact .inr ⟨cause, rfl⟩

/-- What evaluating statements does once their module is made. -/
theorem evaluateParsed_of_newModule {e : Engine} {p : Path} {source : Option String}
    {parent : Option ModuleRef} {s s₁ : State} {r : ModuleRef} (statements : List Statement)
    (hnew : newModule (Location.canonical p) source parent s = (.ok r, s₁)) :
    evaluateParsed e p source statements parent s =
      (tracing (withActivation ⟨(s₁.memory.moduleInfo r).context, (s₁.memory.moduleInfo r).unit,
        moduleScope, some r⟩ (e.execStatements statements)) >>= fun _ => publish r >>= fun _ =>
          Eval.modify (fun s => s.keep (Location.canonical p) r) >>= fun _ => pure r) s₁ := by
  unfold evaluateParsed runModule
  simp only [bind_apply, hnew, readMemory]
  rcases tracing _ s₁ with ⟨_ | _ | _, s₂⟩
  · dsimp only
    rcases publish r s₂ with ⟨_ | _ | _, s₃⟩ <;> rfl
  · rfl
  · rfl

section modules
variable {e : Engine} (hbody : ∀ body, Paced (e.execStatements body))
include hbody

theorem evaluates_evaluateParsed {p : Path} {source : Option String} {parent : Option ModuleRef}
    {s s₁ : State} {r : ModuleRef} (hosted : Bool) (statements : List Statement) (hs : s.Sound)
    (hactivation : s.activation = m.state.activation) (hdepth : s.depth = m.state.depth)
    (hnew : newModule (Location.canonical p) source parent s = (.ok r, s₁))
    (hbegins : m.Begins s₁ ⟨p, hosted, r, m.state.activation, m.state.depth⟩)
    (hfit : (m.enter s₁ ⟨p, hosted, r, m.state.activation, m.state.depth⟩).Fit) :
    m.Evaluates ⟨p, hosted, r, m.state.activation, m.state.depth⟩
      (evaluateParsed e p source statements parent s) := by
  have hsettles := isolated_newModule (Location.canonical p) source parent s hs
  rw [hnew] at hsettles
  have hrun := hbody statements _ hfit
  have hended : withActivation ⟨(s₁.memory.moduleInfo r).context, (s₁.memory.moduleInfo r).unit,
      moduleScope, some r⟩ (e.execStatements statements) s₁ =
      ((e.execStatements statements (m.enter s₁ ⟨p, hosted, r, m.state.activation,
        m.state.depth⟩).state).1,
        (e.execStatements statements (m.enter s₁ ⟨p, hosted, r, m.state.activation,
        m.state.depth⟩).state).2.leave m.state.activation m.state.depth) := by
    rw [← hactivation, ← hdepth, ← hsettles.activation, ← hsettles.depth]
    rfl
  rw [evaluateParsed_of_newModule statements hnew]
  unfold Moment.after at hrun
  rcases hexec : e.execStatements statements
    (m.enter s₁ ⟨p, hosted, r, m.state.activation, m.state.depth⟩).state with ⟨o, s₂⟩
  rw [hexec] at hrun hended
  cases o with
  | ok completion =>
      rw [bind_apply, tracing, hended]
      dsimp only
      rw [bind_apply]
      rcases publish_cases r (s₂.leave m.state.activation m.state.depth) with
        ⟨exports, hexports, hpublish⟩ | ⟨cause, hpublish⟩
      · rw [hpublish]
        exact .kept hbegins hrun hexports
      · rw [hpublish]
        exact .lost s₂.lastTrace hbegins hrun fun _ h => by cases h
  | raised error =>
      rw [bind_apply, tracing, hended]
      exact .lost error.trace hbegins hrun fun _ h => by cases h
  | stopped why =>
      rw [bind_apply, tracing, hended]
      exact .lost s₂.lastTrace hbegins hrun fun _ h => by cases h

/-- The running code imports for the module that is running, the host for any module. -/
theorem fetches_importNew {p : Path} {parent : Option ModuleRef} (hm : m.Fit)
    (hparent : m.pending = [] ∨ parent = m.state.activation.module)
    (hcached : m.state.cached? p = none) : m.Fetches p (importNew e p parent m.state) := by
  unfold importNew
  rw [bind_apply, readMemory]
  dsimp only
  cases hchain : parent.any fun r => m.state.memory.inImportChain r p with
  | true => exact .refused hcached (fun _ h => by cases h) (.refl m.state)
  | false =>
      have hworks := m.state.works_load p
      have hfit := State.Fit.works hm hworks
      rw [if_neg Bool.false_ne_true, bind_apply, load, bind_apply, Eval.modify]
      dsimp only
      cases hsource : e.loader p with
      | failure reason => exact .refused hcached (fun _ h => by cases h) hworks
      | unknown => exact .refused hcached (fun _ h => by cases h) hworks
      | text source =>
          show m.Fetches p (evaluateSource e p source parent _)
          unfold evaluateSource
          cases parse source with
          | ok statements =>
              obtain ⟨r, s₁, hnew, hbegins, hbegun⟩ :=
                begins_imported (some source) hm hparent hcached hchain
              exact .ran hcached rfl rfl (evaluates_evaluateParsed hbody false statements
                hfit.sound rfl rfl hnew hbegins hbegun)
          | error errors => exact .refused hcached (fun _ h => by cases h) hworks

theorem fetches_importModule {p : Path} (target : ImportPath) {parent : Option ModuleRef}
    (hm : m.Fit) (hparent : m.pending = [] ∨ parent = m.state.activation.module)
    (hp : importPath e target parent m.state = (.ok p, m.state)) :
    m.Fetches p (importModule e target parent m.state) := by
  unfold importModule
  rw [bind_apply, hp]
  dsimp only
  rw [bind_apply, Eval.read]
  cases hcached : m.state.cached? p with
  | some r => exact .found hcached
  | none => exact fetches_importNew hbody hm hparent hcached

theorem imports_importModule {p : Path} (target : ImportPath) {parent : Option ModuleRef}
    (hm : m.Fit) (hparent : m.pending = [] ∨ parent = m.state.activation.module)
    (hp : importPath e target parent m.state = (.ok p, m.state)) :
    m.Imports p (importModule e target parent m.state) :=
  (fetches_importModule hbody target hm hparent hp).imports

end modules

end Moment

/-! ### Classes -/

theorem Memory.signatures_foldl_setOwner (c : ClassRef) : ∀ (fs : List FunctionRef) (k : Memory),
    (fs.foldl (fun k f => k.setOwner c f) k).signatures = k.signatures ∧
      (fs.foldl (fun k f => k.setOwner c f) k).modules = k.modules ∧
      (fs.foldl (fun k f => k.setOwner c f) k).instances = k.instances ∧
      (fs.foldl (fun k f => k.setOwner c f) k).classes = k.classes
  | [], _ => ⟨rfl, rfl, rfl, rfl⟩
  | f :: fs, k => by
      rw [List.foldl_cons]
      obtain ⟨hsignatures, hsame⟩ := signatures_foldl_setOwner c fs (k.setOwner c f)
      refine ⟨hsignatures.trans ?_, hsame⟩
      unfold signatures setOwner
      refine List.ext_getElem (by simp) fun i h₁ h₂ => ?_
      simp only [List.getElem_map, Array.getElem_toList, Array.getElem_modify]
      split <;> rfl

theorem paced_makeClass (name : String) (body : ClassBody) (isStruct : Bool)
    (base : Option ClassRef) : Paced (makeClass name body isStruct base) := by
  refine paced_of_works fun s => ?_
  unfold makeClass
  split
  · rename_i c memory hc
    obtain ⟨hkeeps, hfunctions, hmodules, hinstances⟩ := Memory.newClass_spec hc
    obtain ⟨hsignatures, hmodules', hinstances', hclasses⟩ :=
      memory.signatures_foldl_setOwner c body.functions
    refine .of_memory (hsignatures.trans ?_) (hmodules'.trans hmodules)
      (hclasses ▸ hkeeps.classes) ?_
    · rw [Memory.signatures, hfunctions]
      rfl
    · exact fun hk => .of_instances hk (hinstances'.trans hinstances)
  · exact .refl s

/-! ### All of a run -/

theorem paced_importModule {e : Engine} (target : ImportPath)
    (hconfined : ∀ body, Confined Activation.context (e.execStatements body))
    (hbody : ∀ body, Paced (e.execStatements body)) :
    Paced (Eval.read (fun s => s.activation.module) >>= importModule e target) := by
  intro m hm
  have hfetches := Moment.fetches_importModule hbody target hm (.inr rfl) rfl
  exact hfetches.turns hm (isolated_importModule _ hconfined target m.state hm.sound).sound

theorem paced_rules : Eval.Rules (fun _ x => Isolated x ∧ Paced x)
    (fun _ x => Confined Activation.context x ∧ Paced x) where
  closed := isolated_closed.and paced_closed
  weaken hx := ⟨hx.1.confined, hx.2⟩
  andThen hx hf := ⟨hx.1.andThen fun a ha => (hf a ha).1, hx.2.andThen fun a ha => (hf a ha).2⟩
  assign name v := ⟨rules.assign name v, paced_assign name v⟩
  inNewScope hx := ⟨hx.1.inNewScope, paced_inNewScope hx.1 hx.2⟩
  withVariable name v _ hbody :=
    ⟨hbody.1.withVariable name v, paced_withVariable name v hbody.1 hbody.2⟩
  recording statement _ hx := ⟨rules.recording statement hx.1, paced_recording statement hx.2⟩
  throwValue v := ⟨rules.throwValue v,
    paced_closed.throwValue (fun _ => paced_of_same fun _ => rfl) v⟩
  handling hx hhandler := ⟨hx.1.handling (hhandler.mono fun _ hy => hy.1),
    paced_handling hx.2 (hhandler.mono fun _ hy => hy.2)⟩
  callReference e r hasReceiver arguments keywords hbody :=
    ⟨rules.callReference e r hasReceiver arguments keywords fun body => (hbody body).1,
      paced_callReference (fun body => (hbody body).1) (fun body => (hbody body).2) r hasReceiver
        arguments keywords⟩
  makeClass e name members isStruct base he := by
    have hclosed := isolated_closed.and paced_closed
    have hmembers := hclosed.defineMembers he name {} members
    have hisolated : e.Satisfies Isolated := he.mono fun _ h => h.1
    exact ⟨isolated_makeClass hisolated name members isStruct base,
      hmembers.2.andThen fun body _ => paced_makeClass name body isStruct base⟩
  importModule e target hbody :=
    ⟨rules.importModule e target fun body => (hbody body).1,
      paced_importModule target (fun body => (hbody body).1) fun body => (hbody body).2⟩

/-- What can be asked for at a moment.  The running code imports for the module that is running; the
host imports for any module and evaluates modules, when nothing runs. -/
def Task.Allowed (m : Moment) : Task → Prop
  | .query (.importModule _ parent) => m.pending = [] ∨ parent = m.state.activation.module
  | .query (.evaluate ..) => m.pending = []
  | _ => True

section tasks
variable (settings : Settings) (loader : Loader) (fuel : Nat)

theorem paced_execStatements (body : List Statement) :
    Paced ((engine settings loader fuel).execStatements body) :=
  (paced_rules.execStatements (paced_rules.engine settings loader fuel) body).2

/-- **Every task takes turns**, from every fit moment at which it can be asked for. -/
theorem Task.turns (hm : m.Fit) : ∀ task : Task, task.Allowed m →
    ∃ hosted, m.Turns
      { m with state := (task.run (engine settings loader fuel) m.state).2, hosted := hosted }
  | .query (.expression x), _ =>
      ⟨_, (paced_rules.closed.evalExpr (paced_rules.engine settings loader fuel) x).2 m hm⟩
  | .query (.call callee hasReceiver arguments keywords), _ =>
      ⟨_, (paced_rules.callValue (paced_rules.engine settings loader fuel) callee hasReceiver
        arguments keywords).2 m hm⟩
  | .query (.importModule target parent), hallowed => by
      have hfetches := Moment.fetches_importModule
        (paced_execStatements settings loader fuel) target hm hallowed rfl
      have hsound := (isolated_query settings loader fuel (.importModule target parent) m.state
        hm.sound).sound
      exact ⟨_, hfetches.turns hm hsound⟩
  | .query (.evaluate p source code parent), hallowed => by
      obtain ⟨r, s₁, hnew, hbegins, hbegun⟩ := Moment.begins_evaluated p source parent hm hallowed
      have hevaluates := Moment.evaluates_evaluateParsed
        (paced_execStatements settings loader fuel) true code hm.sound rfl rfl hnew hbegins hbegun
      have hsound := (isolated_query settings loader fuel (.evaluate p source code parent)
        m.state hm.sound).sound
      obtain ⟨hosted, -, hturns⟩ := hevaluates.turns hm hsound
      exact ⟨hosted, hturns⟩
  | .statement code, _ =>
      ⟨_, (paced_rules.execStatement (paced_rules.engine settings loader fuel) code).2 m hm⟩
  | .statements code, _ => ⟨_, paced_execStatements settings loader fuel code m hm⟩

theorem Task.leads (hm : m.Fit) (task : Task) (hallowed : task.Allowed m) :
    ∃ hosted, m.Leads
      { m with state := (task.run (engine settings loader fuel) m.state).2, hosted := hosted } := by
  obtain ⟨hosted, hturns⟩ := task.turns settings loader fuel hm hallowed
  exact ⟨hosted, hturns.leads⟩

/-- What the host asks of an interpreter on which nothing runs. -/
inductive HostCall where
  | evaluate (p : Path) (source : String) (parent : Option ModuleRef)
  | evaluateParsed (p : Path) (source : Option String) (code : List Statement)
    (parent : Option ModuleRef)
  | importModule (target : ImportPath) (parent : Option ModuleRef)

def HostCall.run (e : Engine) : HostCall → Eval ModuleRef
  | evaluate p source parent => evaluateSource e p source parent
  | evaluateParsed p source code parent => Classlet.evaluateParsed e p source code parent
  | importModule target parent => Classlet.importModule e target parent

/-- What the host asks for takes turns. -/
theorem HostCall.turns (hm : m.Fit) (hidle : m.pending = []) : ∀ call : HostCall,
    ∃ hosted, m.Turns
      { m with state := (call.run (engine settings loader fuel) m.state).2, hosted := hosted }
  | evaluateParsed p source code parent =>
      Task.turns settings loader fuel hm (.query (.evaluate p source code parent)) hidle
  | importModule target parent =>
      Task.turns settings loader fuel hm (.query (.importModule target parent)) (.inl hidle)
  | evaluate p source parent => by
      unfold run evaluateSource
      dsimp only
      cases parse source with
      | ok code =>
          exact Task.turns settings loader fuel hm (.query (.evaluate p (some source) code parent))
            hidle
      | error errors => exact ⟨m.hosted, .refl hm⟩

theorem HostCall.leads (hm : m.Fit) (hidle : m.pending = []) (call : HostCall) :
    ∃ hosted, m.Leads
      { m with state := (call.run (engine settings loader fuel) m.state).2, hosted := hosted } := by
  obtain ⟨hosted, hturns⟩ := call.turns settings loader fuel hm hidle
  exact ⟨hosted, hturns.leads⟩

end tasks

/-! ### The first moment -/

/-- The moment before anything has run. -/
def Moment.start : Moment := { state := .initial }

theorem Moment.fit_start : Moment.start.Fit where
  sound := sound_initial
  params := by
    have hnone : State.initial.memory.signatures = [] := by decide +kernel
    show ∀ f ∈ State.initial.memory.signatures, _
    rw [hnone]
    intro f hf
    cases hf

end Classlet
