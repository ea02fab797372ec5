import Classlet.Proofs.Error.Origin

/-! # One trace frame for each activation

An error takes a statement into its trace when it leaves it, unless the last one that it took was
met at the same depth.  The depth is the number of activations that wait, so that this is one
statement of each activation: the innermost one, which the error leaves first.

`Scene.Accounts` says how far the trace has come when an error leaves a computation, and it holds
wherever the error was raised (`Raises.accounts`).  When the error has left a statement of a scene,
its trace describes the activations that were running when it was raised, out to the activation of
that scene (`Scene.Traced`). -/

namespace Classlet

open Eval

variable {α : Type} {m : Scene}

/-- A frame of a trace tells where an activation stands. -/
structure TraceFrame.Describes (frame : TraceFrame) (x : Site) : Prop where
  file : frame.file = x.activation.unit.name
  scope : frame.scope = x.activation.scope
  /-- The line of the innermost statement that is being executed. -/
  line : x.statements.head?.map Statement.line = some frame.line

/-! ### Statements are recorded -/

theorem RuntimeError.recordedDepth_record (error : RuntimeError) (depth : Nat)
    (frame : TraceFrame) : (error.record depth frame).recordedDepth = some depth := by
  unfold record
  split
  · assumption
  · rfl

section statements
variable {e : Engine} {s s' : State} {error : RuntimeError}

/-- An error that leaves a statement has been recorded at its depth. -/
theorem recordedDepth_execStatement {st : Statement}
    (h : e.execStatement st s = (.raised error, s')) : error.recordedDepth = some s'.depth := by
  cases st with
  | mk line kind =>
      rw [Engine.execStatement] at h
      obtain ⟨error₁, -, rfl⟩ := of_recording_raised h
      exact RuntimeError.recordedDepth_record _ _ _

theorem recordedDepth_execStatements : ∀ {code : List Statement} {s : State},
    e.execStatements code s = (.raised error, s') → error.recordedDepth = some s'.depth
  | [], s, h => by
      rw [Engine.execStatements] at h
      cases h
  | st :: more, s, h => by
      rw [Engine.execStatements] at h
      dsimp only at h
      rcases hst : e.execStatement st s with ⟨(_ | _ | v) | error' | why, s₁⟩
      · rw [hst] at h
        exact recordedDepth_execStatements h
      · rw [hst] at h
        cases h
      · rw [hst] at h
        cases h
      · rw [hst] at h
        cases h
        exact recordedDepth_execStatement hst
      · rw [hst] at h
        cases h

end statements

namespace Scene

/-! ### How far a trace has come -/

/-- How far the trace of an error has come when it leaves a computation of the activation `here`.
The activations `inner` have ended since it was raised, and they are in the trace. -/
inductive Accounts (here : Site) (callers : List Site) (error : RuntimeError)
    (sites : List Site) : Prop where
  /-- The error has left no statement of the running activation. -/
  | unrecorded {inner : List Site} :
      sites = inner ++ here :: callers →
      List.Forall₂ TraceFrame.Describes error.trace inner →
      error.recordedDepth ≠ some callers.length → Accounts here callers error sites
  /-- The running activation stood at `x` when the error was raised, and is in the trace. -/
  | recorded {inner : List Site} {x : Site} :
      sites = inner ++ x :: callers → x.activation = here.activation →
      List.Forall₂ TraceFrame.Describes error.trace (inner ++ [x]) →
      error.recordedDepth = some callers.length → Accounts here callers error sites

section accounts
variable {here : Site} {callers sites : List Site} {error : RuntimeError} {s : State}

/-- An error that has just been raised has an empty trace. -/
theorem accounts_new (htrace : error.trace = []) (hdepth : error.recordedDepth = none) :
    Accounts here callers error (here :: callers) := by
  have hsites : here :: callers = [] ++ here :: callers := rfl
  refine .unrecorded hsites ?_ ?_
  · rw [htrace]
    exact .nil
  · rw [hdepth]
    exact fun he => by cases he

/-- A statement that an error leaves is in its trace, or one within it is. -/
theorem Accounts.record {st : Statement}
    (h : Accounts { here with statements := st :: here.statements } callers error sites)
    (hactivation : here.activation = s.activation) (hdepth : callers.length = s.depth) :
    Accounts here callers (error.record s.depth (s.traceFrame st)) sites := by
  rw [RuntimeError.record, ← hdepth]
  cases h with
  | unrecorded hsites htrace hne =>
      rw [if_neg hne]
      refine .recorded hsites rfl (List.rel_append htrace (.cons ⟨?_, ?_, rfl⟩ .nil)) rfl
      · exact congrArg (fun a => a.unit.name) hactivation.symm
      · exact congrArg Activation.scope hactivation.symm
  | recorded hsites hx htrace hrecorded =>
      rw [if_pos hrecorded]
      exact .recorded hsites hx htrace hrecorded

/-- An activation whose statements an error has left is in its trace when it ends. -/
theorem Accounts.leave {x : Site} (h : Accounts x (here :: callers) error sites)
    (hdepth : error.recordedDepth = some (callers.length + 1)) :
    Accounts here callers error sites := by
  cases h with
  | unrecorded _ _ hne => exact absurd hdepth hne
  | @recorded inner y hsites _ htrace _ =>
      have hended : sites = (inner ++ [y]) ++ here :: callers := by
        rw [hsites, List.append_assoc]
        rfl
      refine .unrecorded hended htrace ?_
      rw [hdepth]
      intro he
      have hlength : callers.length + 1 = callers.length := Option.some.inj he
      omega

theorem Fit.trims {t : State} (h : (m.withState s).Fit) (ht : s.Trims t) : (m.withState t).Fit :=
  ⟨h.activation.trans ht.activation.symm, h.depth.trans ht.depth.symm⟩

/-- **The trace of an error has come as far as the error**, wherever it was raised.  The activation
and the depth are back. -/
theorem Raises.accounts {x : Eval α} (h : m.Raises x sites) (hm : m.Fit)
    (hx : x m.state = (.raised error, s)) :
    (m.withState s).Fit ∧ Accounts m.here m.callers error sites := by
  induction h generalizing error s with
  | failed c =>
      cases hx
      exact ⟨hm, accounts_new rfl rfl⟩
  | thrown _ =>
      cases hx
      exact ⟨hm, accounts_new rfl rfl⟩
  | same hsame _ ih => exact ih hm (hsame.symm.trans hx)
  | first hr _ ih =>
      rw [bind_apply, hr] at hx
      cases hx
      exact ih hm hr
  | later hr hproceeds _ ih =>
      rw [bind_apply, hr] at hx
      exact ih (hm.proceed hproceeds) hx
  | inScope _ ih =>
      obtain ⟨s₁, htrims, hr⟩ := of_inNewScope_raised hx
      obtain ⟨hfit, hacc⟩ := ih ⟨hm.activation, hm.depth⟩ hr
      exact ⟨hfit.trims htrims, hacc⟩
  | inStatement _ ih =>
      obtain ⟨error₁, hr, rfl⟩ := of_recording_raised hx
      obtain ⟨hfit, hacc⟩ := ih ⟨hm.activation, hm.depth⟩ hr
      exact ⟨⟨hfit.activation, hfit.depth⟩, hacc.record hfit.activation hfit.depth⟩
  | unhandled hr he _ ih =>
      rw [handling, hr] at hx
      cases he.symm.trans hx
      exact ih hm hr
  | inHandler hr hproceeds _ ih =>
      rw [handling, hr] at hx
      exact ih (hm.proceed hproceeds) hx
  | inBody e activation _ ih =>
      obtain ⟨s₁, rfl, hr⟩ := of_withActivation_raised hx
      obtain ⟨hfit, hacc⟩ := ih (hm.enter activation) hr
      have hrecorded := recordedDepth_execStatements hr
      have hlength : error.recordedDepth = some _ := hrecorded.trans (congrArg some hfit.depth.symm)
      exact ⟨⟨hm.activation, hm.depth⟩, hacc.leave hlength⟩
  | inContext _ ih =>
      obtain ⟨s₁, htrims, hr⟩ := of_releasing_raised hx
      obtain ⟨hfit, hacc⟩ := ih hm hr
      exact ⟨hfit.trims htrims, hacc⟩
  | inModule _ ih =>
      obtain ⟨s₁, rfl, hr⟩ := of_tracing_raised hx
      obtain ⟨hfit, hacc⟩ := ih hm hr
      exact ⟨⟨hfit.activation, hfit.depth⟩, hacc⟩

end accounts

/-! ### Complete traces -/

/-- A trace describes, one by one, the activations that were running when the error was raised, out
to the one that is running at a scene. -/
structure Describes (m : Scene) (trace : List TraceFrame) (sites : List Site) : Prop where
  /-- The running activation stood at `x` when the error was raised.  The activations that wait for
  it are not described. -/
  frames : ∃ inner x, sites = inner ++ x :: m.callers ∧ x.activation = m.here.activation ∧
    List.Forall₂ TraceFrame.Describes trace (inner ++ [x])
  /-- The last frame belongs to the running activation. -/
  last : ∃ frame, trace.getLast? = some frame ∧ frame.file = m.here.activation.unit.name ∧
    frame.scope = m.here.activation.scope

/-- An error that leaves a computation at a scene was raised at some place, and wherever that is,
its trace describes the activations that were running there. -/
def Traced (m : Scene) (x : Eval α) (error : RuntimeError) : Prop :=
  (∃ sites, m.Raises x sites) ∧ ∀ sites, m.Raises x sites → m.Describes error.trace sites

/-- An error that was recorded at the depth of a scene has a complete trace. -/
theorem Accounts.describes {error : RuntimeError} {sites : List Site}
    (h : Accounts m.here m.callers error sites)
    (hdepth : error.recordedDepth = some m.callers.length) : m.Describes error.trace sites := by
  cases h with
  | unrecorded _ _ hne => exact absurd hdepth hne
  | @recorded inner x hsites hx htrace _ =>
      have hreverse := List.rel_reverse htrace
      rw [List.reverse_append] at hreverse
      obtain ⟨frame, frames, hframe, -, hlast⟩ := List.forall₂_cons_right_iff.mp hreverse
      refine ⟨⟨inner, x, hsites, hx, htrace⟩, frame, ?_, ?_, ?_⟩
      · rw [List.getLast?_eq_head?_reverse, hlast]
        rfl
      · rw [hframe.file, hx]
      · rw [hframe.scope, hx]

theorem Raises.describes {x : Eval α} {sites : List Site} {error : RuntimeError} {s : State}
    (h : m.Raises x sites) (hm : m.Fit) (hx : x m.state = (.raised error, s))
    (hdepth : error.recordedDepth = some s.depth) : m.Describes error.trace sites := by
  obtain ⟨hfit, hacc⟩ := h.accounts hm hx
  exact hacc.describes (hdepth.trans (congrArg some hfit.depth.symm))

end Scene

/-- **A trace has one frame for each activation.**  If an error leaves a statement, or the
statements of a module, then its trace describes the activations that were running when it was
raised, out to the one whose statement it was, or to the top level of the module. -/
theorem Reached.traces_describe_activations {settings : Settings} {loader : Loader}
    (h : Reached settings loader m.state) (hm : m.Fit) (fuel : Nat) :
    (∀ st error s, (engine settings loader fuel).execStatement st m.state = (.raised error, s) →
      m.Traced ((engine settings loader fuel).execStatement st) error) ∧
    ∀ p source parent r s₁, newModule p source parent m.state = (.ok r, s₁) →
      ∀ code error s₂, (engine settings loader fuel).execStatements code
        (s₁.enter (s₁.memory.topLevel r)) = (.raised error, s₂) →
      ((m.withState s₁).enter (s₁.memory.topLevel r)).Traced
        ((engine settings loader fuel).execStatements code) error := by
  refine ⟨fun st error s hraised => ?_, fun p source parent r s₁ hnew code error s₂ hraised => ?_⟩
  · refine ⟨placed_execStatement settings loader fuel st m hm h.sound error s hraised, ?_⟩
    exact fun sites hraises => hraises.describes hm hraised (recordedDepth_execStatement hraised)
  · obtain ⟨r', s', hnew', hsettles, hopen⟩ := newModule_spec p source parent h.sound
    obtain ⟨rfl, rfl⟩ : r' = r ∧ s' = s₁ := by simpa [hnew'] using hnew
    rw [hnew'] at hsettles
    have hfit := (hm.proceed hsettles.proceeds).enter (s'.memory.topLevel r')
    have hsound : (s'.enter (s'.memory.topLevel r')).Sound := hsettles.sound.enter hopen
    refine ⟨placed_execStatements settings loader fuel code _ hfit hsound error s₂ hraised, ?_⟩
    exact fun sites hraises => hraises.describes hfit hraised
      (recordedDepth_execStatements hraised)

/-- The scene before anything has run. -/
def Scene.start : Scene :=
  { state := .initial, here := { activation := State.initial.activation } }

/-- A function that fails, and a module that calls it in a block. -/
def failingCall : List Statement :=
  [.mk 1 (.function (.mk "f" [] [] [.mk 2 (.expression (.var "x"))] 1)),
    .mk 4 (.block [.mk 5 (.expression (.call (.var "f") [] []))] [])]

theorem newModule_initial (p : Path) (source : Option String) (parent : Option ModuleRef) :
    newModule p source parent .initial =
      (.ok ⟨State.initial.memory.modules.size⟩, (newModule p source parent .initial).2) := by
  have hidle : reclaim .initial = (.ok (), .initial) :=
    State.reclaim_of_idle rfl (by decide +kernel)
  have hopened : ∀ s, openModule p source parent s =
      (.ok ⟨s.memory.modules.size⟩, (openModule p source parent s).2) := fun _ => rfl
  rw [newModule_of_reclaim hidle]
  exact hopened .initial

/-- The error that ended an evaluation. -/
def Outcome.error? {α : Type} : Outcome α → Option RuntimeError
  | .ok _ => none
  | .raised error => some error
  | .stopped _ => none

/-- The trace of a function that fails, and of the module that calls it. -/
theorem traces_describe_failing_call :
    let e := engine {} (fun _ => .unknown) 2
    let made := (newModule ⟨"a"⟩ none none State.initial).2
    let top := made.memory.topLevel ⟨State.initial.memory.modules.size⟩
    ∃ error s, e.execStatements failingCall (made.enter top) = (.raised error, s) ∧
      error.trace.map (fun frame => (frame.file, frame.scope, frame.line)) =
        [("a", "f", 2), ("a", moduleScope, 5)] ∧
      ((Scene.start.withState made).enter top).Traced (e.execStatements failingCall) error := by
  intro e made top
  have hrun : (e.execStatements failingCall (made.enter top)).1.error?.map
      (fun error => error.trace.map fun frame => (frame.file, frame.scope, frame.line)) =
        some [("a", "f", 2), ("a", moduleScope, 5)] := by decide +kernel
  have hreached : Reached {} (fun _ => .unknown) Scene.start.state := .initial
  have htraced := (hreached.traces_describe_activations ⟨rfl, rfl⟩ 2).2 ⟨"a"⟩ none none _ _
    (newModule_initial ⟨"a"⟩ none none) failingCall
  generalize hr : e.execStatements failingCall (made.enter top) = r at hrun
  obtain ⟨_ | error | _, s⟩ := r
  · cases hrun
  · exact ⟨error, s, rfl, Option.some.inj hrun, htraced error s hr⟩
  · cases hrun

end Classlet
