import Classlet.Proofs.Evaluator.Reached

/-! # Where errors come from

A `Scene` is where a run stands: the activation that is running and those that wait for it, each
with the statements of it that are being executed.  `Scene.Raises` says of a computation that is run
at a scene that it raises an error, and which activations are running when the error is raised.  It
has a rule for every way in which the evaluator puts computations together, so that it follows the
run to the place of the error: into the part of a sequence that raises, into statements and the
bodies of functions and modules, past handlers that do not take the error.

Whatever the evaluator does, if it raises an error then `Raises` finds the place (`origin_rules`).
What is known of that place is in `Classlet.Proofs.Error.Frames`. -/

namespace Classlet

open Eval

/-! ### Scenes -/

/-- Where an activation stands. -/
structure Site where
  activation : Activation
  /-- Its statements that are being executed, the innermost first. -/
  statements : List Statement := []

/-- Where a run stands. -/
structure Scene where
  state : State
  /-- The activation that is running. -/
  here : Site
  /-- The activations that wait for it, the innermost first. -/
  callers : List Site := []

/-- The activation that runs the statements of a module. -/
def Memory.topLevel (k : Memory) (r : ModuleRef) : Activation :=
  ⟨(k.moduleInfo r).context, (k.moduleInfo r).unit, moduleScope, some r⟩

namespace Scene

/-- A scene at which only the state is another one. -/
def withState (m : Scene) (s : State) : Scene := { m with state := s }

/-- The scene at which a statement begins. -/
def within (m : Scene) (st : Statement) : Scene :=
  { m with here := { m.here with statements := st :: m.here.statements } }

/-- The scene at which an activation begins. -/
def enter (m : Scene) (activation : Activation) : Scene :=
  { state := m.state.enter activation
    here := { activation := activation }
    callers := m.here :: m.callers }

/-- All activations, the innermost first. -/
def running (m : Scene) : List Site := m.here :: m.callers

/-- The state has the activation that is running, and its depth is the number of those that wait. -/
structure Fit (m : Scene) : Prop where
  activation : m.here.activation = m.state.activation
  depth : m.callers.length = m.state.depth

end Scene

/-- The activation is as it was, and so are the objects that do not change in place. -/
structure State.Proceeds (s s' : State) : Prop where
  activation : s'.activation = s.activation
  depth : s'.depth = s.depth
  memory : s.memory.Keeps s'.memory

namespace Scene

/-- A computation that is run at a scene raises an error, and then `sites` are running. -/
inductive Raises : Scene → ∀ {α : Type}, Eval α → List Site → Prop where
  /-- The runtime raises an error. -/
  | failed {m : Scene} {α : Type} (c : Cause) : Raises m (fail c : Eval α) m.running
  /-- The program throws an instance of an error class. -/
  | thrown {m : Scene} {α : Type} {i : InstanceRef} :
      m.state.memory.isErrorClass i.ofClass → Raises m (raise (.thrown i) : Eval α) m.running
  /-- The computation does at this state what another one does. -/
  | same {m : Scene} {α : Type} {x y : Eval α} {sites : List Site} :
      x m.state = y m.state → Raises m y sites → Raises m x sites
  /-- The first part of a sequence raises. -/
  | first {m : Scene} {α β : Type} {x : Eval α} {f : α → Eval β} {error : RuntimeError}
      {s : State} {sites : List Site} :
      x m.state = (.raised error, s) → Raises m x sites → Raises m (x >>= f) sites
  /-- The first part of a sequence has a value, and the rest raises. -/
  | later {m : Scene} {α β : Type} {x : Eval α} {f : α → Eval β} {a : α} {s : State}
      {sites : List Site} :
      x m.state = (.ok a, s) → m.state.Proceeds s → Raises (m.withState s) (f a) sites →
      Raises m (x >>= f) sites
  | inScope {m : Scene} {α : Type} {x : Eval α} {sites : List Site} :
      Raises (m.withState
        { m.state with scopes := (m.state.scopes.pushScope m.state.activation.context).2 }) x
          sites →
      Raises m (inNewScope x) sites
  | inStatement {m : Scene} {st : Statement} {x : Eval Completion} {sites : List Site} :
      Raises (m.within st) x sites → Raises m (recording st x) sites
  /-- No handler takes the error. -/
  | unhandled {m : Scene} {x : Eval Completion} {handler : RuntimeError → Eval Completion}
      {error : RuntimeError} {s : State} {sites : List Site} :
      x m.state = (.raised error, s) → handler error s = (.raised error, s) →
      Raises m x sites → Raises m (handling x handler) sites
  /-- A handler takes an error, and raises one. -/
  | inHandler {m : Scene} {x : Eval Completion} {handler : RuntimeError → Eval Completion}
      {error : RuntimeError} {s : State} {sites : List Site} :
      x m.state = (.raised error, s) → m.state.Proceeds s →
      Raises (m.withState s) (handler error) sites → Raises m (handling x handler) sites
  /-- The statements of an activation raise. -/
  | inBody {m : Scene} (e : Engine) (activation : Activation) {code : List Statement}
      {sites : List Site} :
      Raises (m.enter activation) (e.execStatements code) sites →
      Raises m (withActivation activation (e.execStatements code)) sites
  | inContext {m : Scene} {α : Type} {c : ContextId} {x : Eval α} {sites : List Site} :
      Raises m x sites → Raises m (releasing c x) sites
  | inModule {m : Scene} {x : Eval Completion} {sites : List Site} :
      Raises m x sites → Raises m (tracing x) sites

/-- If a computation raises an error at a scene, then it does so at a place. -/
def Escapes (m : Scene) {α : Type} (x : Eval α) : Prop :=
  ∀ error s, x m.state = (.raised error, s) → ∃ sites, m.Raises x sites

end Scene

/-! ### Computations that raise

What has to be so if a computation that is made of others ends with an error. -/

section inversion
variable {α β : Type} {s s' : State} {error : RuntimeError}

theorem of_bind_raised {x : Eval α} {f : α → Eval β} (h : (x >>= f) s = (.raised error, s')) :
    x s = (.raised error, s') ∨ ∃ a s₁, x s = (.ok a, s₁) ∧ f a s₁ = (.raised error, s') := by
  rw [bind_apply] at h
  rcases hr : x s with ⟨a | error' | why, s₁⟩
  · rw [hr] at h
    exact .inr ⟨a, s₁, rfl, h⟩
  · rw [hr] at h
    cases h
    exact .inl rfl
  · rw [hr] at h
    cases h

theorem of_inNewScope_raised {x : Eval α} (h : inNewScope x s = (.raised error, s')) :
    ∃ s₁, s₁.Trims s' ∧
      x { s with scopes := (s.scopes.pushScope s.activation.context).2 } = (.raised error, s₁) := by
  unfold inNewScope at h
  simp only [bind_apply, context, Eval.read, pushScope, poppingScope] at h
  rcases hr : x { s with scopes := (s.scopes.pushScope s.activation.context).2 } with ⟨o, s₁⟩
  rw [hr] at h
  dsimp only at h
  split at h
  · cases h
    exact ⟨s₁, s₁.trims_dropScope _ _, rfl⟩
  · cases h

theorem of_recording_raised {st : Statement} {x : Eval Completion}
    (h : recording st x s = (.raised error, s')) :
    ∃ error₁, x s = (.raised error₁, s') ∧ error = error₁.record s'.depth (s'.traceFrame st) := by
  unfold recording at h
  rcases hr : x s with ⟨_ | error₁ | _, s₁⟩
  · rw [hr] at h
    cases h
  · rw [hr] at h
    cases h
    exact ⟨error₁, rfl, rfl⟩
  · rw [hr] at h
    cases h

theorem of_recording_ok {st : Statement} {x : Eval Completion} {completion : Completion}
    (h : recording st x s = (.ok completion, s')) : x s = (.ok completion, s') := by
  unfold recording at h
  rcases hr : x s with ⟨_ | error₁ | _, s₁⟩
  · rw [hr] at h
    exact h
  · rw [hr] at h
    cases h
  · rw [hr] at h
    cases h

theorem of_handling_raised {x : Eval Completion} {handler : RuntimeError → Eval Completion}
    (h : handling x handler s = (.raised error, s')) :
    ∃ error₁ s₁, x s = (.raised error₁, s₁) ∧ handler error₁ s₁ = (.raised error, s') := by
  unfold handling at h
  rcases hr : x s with ⟨_ | error₁ | _, s₁⟩
  · rw [hr] at h
    cases h
  · rw [hr] at h
    exact ⟨error₁, s₁, rfl, h⟩
  · rw [hr] at h
    cases h

theorem of_withActivation_raised {activation : Activation} {x : Eval α}
    (h : withActivation activation x s = (.raised error, s')) :
    ∃ s₁, s' = { s₁ with activation := s.activation, depth := s.depth } ∧
      x (s.enter activation) = (.raised error, s₁) := by
  unfold withActivation at h
  dsimp only at h
  rcases hr : x { s with activation := activation, depth := s.depth + 1 } with ⟨o, s₁⟩
  rw [hr] at h
  cases h
  exact ⟨s₁, rfl, hr⟩

theorem of_releasing_raised {c : ContextId} {x : Eval α}
    (h : releasing c x s = (.raised error, s')) :
    ∃ s₁, s₁.Trims s' ∧ x s = (.raised error, s₁) := by
  unfold releasing at h
  rcases hr : x s with ⟨o, s₁⟩
  rw [hr] at h
  dsimp only at h
  split at h
  · rename_i hrelease
    cases h
    exact ⟨s₁, State.trims_releaseContext hrelease, rfl⟩
  · cases h

theorem of_tracing_raised {x : Eval Completion} (h : tracing x s = (.raised error, s')) :
    ∃ s₁, s' = { s₁ with lastTrace := error.trace } ∧ x s = (.raised error, s₁) := by
  unfold tracing at h
  rcases hr : x s with ⟨_ | error₁ | _, s₁⟩
  · rw [hr] at h
    cases h
  · rw [hr] at h
    cases h
    exact ⟨s₁, rfl, rfl⟩
  · rw [hr] at h
    cases h

end inversion

/-! ### Sequences -/

variable {α β : Type} {m : Scene}

theorem Settles.proceeds {own : List ScopeId} {s s' : State} {o : Outcome α}
    (h : Settles own s (o, s')) : s.Proceeds s' :=
  ⟨h.activation, h.depth, h.memory⟩

namespace Scene

theorem Fit.proceed (hm : m.Fit) {s : State} (h : m.state.Proceeds s) : (m.withState s).Fit :=
  ⟨hm.activation.trans h.activation.symm, hm.depth.trans h.depth.symm⟩

theorem Fit.enter (hm : m.Fit) (activation : Activation) : (m.enter activation).Fit :=
  ⟨rfl, congrArg (· + 1) hm.depth⟩

theorem Escapes.bind {x : Eval α} {f : α → Eval β} (hx : m.Escapes x)
    (hf : ∀ a s, x m.state = (.ok a, s) →
      m.state.Proceeds s ∧ (m.withState s).Escapes (f a)) : m.Escapes (x >>= f) := by
  intro error s h
  rcases of_bind_raised h with hr | ⟨a, s₁, hr, h⟩
  · obtain ⟨sites, hraises⟩ := hx error s hr
    exact ⟨sites, .first hr hraises⟩
  · obtain ⟨hproceeds, hrest⟩ := hf a s₁ hr
    obtain ⟨sites, hraises⟩ := hrest error s h
    exact ⟨sites, .later hr hproceeds hraises⟩

/-- Something is read first. -/
theorem Escapes.read {f : State → α} {g : α → Eval β} (hg : m.Escapes (g (f m.state))) :
    m.Escapes (Eval.read f >>= g) := by
  intro error s h
  obtain ⟨sites, hraises⟩ := hg error s h
  exact ⟨sites, .later rfl ⟨rfl, rfl, .refl _⟩ hraises⟩

/-- What has a value does not raise. -/
theorem Escapes.of_ok {x : Eval α} (h : ∀ s, ∃ a, (x s).1 = .ok a) : m.Escapes x := by
  intro error s hraised
  obtain ⟨a, hok⟩ := h m.state
  rw [hraised] at hok
  cases hok

theorem Escapes.of_fail {x : Eval α}
    (h : ∀ error s, x m.state = (.raised error, s) → ∃ c, x m.state = fail c m.state) :
    m.Escapes x := by
  intro error s hraised
  obtain ⟨c, hfail⟩ := h error s hraised
  exact ⟨m.running, .same hfail (.failed c)⟩

end Scene

/-- Wherever a computation raises an error, it does so at a place. -/
def Placed ⦃α : Type⦄ (x : Eval α) : Prop :=
  ∀ m : Scene, m.Fit → m.state.Sound → m.Escapes x

theorem placed_of_ok {x : Eval α} (h : ∀ s, ∃ a, (x s).1 = .ok a) : Placed x :=
  fun _ _ _ => .of_ok h

theorem placed_reclaim : Placed reclaim := by
  intro m _ _ error s h
  rcases m.state.reclaim_cases with ⟨t, -, hok⟩ | ⟨fault, hfault⟩
  · rw [hok] at h
    cases h
  · rw [hfault] at h
    cases h

theorem Confined.placed_andThen {x : Eval α} {f : α → Eval β}
    (hconfined : Confined Activation.context x) (hx : Placed x)
    (hf : ∀ a, x.Returns a → Placed (f a)) : Placed (x >>= f) := by
  intro m hm hs
  refine (hx m hm hs).bind fun a s hr => ?_
  have hsettles := hconfined m.state hs hs.here
  rw [hr] at hsettles
  have hproceeds := hsettles.proceeds
  exact ⟨hproceeds, hf a ⟨m.state, s, hr⟩ _ (hm.proceed hproceeds) hsettles.sound⟩

theorem placed_closed : Closed fun _ x => Isolated x ∧ Placed x where
  pure a := ⟨isolated_pure a, placed_of_ok fun _ => ⟨a, rfl⟩⟩
  andThen hx hf := ⟨hx.1.andThen fun a ha => (hf a ha).1,
    hx.1.confined.placed_andThen hx.2 fun a ha => (hf a ha).2⟩
  fail c := ⟨isolated_closed.fail c, fun m _ _ _ _ _ => ⟨m.running, .failed c⟩⟩
  stop why hwhy := ⟨isolated_closed.stop why hwhy, fun _ _ _ _ _ h => by cases h⟩
  read f := ⟨isolated_read f, placed_of_ok fun _ => ⟨_, rfl⟩⟩
  copied v := ⟨isolated_closed.copied v, placed_of_ok fun _ => ⟨_, rfl⟩⟩
  newList vs := ⟨isolated_closed.newList vs, placed_of_ok fun _ => ⟨_, rfl⟩⟩
  newInstance c _ hfields :=
    ⟨isolated_closed.newInstance c hfields, placed_of_ok fun _ => ⟨_, rfl⟩⟩
  newMethod b := ⟨isolated_newMethod b, placed_of_ok fun _ => ⟨_, rfl⟩⟩
  bindField i name v := ⟨isolated_closed.bindField i name v, placed_of_ok fun _ => ⟨_, rfl⟩⟩
  modifyList a l f := ⟨isolated_closed.modifyList a l f, placed_of_ok fun _ => ⟨_, rfl⟩⟩
  print text := ⟨isolated_closed.print text, placed_of_ok fun _ => ⟨_, rfl⟩⟩
  captureFunction decl _ returns hnames :=
    ⟨isolated_closed.captureFunction decl returns hnames,
      isolated_reclaim.confined.placed_andThen placed_reclaim fun _ _ =>
        placed_of_ok fun _ => ⟨_, rfl⟩⟩

/-! ### Variables and scopes -/

theorem Scene.escapes_bindAt (place : Store → Except BindFault ScopeId)
    (f : Store → ScopeId → Store) : m.Escapes (bindAt place f) := by
  refine .of_fail fun error s h => ?_
  unfold bindAt at h ⊢
  cases hplace : place m.state.toStore with
  | ok scope =>
      rw [hplace] at h
      cases h
  | error fault =>
      rw [hplace] at h
      cases fault with
      | cause c => exact ⟨c, rfl⟩
      | unbalanced fault => cases h

theorem placed_inNewScope {x : Eval α} (hx : Placed x) : Placed (inNewScope x) := by
  intro m hm hs error s h
  have hpushed := hs.pushScope hs.here
  have hfit : (m.withState { m.state with
      scopes := (m.state.scopes.pushScope m.state.activation.context).2 }).Fit :=
    hm.proceed ⟨rfl, rfl, .refl _⟩
  obtain ⟨s₁, -, hr⟩ := of_inNewScope_raised h
  obtain ⟨sites, hraises⟩ := hx _ hfit hpushed error s₁ hr
  exact ⟨sites, .inScope hraises⟩

theorem placed_withVariable (name : String) (v : Value) {body : Eval Completion}
    (hbody : Placed body) : Placed (withVariable name v body) := by
  have hdefine : Confined Activation.context (context >>= fun c => define c name v) :=
    fun s hs hopen => .define s.activation.context name v hs hopen.1
  have hplaced : Placed (context >>= fun c => define c name v) := fun m _ _ =>
    .read (Scene.escapes_bindAt _ _)
  exact placed_inNewScope (hdefine.placed_andThen hplaced fun _ _ => hbody)

/-! ### Statements and handlers -/

theorem placed_recording (st : Statement) {x : Eval Completion} (hx : Placed x) :
    Placed (recording st x) := by
  intro m hm hs error s h
  obtain ⟨error₁, hr, -⟩ := of_recording_raised h
  obtain ⟨sites, hraises⟩ := hx (m.within st) ⟨hm.activation, hm.depth⟩ hs error₁ s hr
  exact ⟨sites, .inStatement hraises⟩

theorem placed_throwValue (v : Value) : Placed (throwValue v) := by
  intro m _ _ error s h
  unfold throwValue at h
  split at h
  · rename_i i
    split at h
    · rename_i hclass
      refine ⟨m.running, .same (y := raise (.thrown i)) ?_ (.thrown hclass)⟩
      simp only [throwValue, hclass, if_true]
    · rename_i hclass
      refine ⟨m.running, .same (y := fail .notThrowable) ?_ (.failed _)⟩
      simp only [throwValue, if_neg hclass]
  · rename_i hv
    refine ⟨m.running, .same (y := fail .notThrowable) ?_ (.failed _)⟩
    unfold throwValue
    split
    · rename_i i
      exact absurd rfl (hv i)
    · rfl

theorem placed_handling {x : Eval Completion} {handler : RuntimeError → Eval Completion}
    (hconfined : Confined Activation.context x) (hx : Placed x)
    (hhandler : Takes (@Placed Completion) handler) : Placed (handling x handler) := by
  intro m hm hs error s h
  obtain ⟨error₁, s₁, hr, h⟩ := of_handling_raised h
  rcases hhandler error₁ s₁ with he | ⟨y, hy, he⟩
  · obtain ⟨sites, hraises⟩ := hx m hm hs error₁ s₁ hr
    exact ⟨sites, .unhandled hr he hraises⟩
  · have hsettles := hconfined m.state hs hs.here
    rw [hr] at hsettles
    have hproceeds := hsettles.proceeds
    rw [he] at h
    obtain ⟨sites, hraises⟩ := hy (m.withState s₁) (hm.proceed hproceeds) hsettles.sound error s h
    exact ⟨sites, .inHandler hr hproceeds (.same he hraises)⟩

/-! ### Activations -/

theorem Scene.Escapes.withActivation {e : Engine} {activation : Activation} {code : List Statement}
    (hbody : Placed (e.execStatements code)) (hm : m.Fit) (hs : m.state.Sound)
    (hopen : m.state.scopes.Open activation.context) :
    m.Escapes (withActivation activation (e.execStatements code)) := by
  intro error s h
  obtain ⟨s₁, -, hr⟩ := of_withActivation_raised h
  obtain ⟨sites, hraises⟩ := hbody (m.enter activation) (hm.enter activation) (hs.enter hopen)
    error s₁ hr
  exact ⟨sites, .inBody e activation hraises⟩

/-! ### Calls -/

section arguments
variable (f : Function) {c : ContextId}

/-- Wherever a context is open, a computation that is confined to it raises errors at a place. -/
def PlacedIn (c : ContextId) (x : Eval α) : Prop :=
  Confined (fun _ => c) x ∧
    ∀ m : Scene, m.Fit → m.state.Sound → m.state.scopes.Open c → m.Escapes x

theorem PlacedIn.bind {x : Eval α} {g : α → Eval β} (hx : PlacedIn c x)
    (hg : ∀ a, PlacedIn c (g a)) : PlacedIn c (x >>= g) := by
  refine ⟨hx.1.bind fun a => (hg a).1, fun m hm hs hopen => ?_⟩
  refine (hx.2 m hm hs hopen).bind fun a s hr => ?_
  have hsettles := hx.1 m.state hs hopen
  have hopen' := hsettles.stays_open hopen
  rw [hr] at hsettles hopen'
  have hproceeds := hsettles.proceeds
  exact ⟨hproceeds, (hg a).2 _ (hm.proceed hproceeds) hsettles.sound hopen'⟩

theorem placedIn_of_isolated {x : Eval α} (hx : Isolated x ∧ Placed x) : PlacedIn c x :=
  ⟨hx.1.confined, fun m hm hs _ => hx.2 m hm hs⟩

theorem placedIn_checkArgument (p : ParamSpec) (v : Value) : PlacedIn c (checkArgument f p v) := by
  refine ⟨(isolated_checkArgument f p v).confined, fun m _ _ _ => .of_fail fun error s h => ?_⟩
  unfold checkArgument at h ⊢
  dsimp only at h ⊢
  split at h
  · cases h
  · rename_i hno
    rw [if_neg hno]
    exact ⟨_, rfl⟩

theorem placedIn_checkArguments (p : ParamSpec) :
    ∀ vs : List Value, PlacedIn c (checkArguments f p vs)
  | [] => placedIn_of_isolated (placed_closed.pure ())
  | v :: vs => (placedIn_checkArgument f p v).bind fun _ => placedIn_checkArguments p vs

theorem placedIn_define (name : String) (v : Value) : PlacedIn c (define c name v) :=
  ⟨fun _ hs hopen => .define c name v hs hopen.1, fun _ _ _ _ => Scene.escapes_bindAt _ _⟩

theorem placedIn_defineShared (name : String) (v : Value) : PlacedIn c (defineShared c name v) :=
  ⟨fun _ hs hopen => .defineShared c name v hs hopen.1, fun _ _ _ _ => Scene.escapes_bindAt _ _⟩

theorem placedIn_bindSlots : ∀ (shared : Bool) (slots : List Slot),
    PlacedIn c (bindSlots f c shared slots)
  | _, [] => placedIn_of_isolated (placed_closed.pure ())
  | _, (p, none) :: _ => placedIn_of_isolated (placed_closed.fail _)
  | shared, (p, some v) :: more => by
      have hmore := fun _ : Unit => placedIn_bindSlots false more
      refine (placedIn_checkArgument f p v).bind fun _ => ?_
      cases shared with
      | true => exact (placedIn_defineShared p.name v).bind hmore
      | false => exact (placedIn_define p.name v).bind hmore

theorem placedIn_bindRest : ∀ rest : Option (ParamSpec × List Value),
    PlacedIn c (bindRest f c rest)
  | none => placedIn_of_isolated (placed_closed.pure ())
  | some (p, vs) => (placedIn_checkArguments f p vs).bind fun _ => placedIn_define p.name _

theorem placedIn_bindArguments (hasReceiver : Bool) (arguments : List Value)
    (keywords : KeywordValues) :
    PlacedIn c (bindArguments f c hasReceiver arguments keywords) :=
  (placedIn_of_isolated (placed_closed.ofExcept _)).bind fun arrangement =>
    (placedIn_bindSlots f hasReceiver arrangement.slots).bind fun _ =>
      placedIn_bindRest f arrangement.rest

end arguments

section calls
variable {e : Engine} (hconfined : ∀ body, Confined Activation.context (e.execStatements body))
  (hbody : ∀ body, Placed (e.execStatements body))
include hconfined hbody

theorem placedIn_runBody (f : Function) (c : ContextId) : PlacedIn c (runBody e f c) := by
  refine ⟨confined_runBody f hconfined c, fun m hm hs hopen error s h => ?_⟩
  have hescapes : m.Escapes (withActivation ⟨c, f.unit, f.name, m.state.activation.module⟩
      (e.execStatements f.decl.body)) := .withActivation (hbody f.decl.body) hm hs hopen
  obtain ⟨sites, hraises⟩ := hescapes error s h
  have hsame : runBody e f c m.state = withActivation ⟨c, f.unit, f.name,
      m.state.activation.module⟩ (e.execStatements f.decl.body) m.state := rfl
  exact ⟨sites, .same hsame hraises⟩

omit hconfined hbody in
/-- The context of a call is opened, and given up however the call ends. -/
theorem Scene.escapes_entering {r : FunctionRef} {f : Function} {x : ContextId → Eval α}
    (hm : m.Fit) (hs : m.state.Sound) (hf : m.state.memory.function? r = some f)
    (hx : ∀ c, PlacedIn c (x c)) :
    m.Escapes (enterContext r f >>= fun c => releasing c (x c)) := by
  obtain ⟨t, -, hsheds, ⟨-, hstale⟩ | ⟨c, scopes, base, henter, hsound, hadds⟩⟩ :=
    enterContext_spec hs hf
  · intro error s h
    rw [bind_apply, hstale] at h
    cases h
  have hopen : scopes.Open c := ⟨(hadds.inUse c).mpr (.inl rfl), hadds.context_new.captured⟩
  refine Escapes.bind (fun error s h => ?_) fun c' s hr => ?_
  · rw [henter] at h
    cases h
  rw [henter] at hr
  cases hr
  have hproceeds : m.state.Proceeds { t with scopes := scopes } :=
    ⟨hsheds.trims.activation, hsheds.trims.depth, by rw [hsheds.trims.memory]; exact .refl _⟩
  refine ⟨hproceeds, fun error s h => ?_⟩
  obtain ⟨s₁, -, hr⟩ := of_releasing_raised h
  obtain ⟨sites, hraises⟩ := (hx c).2 _ (hm.proceed hproceeds) hsound hopen error s₁ hr
  exact ⟨sites, .inContext hraises⟩

theorem placed_callReference (r : FunctionRef) (hasReceiver : Bool) (arguments : List Value)
    (keywords : KeywordValues) : Placed (callReference e r hasReceiver arguments keywords) := by
  intro m hm hs
  unfold callReference
  refine .read ?_
  dsimp only
  cases hf : m.state.memory.function? r with
  | none => exact (placed_closed.pure _).2 m hm hs
  | some f =>
      unfold callFunction
      refine .read ?_
      split
      · exact (placed_closed.fail _).2 m hm hs
      · rw [bind_assoc]
        have hcall := fun c => (placedIn_bindArguments f (c := c) hasReceiver arguments
          keywords).bind fun _ => placedIn_runBody hconfined hbody f c
        refine (Scene.escapes_entering hm hs hf hcall).bind fun completion s hr => ?_
        have hsettles := Settles.entering hs hf fun c => (hcall c).1
        rw [show (enterContext r f >>= _) m.state = (.ok completion, s) from hr] at hsettles
        have hproceeds := hsettles.proceeds
        refine ⟨hproceeds, ?_⟩
        refine (placed_closed.bind (placed_closed.readMemory _) fun answer => ?_).2 _
          (hm.proceed hproceeds) hsettles.sound
        exact placed_closed.bind (placed_closed.ofExcept answer) fun _ => placed_closed.pure _

/-! ### Modules -/

omit hconfined hbody in
theorem placed_publish (r : ModuleRef) : Placed (publish r) := by
  refine fun m _ _ => .of_fail fun error s h => ?_
  unfold publish at h ⊢
  dsimp only at h ⊢
  split at h
  · cases h
  · rename_i cause _
    exact ⟨cause, rfl⟩

omit hconfined hbody in
theorem Scene.Escapes.tracing {x : Eval Completion} (hx : m.Escapes x) :
    m.Escapes (tracing x) := by
  intro error s h
  obtain ⟨s₁, -, hr⟩ := of_tracing_raised h
  obtain ⟨sites, hraises⟩ := hx error s₁ hr
  exact ⟨sites, .inModule hraises⟩

theorem placed_runModule (p : Path) (source : Option String) (code : List Statement)
    (parent : Option ModuleRef) : Placed (runModule e p source code parent) := by
  intro m hm hs
  obtain ⟨r, s₁, hnew, hsettles, hopen⟩ := newModule_spec p source parent hs
  rw [hnew] at hsettles
  unfold runModule
  refine Scene.Escapes.bind (fun error s h => ?_) fun r' s hr => ?_
  · rw [hnew] at h
    cases h
  obtain ⟨rfl, rfl⟩ : r = r' ∧ s₁ = s := by simpa [hnew] using hr
  have hfit := hm.proceed hsettles.proceeds
  have hrun : (m.withState s₁).Escapes
      (withActivation (s₁.memory.topLevel r) (e.execStatements code)) :=
    .withActivation (hbody code) hfit hsettles.sound hopen
  refine ⟨hsettles.proceeds, .read (hrun.tracing.bind fun completion s₂ hr => ?_)⟩
  have hran := Settles.tracing (Settles.withActivation (s₁.memory.topLevel r) hsettles.sound hopen
    (hconfined code))
  rw [show tracing _ s₁ = (.ok completion, s₂) from hr] at hran
  refine ⟨hran.proceeds, fun error s h => ?_⟩
  -- the exports can fail, and after them nothing can
  rcases of_bind_raised h with hpublish | ⟨_, s₃, -, h⟩
  · obtain ⟨sites, hraises⟩ := placed_publish r _ (hfit.proceed hran.proceeds) hran.sound error s
      hpublish
    exact ⟨sites, .first hpublish hraises⟩
  · cases h

theorem placed_evaluateParsed (p : Path) (source : Option String) (code : List Statement)
    (parent : Option ModuleRef) : Placed (evaluateParsed e p source code parent) := by
  have hrun : Isolated (runModule e (Location.canonical p) source code parent) ∧
      Placed (runModule e (Location.canonical p) source code parent) :=
    ⟨isolated_runModule _ source parent hconfined code,
      placed_runModule hconfined hbody _ source code parent⟩
  refine (placed_closed.bind hrun fun r => placed_closed.bind ⟨?_, ?_⟩ fun _ =>
    placed_closed.pure r).2
  · exact isolated_modify fun _ => rfl
  · exact placed_of_ok fun _ => ⟨(), rfl⟩

omit hconfined hbody in
theorem placed_load (p : Path) : Placed (load e p) := by
  unfold load
  refine (placed_closed.bind (β := String) ⟨?_, ?_⟩ fun _ => ?_).2
  · exact isolated_modify fun _ => rfl
  · exact placed_of_ok fun _ => ⟨(), rfl⟩
  · split
    · exact placed_closed.pure _
    · exact placed_closed.fail _
    · refine ⟨isolated_stop fun _ he => ?_, fun _ _ _ _ _ h => ?_⟩
      · cases he
      · cases h

theorem placed_importModule (target : ImportPath) (parent : Option ModuleRef) :
    Placed (importModule e target parent) := by
  unfold importModule
  refine (placed_closed.bind (placed_closed.readMemory _) fun p =>
    placed_closed.bind (placed_closed.read _) fun kept => ?_).2
  cases kept with
  | some r => exact placed_closed.pure r
  | none =>
      refine placed_closed.bind (placed_closed.readMemory _) fun cyclic =>
        placed_closed.ite (placed_closed.fail _)
          (placed_closed.bind ⟨isolated_load p e, placed_load p⟩ fun source => ?_)
      unfold evaluateSource
      split
      · exact ⟨isolated_evaluateParsed p (some source) parent hconfined _,
          placed_evaluateParsed hconfined hbody p (some source) _ parent⟩
      · exact placed_closed.fail _

end calls

/-! ### Classes -/

theorem placed_makeClass (name : String) (body : ClassBody) (isStruct : Bool)
    (base : Option ClassRef) : Placed (makeClass name body isStruct base) := by
  refine fun m _ _ => .of_fail fun error s h => ?_
  unfold makeClass at h ⊢
  split at h
  · cases h
  · rename_i cause _
    exact ⟨cause, rfl⟩

/-! ### All of a run -/

/-- **Whatever raises an error does so at a place.** -/
theorem origin_rules : Eval.Rules (fun _ x => Isolated x ∧ Placed x)
    (fun _ x => Confined Activation.context x ∧ Placed x) where
  closed := placed_closed
  weaken hx := ⟨hx.1.confined, hx.2⟩
  andThen hx hf := ⟨hx.1.andThen fun a ha => (hf a ha).1,
    hx.1.placed_andThen hx.2 fun a ha => (hf a ha).2⟩
  assign name v := ⟨rules.assign name v, fun _ _ _ => .read (Scene.escapes_bindAt _ _)⟩
  inNewScope hx := ⟨hx.1.inNewScope, placed_inNewScope hx.2⟩
  withVariable name v _ hbody := ⟨hbody.1.withVariable name v, placed_withVariable name v hbody.2⟩
  recording st _ hx := ⟨hx.1.recording st, placed_recording st hx.2⟩
  throwValue v := ⟨rules.throwValue v, placed_throwValue v⟩
  handling hx hhandler := ⟨hx.1.handling (hhandler.mono fun _ hy => hy.1),
    placed_handling hx.1 hx.2 (hhandler.mono fun _ hy => hy.2)⟩
  callReference e r hasReceiver arguments keywords hbody :=
    ⟨rules.callReference e r hasReceiver arguments keywords fun body => (hbody body).1,
      placed_callReference (fun body => (hbody body).1) (fun body => (hbody body).2) r hasReceiver
        arguments keywords⟩
  makeClass e name members isStruct base he := by
    have hisolated : e.Satisfies Isolated := he.mono fun _ h => h.1
    have hmembers := placed_closed.defineMembers he name {} members
    exact ⟨isolated_makeClass hisolated name members isStruct base,
      hmembers.1.confined.placed_andThen hmembers.2 fun body _ =>
        placed_makeClass name body isStruct base⟩
  importModule e target hbody :=
    ⟨rules.importModule e target fun body => (hbody body).1,
      (isolated_read _).confined.placed_andThen (placed_of_ok fun _ => ⟨_, rfl⟩) fun parent _ =>
        placed_importModule (fun body => (hbody body).1) (fun body => (hbody body).2) target parent⟩

section tasks
variable (settings : Settings) (loader : Loader) (fuel : Nat)

theorem placed_execStatement (st : Statement) :
    Placed ((engine settings loader fuel).execStatement st) :=
  (origin_rules.execStatement (origin_rules.engine settings loader fuel) st).2

theorem placed_execStatements (code : List Statement) :
    Placed ((engine settings loader fuel).execStatements code) :=
  (origin_rules.execStatements (origin_rules.engine settings loader fuel) code).2

theorem placed_query : ∀ q : Query, Placed (q.run (engine settings loader fuel))
  | .expression x =>
      (origin_rules.closed.evalExpr (origin_rules.engine settings loader fuel) x).2
  | .call callee hasReceiver arguments keywords =>
      (origin_rules.callValue (origin_rules.engine settings loader fuel) callee hasReceiver
        arguments keywords).2
  | .importModule target parent =>
      placed_importModule (rules.execStatements (rules.engine settings loader fuel))
        (placed_execStatements settings loader fuel) target parent
  | .evaluate p source code parent =>
      placed_evaluateParsed (rules.execStatements (rules.engine settings loader fuel))
        (placed_execStatements settings loader fuel) p source code parent

theorem placed_task : ∀ task : Task, Placed (task.run (engine settings loader fuel))
  | .query q => placed_query settings loader fuel q
  | .statement st => placed_execStatement settings loader fuel st
  | .statements code => placed_execStatements settings loader fuel code

end tasks

end Classlet
