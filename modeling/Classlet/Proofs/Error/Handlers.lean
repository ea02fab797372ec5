import Classlet.Proofs.Error.Frames
import Classlet.Proofs.Run.Adequacy

/-! # Errors have error classes, and handlers take them

The built-in classes come first in memory and stay there, so that the class of every error of the
runtime derives from `Error`; what the program throws is checked.  So whatever raises an error, its
class derives from `Error` (`Raises.isErrorClass`).

A `try` block passes an error to the first handler whose class is the class of what was raised or
stands above it, with the exception bound to the name of the handler, and then ends as the handler
does.  If there is none, the error leaves the block as it is.  A handler for `Error` is always
taken. -/

namespace Classlet

open Eval

/-! ### The built-in classes -/

namespace Memory

variable {m : Memory}

theorem classInfo_kind (h : Memory.initial.Keeps m) (k : ErrorKind) :
    m.classInfo k.classRef = k.classInfo := by
  have hin : k.classRef.index < Memory.initial.classes.size := by cases k <;> decide
  rw [h.classInfo_eq hin]
  cases k <;> rfl

theorem chain_eq (m : Memory) (c : ClassRef) :
    m.chain c = c :: (m.classInfo c).base.elim [] (m.chainFrom c.index) := rfl

/-- A handler takes the errors of its class and of the classes below it. -/
theorem shouldCatch_eq_isA (m : Memory) (raised caught : ClassRef) :
    m.shouldCatch raised caught = m.isA raised caught := by
  rw [shouldCatch, isBaseOf, isA, chain_eq, List.tail_cons, List.contains_cons]
  congr 1
  exact decide_eq_decide.mpr ⟨Eq.symm, Eq.symm⟩

theorem isErrorClass_kind (h : Memory.initial.Keeps m) (k : ErrorKind) :
    m.isErrorClass k.classRef = true := by
  have hclass := classInfo_kind h k
  rw [isErrorClass, isA, chain_eq, hclass]
  cases k <;> rfl

/-- Class questions depend on classes only. -/
theorem isA_congr {n : Memory} (h : n.classes = m.classes) (c d : ClassRef) :
    n.isA c d = m.isA c d := by
  rw [isA, isA, chain_congr h]

end Memory

/-! ### States of a run -/

/-- The scopes are in order, and memory has grown from what it was before anything ran. -/
structure State.Grown (s : State) : Prop where
  sound : s.Sound
  memory : Memory.initial.Keeps s.memory

theorem Store.alters_defineAll (c : ContextId) : ∀ (names : List (String × Value)) (s : Store),
    s.memory.Alters (s.defineAll c names).memory
  | [], s => .refl s.memory
  | (name, v) :: more, s => by
      unfold Store.defineAll Store.define
      cases s.newPlace c name with
      | ok scope =>
          have hmore := alters_defineAll c more (s.bindCopy scope name v)
          exact (s.memory.alters_copyForBinding v).trans hmore
      | error fault => exact alters_defineAll c more s

theorem grown_initial : State.initial.Grown := by
  refine ⟨sound_initial, ?_⟩
  unfold State.initial
  generalize ({} : Arena Value).openContext none = opened
  exact (Store.alters_defineAll opened.1 _ { memory := .initial, scopes := opened.2 }).keeps

theorem State.Grown.settled {α : Type} {own : List ScopeId} {s s' : State} {o : Outcome α}
    (h : s.Grown) (hsettles : Settles own s (o, s')) : s'.Grown :=
  ⟨hsettles.sound, h.memory.trans hsettles.memory⟩

/-- Only classes can be missing: there is nothing else before anything has run. -/
theorem Memory.keeps_initial {m : Memory}
    (h : Memory.initial.classes.toList <+: m.classes.toList) : Memory.initial.Keeps m :=
  ⟨h, List.nil_prefix, List.nil_prefix, List.nil_prefix⟩

/-- No step takes a class away. -/
theorem Moment.Step.classes {m m' : Moment} (h : m.Step m') :
    m.state.memory.classes.toList <+: m'.state.memory.classes.toList := by
  have hbind : ∀ {place : Store → Except BindFault ScopeId} {f : Store → ScopeId → Store},
      (∀ t r, (f t r).memory.classes = t.memory.classes) →
        m.state.memory.classes.toList <+: (bindAt place f m.state).2.memory.classes.toList := by
    intro place f hf
    rcases bindAt_cases place f m.state with hsame | ⟨scope, -, hbind⟩
    · rw [hsame]
    · rw [hbind, hf]
  have hcopy : ∀ name v (t : Store) (r : ScopeId),
      (t.bindCopy r name v).memory.classes = t.memory.classes :=
    fun _ v t _ => (t.memory.alters_copyForBinding v).classes
  cases h with
  | worked hworks => exact hworks.classes
  | collected hcollects => exact hcollects.trims.memory ▸ List.prefix_rfl
  | captured decl returns _ => exact List.prefix_rfl
  | assigned name v => exact hbind (hcopy name v)
  | bound c shared name v _ _ =>
    unfold bindNew defineShared define
    split
    · exact hbind fun _ _ => rfl
    · exact hbind (hcopy name v)
  | called _ henter =>
    rw [(openCall_eq_ok henter).2]
    exact List.prefix_rfl
  | module hstep =>
    cases hstep with
    | imported _ _ _ hnew =>
      exact (congrArg (fun r => r.2.memory.classes.toList) hnew) ▸ List.prefix_rfl
    | evaluated _ hnew =>
      exact (congrArg (fun r => r.2.memory.classes.toList) hnew) ▸ List.prefix_rfl
    | completed exports _ => exact List.prefix_rfl
    | failed trace _ => exact List.prefix_rfl
  | _ => exact List.prefix_rfl

/-- At every moment of a run the state has grown from the initial one. -/
theorem Moment.Leads.grown {m : Moment} (h : Moment.start.Leads m) : m.state.Grown := by
  have hclasses := h.keeps
    (Q := fun m => Memory.initial.classes.toList <+: m.state.memory.classes.toList)
    (fun _ hstep _ hm => hm.trans hstep.classes) grown_initial.memory.classes
  exact ⟨h.last.sound, Memory.keeps_initial hclasses⟩

/-- A scene for a state about whose callers nothing is known. -/
def Scene.ofState (s : State) : Scene :=
  { state := s
    here := { activation := s.activation }
    callers := List.replicate s.depth { activation := s.activation } }

theorem Scene.fit_ofState (s : State) : (Scene.ofState s).Fit := ⟨rfl, List.length_replicate⟩

/-! ### The classes of errors -/

section classes
variable {α : Type} {m : Scene} {sites : List Site} {error : RuntimeError} {s : State}

theorem RuntimeError.raised_record (error : RuntimeError) (depth : Nat) (frame : TraceFrame) :
    (error.record depth frame).raised = error.raised := by
  unfold record
  split <;> rfl

/-- **The class of every error derives from `Error`**, wherever it was raised. -/
theorem Scene.Raises.isErrorClass {x : Eval α} (h : m.Raises x sites)
    (hm : Memory.initial.Keeps m.state.memory) (hx : x m.state = (.raised error, s)) :
    s.memory.isErrorClass error.raised.classRef = true := by
  induction h generalizing error s with
  | failed c =>
      cases hx
      exact Memory.isErrorClass_kind hm c.kind
  | thrown hclass =>
      cases hx
      exact hclass
  | same hsame _ ih => exact ih hm (hsame.symm.trans hx)
  | first hr _ ih =>
      rw [bind_apply, hr] at hx
      cases hx
      exact ih hm hr
  | later hr hproceeds _ ih =>
      rw [bind_apply, hr] at hx
      exact ih (hm.trans hproceeds.memory) hx
  | inScope _ ih =>
      obtain ⟨s₁, htrims, hr⟩ := of_inNewScope_raised hx
      rw [htrims.memory]
      exact ih hm hr
  | inStatement _ ih =>
      obtain ⟨error₁, hr, rfl⟩ := of_recording_raised hx
      rw [RuntimeError.raised_record]
      exact ih hm hr
  | unhandled hr he _ ih =>
      rw [handling, hr] at hx
      cases he.symm.trans hx
      exact ih hm hr
  | inHandler hr hproceeds _ ih =>
      rw [handling, hr] at hx
      exact ih (hm.trans hproceeds.memory) hx
  | inBody e activation _ ih =>
      obtain ⟨s₁, rfl, hr⟩ := of_withActivation_raised hx
      have hclass := ih hm hr
      exact hclass
  | inContext _ ih =>
      obtain ⟨s₁, htrims, hr⟩ := of_releasing_raised hx
      rw [htrims.memory]
      exact ih hm hr
  | inModule _ ih =>
      obtain ⟨s₁, rfl, hr⟩ := of_tracing_raised hx
      have hclass := ih hm hr
      exact hclass

theorem Placed.isErrorClass {x : Eval α} (hx : Placed x) {s₀ : State} (hs : s₀.Grown)
    (h : x s₀ = (.raised error, s)) : s.memory.isErrorClass error.raised.classRef = true := by
  obtain ⟨sites, hraises⟩ := hx (Scene.ofState s₀) (Scene.fit_ofState s₀) hs.sound error s h
  exact hraises.isErrorClass hs.memory h

end classes

/-! ### The choice of a handler -/

namespace CatchClause

def name : CatchClause → String
  | mk name _ _ _ => name

def body : CatchClause → List Statement
  | mk _ _ body _ => body

end CatchClause

/-- The first of some handlers whose class is the class of what was raised or stands above it. -/
structure Chooses (k : Memory) (raised : Raised) (clauses : List CatchClause)
    (classes : List ClassRef) (i : Nat) (clause : CatchClause) (c : ClassRef) : Prop where
  clause : clauses[i]? = some clause
  ofClass : classes[i]? = some c
  isA : k.isA raised.classRef c = true
  first : ∀ j < i, ∀ d, classes[j]? = some d → k.isA raised.classRef d = false

section choice
variable {e : Engine} {error : RuntimeError} {s : State}

theorem length_catchClasses : ∀ {clauses : List CatchClause} {classes : List ClassRef}
    {s s' : State}, catchClasses e clauses s = (.ok classes, s') →
      classes.length = clauses.length
  | [], _, _, _, h => by
      cases h
      rfl
  | .mk _ _ _ _ :: more, _, _, _, h => by
      obtain ⟨c, s₁, -, h⟩ := of_bind_ok h
      obtain ⟨cs, s₂, hmore, h⟩ := of_bind_ok h
      cases h
      exact congrArg (· + 1) (length_catchClasses hmore)

/-- What the handler of a clause does. -/
def runHandler (e : Engine) (raised : Raised) (clause : CatchClause) : Eval Completion := do
  let exception ← exceptionOf raised
  withVariable clause.name exception (e.execStatements clause.body)

/-- The first handler whose class is right takes an error, or it is raised again. -/
theorem execHandlers_cases : ∀ {clauses : List CatchClause} {classes : List ClassRef},
    classes.length = clauses.length →
    (∃ i clause c, Chooses s.memory error.raised clauses classes i clause c ∧
      execHandlers e clauses classes error s = runHandler e error.raised clause s) ∨
    ((∀ d ∈ classes, s.memory.isA error.raised.classRef d = false) ∧
      execHandlers e clauses classes error s = (.raised error, s))
  | [], [], _ => by
      rw [execHandlers]
      · exact .inr ⟨List.forall_mem_nil _, rfl⟩
      · exact fun name type body line more c cs hc => by cases hc
  | .mk name errorType body line :: more, c :: cs, hlength => by
      rw [execHandlers, bind_apply, Eval.readMemory]
      dsimp only
      rw [Memory.shouldCatch_eq_isA]
      cases hc : s.memory.isA error.raised.classRef c with
      | true =>
          rw [if_pos rfl]
          refine .inl ⟨0, .mk name errorType body line, c, ⟨rfl, rfl, hc, fun j hj => ?_⟩, rfl⟩
          exact absurd hj (Nat.not_lt_zero j)
      | false =>
          rw [if_neg Bool.false_ne_true]
          have hmore : cs.length = more.length := Nat.succ.inj hlength
          rcases execHandlers_cases hmore with ⟨i, clause, d, hchooses, he⟩ | ⟨hnone, he⟩
          · refine .inl ⟨i + 1, clause, d, ⟨hchooses.clause, hchooses.ofClass, hchooses.isA, ?_⟩,
              he⟩
            intro j hj d' hd'
            cases j with
            | zero =>
                cases hd'
                exact hc
            | succ j => exact hchooses.first j (by omega) d' hd'
          · exact .inr ⟨List.forall_mem_cons.mpr ⟨hc, hnone⟩, he⟩

end choice

/-! ### The exception of a handler -/

/-- What happens before the statements of a handler run: the exception is bound in a scope of its
own. -/
def beginHandler (name : String) (raised : Raised) : Eval Unit := do
  let exception ← exceptionOf raised
  let c ← context
  let _ ← pushScope c
  define c name exception

section exceptions
variable {s : State} {name : String}

/-- The copy of an instance is an instance of the same class.  Where nothing is copied, it is the
instance itself. -/
theorem Memory.copyForBinding_instance (k : Memory) (i : InstanceRef) :
    ∃ j, (k.copyForBinding (.instance i)).1 = .instance j ∧ j.ofClass = i.ofClass ∧
      (i.isStruct = false → j = i ∧ (k.copyForBinding (.instance i)).2 = k) := by
  unfold copyForBinding
  split
  · rename_i hstruct
    have hstruct : i.isStruct = true := hstruct
    unfold copyAt
    dsimp only
    rw [if_pos hstruct]
    refine ⟨_, rfl, rfl, fun hnot => ?_⟩
    rw [hstruct] at hnot
    cases hnot
  · exact ⟨i, rfl, rfl, fun _ => ⟨rfl, rfl⟩⟩

/-- The exception that a handler sees is an instance of the class of what was raised.  One that was
made for an error of the runtime holds its message. -/
theorem exceptionOf_spec (hs : s.Grown) (raised : Raised) :
    ∃ i s', exceptionOf raised s = (.ok (.instance i), s') ∧ i.ofClass = raised.classRef ∧
      s'.memory.classes = s.memory.classes ∧
      ∀ c, raised = .cause c →
        i.isStruct = false ∧ s'.memory.field? i "message" = some (.str c.message) := by
  cases raised with
  | thrown i => exact ⟨i, s, rfl, rfl, rfl, fun c h => by cases h⟩
  | cause c =>
      refine ⟨_, _, rfl, rfl, rfl, fun d h => ?_⟩
      cases h
      constructor
      · show (s.memory.classInfo c.kind.classRef).isStruct = false
        rw [Memory.classInfo_kind hs.memory]
        unfold ErrorKind.classInfo
        split <;> rfl
      · simp [Memory.field?, Memory.fields, Memory.pushInstance, Bindings.get?]

/-- A new variable of a context has its place in the innermost scope. -/
theorem Store.newPlace_of_stack {t : Store} {c : ContextId} {top : ScopeId} {rest : List ScopeId}
    (hstack : (t.scopes.context c).scopes = top :: rest) (hname : isReserved name = false) :
    t.newPlace c name = .ok top := by
  rw [Store.newPlace, hname, if_neg Bool.false_ne_true, Arena.innermost, hstack]

theorem define_of_stack {c : ContextId} {top : ScopeId} {rest : List ScopeId} (v : Value)
    (hstack : (s.scopes.context c).scopes = top :: rest) (hname : isReserved name = false) :
    define c name v s = (.ok (), { s with toStore := s.toStore.bindCopy top name v }) := by
  rw [define, bindAt]
  dsimp only
  rw [Store.newPlace_of_stack hstack hname]

theorem defineShared_of_stack {c : ContextId} {top : ScopeId} {rest : List ScopeId} (v : Value)
    (hstack : (s.scopes.context c).scopes = top :: rest) (hname : isReserved name = false) :
    defineShared c name v s = (.ok (), { s with toStore := s.toStore.bindShared top name v }) := by
  rw [defineShared, bindAt]
  dsimp only
  rw [Store.newPlace_of_stack hstack hname]

/-- A name that was bound in the innermost scope is found there. -/
theorem Store.lookup_bindCopy {t : Store} {c : ContextId} {top : ScopeId} {rest : List ScopeId}
    (v : Value) (hstack : (t.scopes.context c).scopes = top :: rest)
    (hlt : top.index < t.scopes.frames.size) :
    (t.bindCopy top name v).lookup c name = .ok (t.memory.copyForBinding v).1 := by
  unfold lookup Arena.get? Arena.getFrom? bindCopy
  dsimp only
  rw [Arena.context_bind, hstack, List.findSome?_cons, Arena.values_bind hlt, if_pos rfl,
    Bindings.get?_insert_self]

/-- The exception is bound when the statements of a handler begin. -/
theorem beginHandler_spec (hs : s.Grown) (raised : Raised) (hname : isReserved name = false) :
    ∃ i s', beginHandler name raised s = (.ok (), s') ∧
      s'.toStore.lookup s'.activation.context name = .ok (.instance i) ∧
      i.ofClass = raised.classRef ∧ s'.memory.classes = s.memory.classes ∧
      ∀ c, raised = .cause c → s'.memory.field? i "message" = some (.str c.message) := by
  obtain ⟨i, s₁, hexception, hclass, hclasses, hmessage⟩ := exceptionOf_spec hs raised
  have hsettles := isolated_closed.exceptionOf raised s hs.sound
  rw [hexception] at hsettles
  have hopen := hsettles.sound.here
  have hpushed := hsettles.sound.pushScope hopen
  have hstack : ((s₁.scopes.pushScope s₁.activation.context).2.context
      s₁.activation.context).scopes = (s₁.scopes.pushScope s₁.activation.context).1 ::
        (s₁.scopes.context s₁.activation.context).scopes := by
    rw [Arena.context_pushScope hopen.1, if_pos rfl]
  have hlt := hpushed.exact.scope_lt s₁.activation.context _ (by
    rw [hstack]
    exact List.mem_cons_self)
  obtain ⟨j, hcopy, hsame, hkept⟩ := s₁.memory.copyForBinding_instance i
  refine ⟨j, { s₁ with
    toStore := Store.bindCopy ⟨s₁.memory, (s₁.scopes.pushScope s₁.activation.context).2⟩
      (s₁.scopes.pushScope s₁.activation.context).1 name (.instance i) }, ?_, ?_,
    hsame.trans hclass, ?_, fun c h => ?_⟩
  · unfold beginHandler
    rw [bind_apply, hexception]
    exact define_of_stack (.instance i) hstack hname
  · rw [← hcopy]
    exact Store.lookup_bindCopy (.instance i) hstack hlt
  · exact (s₁.memory.alters_copyForBinding _).classes.trans hclasses
  · obtain ⟨hstruct, hfield⟩ := hmessage c h
    obtain ⟨rfl, hmemory⟩ := hkept hstruct
    show (s₁.memory.copyForBinding (.instance j)).2.field? j "message" = _
    rw [hmemory]
    exact hfield

end exceptions

/-! ### Try blocks -/

section blocks
variable {e : Engine} {s s' : State} {st : Statement}

/-- An error that was recorded at the depth of a statement leaves it as it is. -/
theorem recording_of_recorded {x : Eval Completion}
    (h : ∀ error s', x s = (.raised error, s') → error.recordedDepth = some s'.depth) :
    recording st x s = x s := by
  unfold recording
  rcases hr : x s with ⟨_ | error | _, s'⟩
  · rfl
  · dsimp only
    rw [RuntimeError.record, if_pos (h error s' hr)]
  · rfl

theorem runHandler_eq {raised : Raised} {clause : CatchClause} {s₁ s₂ : State}
    {o : Outcome Completion} (hconfined : Confined Activation.context (runHandler e raised clause))
    (hs : s.Sound) (hbegin : beginHandler clause.name raised s = (.ok (), s₁))
    (hbody : e.execStatements clause.body s₁ = (o, s₂)) :
    ∃ s₃, s₂.Trims s₃ ∧ runHandler e raised clause s = (o, s₃) := by
  have hfault := (hconfined s hs hs.here).noFault
  obtain ⟨v, s₀, hexception, hbegin⟩ := of_bind_ok hbegin
  have hrun : runHandler e raised clause s =
      poppingScope s₀.activation.context (s₀.scopes.pushScope s₀.activation.context).1
        (context >>= fun c => define c clause.name v >>= fun _ => e.execStatements clause.body)
        { s₀ with scopes := (s₀.scopes.pushScope s₀.activation.context).2 } := by
    unfold runHandler withVariable inNewScope
    rw [bind_apply, hexception]
    rfl
  have hdefine : (context >>= fun c => define c clause.name v >>= fun _ =>
      e.execStatements clause.body)
        { s₀ with scopes := (s₀.scopes.pushScope s₀.activation.context).2 } = (o, s₂) := by
    have hdefined : define s₀.activation.context clause.name v
        { s₀ with scopes := (s₀.scopes.pushScope s₀.activation.context).2 } = (.ok (), s₁) :=
      hbegin
    simp only [bind_apply, context, Eval.read]
    rw [hdefined]
    exact hbody
  unfold poppingScope at hrun
  rw [hdefine] at hrun
  dsimp only at hrun
  cases hpop : s₂.scopes.popFault? s₀.activation.context
      (s₀.scopes.pushScope s₀.activation.context).1 with
  | none =>
      rw [hpop] at hrun
      exact ⟨_, s₂.trims_dropScope _ _, hrun⟩
  | some fault =>
      rw [hpop] at hrun
      exact absurd (congrArg Prod.fst hrun) (hfault fault)

/-- How a `try` block ends when an error has left its statements in the state `s`. -/
inductive TryEnds (e : Engine) (clauses : List CatchClause) (classes : List ClassRef)
    (error : RuntimeError) (s : State) (r : Outcome Completion × State) : Prop where
  /-- A handler takes the error: the exception is bound to its name, and the block ends as the
  statements of the handler do. -/
  | handled {i : Nat} {clause : CatchClause} {c : ClassRef} {exception : InstanceRef}
      {s₁ : State} :
      Chooses s.memory error.raised clauses classes i clause c →
      beginHandler clause.name error.raised s = (.ok (), s₁) →
      s₁.toStore.lookup s₁.activation.context clause.name = .ok (.instance exception) →
      s₁.memory.isA exception.ofClass c = true →
      (∀ cause, error.raised = .cause cause →
        s₁.memory.field? exception "message" = some (.str cause.message)) →
      r.1 = (e.execStatements clause.body s₁).1 → TryEnds e clauses classes error s r
  /-- No handler takes the error, and none is for `Error`. -/
  | passed :
      (∀ c ∈ classes, s.memory.isA error.raised.classRef c = false) → .error ∉ classes →
      r = (.raised error, s) → TryEnds e clauses classes error s r

/-- What a `try` block does once an error has left its statements. -/
theorem execStatement_try {line : UInt32} {body : List Statement} {clauses : List CatchClause}
    {classes : List ClassRef} {s₁ s₂ : State} {error : RuntimeError} (hne : clauses ≠ [])
    (hclasses : catchClasses e clauses s = (.ok classes, s₁))
    (hbody : inNewScope (e.execStatements body) s₁ = (.raised error, s₂)) :
    e.execStatement (.mk line (.block body clauses)) s =
      recording (.mk line (.block body clauses)) (execHandlers e clauses classes error) s₂ := by
  obtain ⟨clause, more, rfl⟩ := List.exists_cons_of_ne_nil hne
  rw [Engine.execStatement, execKind]
  unfold recording
  rw [bind_apply, hclasses]
  dsimp only
  rw [handling, hbody]

/-- An error that leaves the statements of a block has been recorded at its depth. -/
theorem recordedDepth_block {body : List Statement} {error : RuntimeError}
    (h : inNewScope (e.execStatements body) s = (.raised error, s')) :
    error.recordedDepth = some s'.depth := by
  obtain ⟨s₁, htrims, hr⟩ := of_inNewScope_raised h
  rw [htrims.depth]
  exact recordedDepth_execStatements hr

theorem tryEnds_execStatement {line : UInt32} {body : List Statement} {clauses : List CatchClause}
    {classes : List ClassRef} {s₁ s₂ : State} {error : RuntimeError} (hne : clauses ≠ [])
    (hclasses : catchClasses e clauses s = (.ok classes, s₁))
    (hbody : inNewScope (e.execStatements body) s₁ = (.raised error, s₂)) (hs : s₂.Grown)
    (hconfined : ∀ code, Confined Activation.context (e.execStatements code))
    (herror : s₂.memory.isErrorClass error.raised.classRef = true)
    (hnames : ∀ clause ∈ clauses, isReserved clause.name = false) :
    TryEnds e clauses classes error s₂ (e.execStatement (.mk line (.block body clauses)) s) := by
  rw [execStatement_try hne hclasses hbody]
  rcases execHandlers_cases (length_catchClasses hclasses) with
    ⟨i, clause, c, hchooses, he⟩ | ⟨hnone, he⟩
  · obtain ⟨exception, s₃, hbegin, hlookup, hclass, hsame, hmessage⟩ :=
      beginHandler_spec hs error.raised (hnames clause (List.mem_of_getElem? hchooses.clause))
    have hhandler : Confined Activation.context (runHandler e error.raised clause) :=
      (isolated_closed.exceptionOf _).confined.bind fun v =>
        (hconfined clause.body).withVariable clause.name v
    rcases hrun : e.execStatements clause.body s₃ with ⟨o, s₄⟩
    obtain ⟨s₅, htrims, hends⟩ := runHandler_eq hhandler hs.sound hbegin hrun
    rw [hends] at he
    refine .handled hchooses hbegin hlookup ?_ hmessage ?_
    · rw [hclass, Memory.isA_congr hsame]
      exact hchooses.isA
    · rw [recording_of_recorded, he, hrun]
      intro error' s' hraised
      cases he.symm.trans hraised
      rw [htrims.depth]
      exact recordedDepth_execStatements hrun
  · refine .passed hnone (fun hmem => ?_) ?_
    · have hno := hnone _ hmem
      rw [Memory.isErrorClass] at herror
      rw [herror] at hno
      cases hno
    · rw [recording_of_recorded, he]
      intro error' s' hraised
      cases he.symm.trans hraised
      exact recordedDepth_block hbody

end blocks

/-- **Handlers take the errors of their class, and a handler for `Error` takes all.**  Whatever is
run, the class of an error that it raises derives from `Error`; and if an error leaves the
statements of a `try` block, then the first handler whose class is right takes it, or it leaves the
block as it is. -/
theorem State.Grown.errors_handled {s : State} (h : s.Grown) (settings : Settings)
    (loader : Loader) (fuel : Nat) :
    (∀ task : Task, (task.run (engine settings loader fuel) s).2.Grown ∧
      ∀ error s', task.run (engine settings loader fuel) s = (.raised error, s') →
        s'.memory.isErrorClass error.raised.classRef = true) ∧
    ∀ line body clauses classes s₁ error s₂, clauses ≠ [] →
      catchClasses (engine settings loader fuel) clauses s = (.ok classes, s₁) →
      inNewScope ((engine settings loader fuel).execStatements body) s₁ = (.raised error, s₂) →
      (∀ clause ∈ clauses, isReserved clause.name = false) →
      TryEnds (engine settings loader fuel) clauses classes error s₂
        ((engine settings loader fuel).execStatement (.mk line (.block body clauses)) s) := by
  have he := rules.engine settings loader fuel
  have hconfined := rules.execStatements he
  refine ⟨fun task => ⟨?_, fun error s' hraised => ?_⟩, ?_⟩
  · exact h.settled (confined_task settings loader fuel task s h.sound h.sound.here)
  · exact (placed_task settings loader fuel task).isErrorClass h hraised
  · intro line body clauses classes s₁ error s₂ hne hclasses hbody hnames
    have hcatch := rules.closed.catchClasses he clauses s h.sound
    rw [hclasses] at hcatch
    have hs₁ := h.settled hcatch
    have hblock := (hconfined body).inNewScope s₁ hs₁.sound hs₁.sound.here
    rw [hbody] at hblock
    have hplaced := placed_inNewScope (placed_execStatements settings loader fuel body)
    have herror := hplaced.isErrorClass hs₁ hbody
    exact tryEnds_execStatement hne hclasses hbody (hs₁.settled hblock) hconfined herror hnames

/-- A name that is not bound, in a block with handlers for `TypeError` and for `Error`. -/
def guardedName : List CatchClause :=
  [.mk "e" (.var "TypeError") [] 2, .mk "e" (.var "Error") [] 3]

/-- The value that an evaluation came to. -/
def Outcome.value? {α : Type} : Outcome α → Option α
  | .ok value => some value
  | .raised _ => none
  | .stopped _ => none

/-- The error is no `TypeError`, so that the second handler takes it. -/
theorem errors_handled_unbound_name :
    let e := engine {} (fun _ => .unknown) 1
    let body : List Statement := [.mk 1 (.expression (.var "x"))]
    ∃ classes s₁ error s₂, catchClasses e guardedName State.initial = (.ok classes, s₁) ∧
      inNewScope (e.execStatements body) s₁ = (.raised error, s₂) ∧
      classes = [ErrorKind.type.classRef, .error] ∧
      error.raised.classRef = ErrorKind.identifier.classRef ∧
      TryEnds e guardedName classes error s₂
        (e.execStatement (.mk 1 (.block body guardedName)) State.initial) := by
  intro e body
  have hends := (grown_initial.errors_handled {} (fun _ => .unknown) 1).2 1 body guardedName
  have hclasses : (catchClasses e guardedName State.initial).1.value? =
      some [ErrorKind.type.classRef, .error] := by decide +kernel
  have hbody : (inNewScope (e.execStatements body)
      (catchClasses e guardedName State.initial).2).1.error?.map (fun error =>
        error.raised.classRef) = some ErrorKind.identifier.classRef := by decide +kernel
  generalize hr : catchClasses e guardedName State.initial = r at hclasses hbody
  obtain ⟨classes | _ | _, s₁⟩ := r
  · generalize hr' : inNewScope (e.execStatements body) s₁ = r' at hbody
    obtain ⟨_ | error | _, s₂⟩ := r'
    · cases hbody
    · refine ⟨classes, s₁, error, s₂, rfl, hr', Option.some.inj hclasses, Option.some.inj hbody, ?_⟩
      exact hends classes s₁ error s₂ (List.cons_ne_nil _ _) hr hr' (by decide +kernel)
    · cases hbody
  · cases hclasses
  · cases hclasses

end Classlet
