import Classlet.Proofs.Run.Turn

/-! # Runs are made of turns

A computation is `Paced` if from every fit moment it gets to its end in turns, through fit moments
only.  A property that every turn keeps is then a property of the whole run, at all of its moments.

The lemmas follow `Eval.Rules`: what expressions do, assignments, blocks and handlers.  That a block
can be closed is known since code is confined, so being paced and being confined go together. -/

namespace Classlet

open Eval

variable {α β : Type} {m : Moment}

namespace Moment

def after (m : Moment) (x : Eval α) : Moment := m.withState (x m.state).2

/-- A computation takes turns, and then the rest does. -/
theorem turns_bind {x : Eval α} {f : α → Eval β} (hx : m.Turns (m.after x))
    (hf : ∀ a s, x m.state = (.ok a, s) → (m.withState s).Fit →
      (m.withState s).Turns ((m.withState s).after (f a))) :
    m.Turns (m.after (x >>= f)) := by
  unfold after at hx ⊢
  rw [bind_apply]
  rcases hr : x m.state with ⟨a | error | why, s⟩
  · rw [hr] at hx
    exact hx.trans (hf a s hr hx.last)
  · rw [hr] at hx
    exact hx
  · rw [hr] at hx
    exact hx

end Moment

/-- From every fit moment, a computation gets to its end in turns. -/
def Paced ⦃α : Type⦄ (x : Eval α) : Prop := ∀ m : Moment, m.Fit → m.Turns (m.after x)

/-- From every fit moment, a computation gets to its end in steps. -/
def Traced ⦃α : Type⦄ (x : Eval α) : Prop := ∀ m : Moment, m.Fit → m.Leads (m.after x)

theorem Paced.traced {x : Eval α} (h : Paced x) : Traced x := fun m hm => (h m hm).leads

/-! ### Expressions -/

theorem Paced.andThen {x : Eval α} {f : α → Eval β} (hx : Paced x)
    (hf : ∀ a, x.Returns a → Paced (f a)) : Paced (x >>= f) := by
  intro m hm
  exact Moment.turns_bind (hx m hm) fun a s hr => hf a ⟨m.state, s, hr⟩ _

theorem paced_of_same {x : Eval α} (h : ∀ s, (x s).2 = s) : Paced x := by
  intro m hm
  unfold Moment.after
  rw [h]
  exact .refl hm

/-- What changes objects and other things that are not looked at is paced. -/
theorem paced_of_works {x : Eval α} (h : ∀ s : State, s.Works (x s).2) : Paced x :=
  fun m hm => (Moment.Turn.worked (h m.state)).turns hm (hm.works (h m.state))

theorem paced_remember {f : Memory → α × Memory} (h : ∀ k : Memory, k.Alters (f k).2)
    (hobjects : ∀ k : Memory, k.Nests → k.Evolves (f k).2) : Paced (remember f) := by
  refine paced_of_works fun s =>
    .of_memory ?_ (h s.memory).modules (h s.memory).keeps.classes (hobjects s.memory)
  rw [Memory.signatures, (h s.memory).functions]
  rfl

theorem Moment.turns_collects {s : State} (hm : m.Fit) (h : m.state.Collects s) :
    m.Turns (m.withState s) :=
  (Turn.collected h).turns hm (State.Fit.collects hm h)

theorem paced_reclaim : Paced reclaim := by
  intro m hm
  obtain ⟨t, hreclaim, -⟩ := hm.sound.reclaim
  unfold Moment.after
  rw [hreclaim]
  exact Moment.turns_collects hm (.reclaimed hreclaim)

theorem paced_freezeFunction (decl : FunctionDecl) {params : List ParamSpec}
    (returns : List TypeSpec) (hparams : (params.map ParamSpec.name).Nodup) :
    Paced (freezeFunction decl params returns) := by
  intro m hm
  refine (Moment.Turn.captured decl returns hparams).turns hm ⟨?_, ?_⟩
  · exact (isolated_freezeFunction decl params returns m.state hm.sound).sound
  · intro f hf
    have hsignatures : (freezeFunction decl params returns m.state).2.memory.signatures =
        m.state.memory.signatures ++
          [((m.state.scopes.freeze m.state.activation.context).1, params)] := by
      simp [freezeFunction, remember, Memory.newFunction, Memory.signatures]
    rcases List.mem_append.mp (hsignatures ▸ hf) with hf | hf
    · exact hm.params f hf
    · rw [List.mem_singleton.mp hf]
      exact hparams

theorem paced_captureFunction (decl : FunctionDecl) {params : List ParamSpec}
    (returns : List TypeSpec) (hparams : (params.map ParamSpec.name).Nodup) :
    Paced (captureFunction decl params returns) :=
  paced_reclaim.andThen fun _ _ => paced_freezeFunction decl returns hparams

theorem paced_closed : Closed Paced where
  pure _ := paced_of_same fun _ => rfl
  andThen := Paced.andThen
  fail _ := paced_of_same fun _ => rfl
  stop _ _ := paced_of_same fun _ => rfl
  read _ := paced_of_same fun _ => rfl
  copied v := paced_remember (fun k => k.alters_copyForBinding v)
    fun _ hk => .of_grows (Memory.grows_copyForBinding hk v) hk
  newList _ := paced_remember (fun _ => ⟨rfl, rfl, rfl, rfl⟩) fun _ hk => .of_instances hk rfl
  newInstance c _ hfields := paced_of_works fun s => s.works_newInstance c hfields
  newMethod _ := paced_of_works fun _ =>
    .of_memory rfl rfl List.prefix_rfl fun hk => .of_instances hk rfl
  bindField i name v := paced_remember (fun k => k.alters_bindField i name v)
    fun _ hk => Memory.evolves_bindField hk i name v
  modifyList _ _ _ := paced_remember (fun _ => ⟨rfl, rfl, rfl, rfl⟩)
    fun _ hk => .of_instances hk rfl
  print _ := paced_of_works fun _ => .of_same rfl rfl rfl rfl rfl rfl List.prefix_rfl
  captureFunction decl _ returns hparams := paced_captureFunction decl returns hparams

/-! ### Variables -/

/-- The store changes at the scope that a rule finds, or nothing does. -/
theorem bindAt_cases (place : Store → Except BindFault ScopeId) (f : Store → ScopeId → Store)
    (s : State) : (bindAt place f s).2 = s ∨ ∃ scope, place s.toStore = .ok scope ∧
      (bindAt place f s).2 = { s with toStore := f s.toStore scope } := by
  unfold bindAt
  split
  · rename_i scope hscope
    exact .inr ⟨scope, hscope, rfl⟩
  · exact .inl rfl
  · exact .inl rfl

theorem functions_bindAt {place : Store → Except BindFault ScopeId} {f : Store → ScopeId → Store}
    (hf : ∀ t r, (f t r).memory.functions = t.memory.functions) (s : State) :
    (bindAt place f s).2.memory.functions = s.memory.functions := by
  rcases bindAt_cases place f s with h | ⟨scope, -, h⟩
  · rw [h]
  · rw [h]
    exact hf _ _

theorem functions_bindCopy (t : Store) (r : ScopeId) (name : String) (v : Value) :
    (t.bindCopy r name v).memory.functions = t.memory.functions :=
  (t.memory.alters_copyForBinding v).functions

theorem paced_assign (name : String) (v : Value) :
    Paced (context >>= fun c => assign c name v) := by
  intro m hm
  refine (Moment.Turn.assigned name v).turns hm (State.Fit.of_sound hm ?_ ?_)
  · exact (Settles.assign m.state.activation.context name v hm.sound hm.sound.here.1).sound
  · exact functions_bindAt (fun t r => functions_bindCopy t r name v) m.state

theorem traced_assign (name : String) (v : Value) :
    Traced (context >>= fun c => assign c name v) :=
  (paced_assign name v).traced

theorem Settles.bindNew {s : State} (hs : s.Sound) {c : ContextId} (hc : s.scopes.InUse c)
    (shared : Bool) (name : String) (v : Value) :
    Settles (s.scopes.context c).scopes s (bindNew c shared name v s) := by
  cases shared with
  | true => exact .defineShared c name v hs hc
  | false => exact .define c name v hs hc

theorem functions_bindNew (c : ContextId) (shared : Bool) (name : String) (v : Value) (s : State) :
    (bindNew c shared name v s).2.memory.functions = s.memory.functions := by
  unfold bindNew
  split
  · exact functions_bindAt (f := fun t r => t.bindShared r name v) (fun _ _ => rfl) s
  · exact functions_bindAt (fun t r => functions_bindCopy t r name v) s

theorem Store.innermost_of_newPlace {t : Store} {c : ContextId} {name : String} {scope : ScopeId}
    (h : t.newPlace c name = .ok scope) : t.scopes.innermost c = .ok scope := by
  unfold newPlace at h
  split at h
  · cases h
  · split at h
    · rename_i r hr
      cases h
      exact hr
    · cases h

theorem Arena.mem_of_innermost {a : Arena α} {c : ContextId} {scope : ScopeId}
    (h : a.innermost c = .ok scope) : scope ∈ (a.context c).scopes := by
  unfold innermost at h
  split at h
  · rename_i rest hstack
    cases h
    rw [hstack]
    exact List.mem_cons_self
  · cases h

/-- A new variable is bound in the innermost scope of its context, or not at all. -/
theorem scopes_bindNew (c : ContextId) (shared : Bool) (name : String) (v : Value) (s : State) :
    (bindNew c shared name v s).2.scopes = s.scopes ∨
      ∃ scope w, s.scopes.innermost c = .ok scope ∧
        (bindNew c shared name v s).2.scopes = s.scopes.bind scope name w := by
  unfold bindNew
  split
  · rcases bindAt_cases (fun t => t.newPlace c name) (fun t r => t.bindShared r name v) s with
      h | ⟨scope, hplace, h⟩
    · exact .inl (congrArg (fun s => s.scopes) h)
    · exact .inr ⟨scope, v, Store.innermost_of_newPlace hplace, congrArg (fun s => s.scopes) h⟩
  · rcases bindAt_cases (fun t => t.newPlace c name) (fun t r => t.bindCopy r name v) s with
      h | ⟨scope, hplace, h⟩
    · exact .inl (congrArg (fun s => s.scopes) h)
    · exact .inr ⟨scope, _, Store.innermost_of_newPlace hplace, congrArg (fun s => s.scopes) h⟩

/-- A name that its scope does not have is bound in one turn. -/
theorem Moment.turns_bindNew (hm : m.Fit) {c : ContextId} (hc : m.state.scopes.InUse c)
    (howner : c = m.state.activation.context ∨ ∃ rest, m.pending = .call c :: rest)
    (shared : Bool) {name : String} (v : Value)
    (hnew : ∀ scope, m.state.scopes.innermost c = .ok scope →
      (m.state.scopes.frame scope).values.get? name = none)
    (hshared : shared → ∃ rest, m.pending = .call c :: rest) :
    m.Turns (m.after (bindNew c shared name v)) :=
  (Turn.bound shared name v howner hnew hshared).turns hm
    (State.Fit.of_sound hm (Settles.bindNew hm.sound hc shared name v).sound
      (functions_bindNew c shared name v m.state))

/-! ### Blocks -/

theorem Moment.Fit.openBlock (hm : m.Fit) : m.openBlock.Fit :=
  State.Fit.of_sound hm (hm.sound.pushScope hm.sound.here) rfl

/-- What runs in a scope of its own begins with the scope and ends with it. -/
theorem Moment.turns_inNewScope {x : Eval α} (hm : m.Fit)
    (hsettles : Settles (m.openBlock.state.scopes.context m.state.activation.context).scopes
      m.openBlock.state (x m.openBlock.state))
    (hx : m.openBlock.Turns (m.openBlock.after x)) : m.Turns (m.after (inNewScope x)) := by
  have hopen := hm.sound.here
  have hopened : m.openBlock.state.scopes.Open m.state.activation.context :=
    hm.openBlock.sound.here
  have hown : (m.openBlock.state.scopes.context m.state.activation.context).scopes =
      (m.state.scopes.pushScope m.state.activation.context).1 ::
        (m.state.scopes.context m.state.activation.context).scopes := by
    unfold Moment.openBlock
    dsimp only
    rw [Arena.context_pushScope hopen.1, if_pos rfl]
  have hlet := hsettles.trans (hsettles.sound.lettingGo.settles hsettles.noFault)
  have hpop := Arena.popFault?_eq_none
    ((hsettles.scopes.context _ (.opened hopened)).scopes.trans hown)
  have hpop' := Arena.popFault?_eq_none
    ((hlet.scopes.context _ (.opened hopened)).scopes.trans hown)
  rw [hown] at hsettles
  have hend := (Settles.poppingScope hm.sound hopen hsettles).sound
  have hstate : (inNewScope x m.state).2 =
      (x m.openBlock.state).2.dropScope m.state.activation.context
        (m.state.scopes.pushScope m.state.activation.context).1 := by
    show (poppingScope m.state.activation.context
      (m.state.scopes.pushScope m.state.activation.context).1 x m.openBlock.state).2 = _
    unfold poppingScope
    dsimp only
    rw [hpop]
  have hshed := hx.trans (turns_collects hx.last .letGo)
  refine (Turn.opened.turns hm hm.openBlock).trans (hshed.step ?_ ?_)
  · unfold Moment.after
    rw [hstate]
    exact .closed rfl hpop'
  · exact State.Fit.of_sound hshed.last hend (congrArg (fun s => s.memory.functions) hstate)

theorem Moment.openBlock_unbound (hm : m.Fit) (name : String) (scope : ScopeId)
    (hscope : m.openBlock.state.scopes.innermost m.state.activation.context = .ok scope) :
    (m.openBlock.state.scopes.frame scope).values.get? name = none := by
  unfold Moment.openBlock at hscope ⊢
  dsimp only at hscope ⊢
  rw [Arena.innermost, Arena.context_pushScope hm.sound.here.1, if_pos rfl] at hscope
  cases hscope
  rw [Arena.frame_pushScope hm.sound.exact, if_pos rfl]
  rfl

theorem paced_inNewScope {x : Eval α} (hconfined : Confined Activation.context x)
    (hx : Paced x) : Paced (inNewScope x) := by
  intro m hm
  have hopened := hm.openBlock
  exact Moment.turns_inNewScope hm (hconfined _ hopened.sound hopened.sound.here) (hx _ hopened)

theorem paced_withVariable (name : String) (v : Value) {body : Eval Completion}
    (hconfined : Confined Activation.context body) (hbody : Paced body) :
    Paced (withVariable name v body) := by
  intro m hm
  have hopened := hm.openBlock
  have hin := hopened.sound.here
  have hdefine : Confined Activation.context (context >>= fun c => define c name v) :=
    fun s hs hopen => .define s.activation.context name v hs hopen.1
  have hturns := Moment.turns_bindNew hopened hin.1 (.inl rfl) false v
    (Moment.openBlock_unbound hm name) fun h => by cases h
  refine Moment.turns_inNewScope hm ((hdefine.bind fun _ => hconfined) _ hopened.sound hin) ?_
  exact Moment.turns_bind (x := context >>= fun c => define c name v) hturns fun _ _ _ => hbody _

/-! ### Errors -/

theorem paced_recording (statement : Statement) {x : Eval Completion} (hx : Paced x) :
    Paced (recording statement x) := by
  intro m hm
  have h := hx m hm
  unfold Moment.after recording at *
  generalize x m.state = r at h ⊢
  obtain ⟨o, s⟩ := r
  cases o <;> exact h

theorem paced_handling {x : Eval Completion} {handler : RuntimeError → Eval Completion}
    (hx : Paced x) (hhandler : Takes (@Paced Completion) handler) :
    Paced (handling x handler) := by
  intro m hm
  have h := hx m hm
  unfold Moment.after handling at *
  generalize x m.state = r at h ⊢
  obtain ⟨o, s⟩ := r
  cases o with
  | ok completion => exact h
  | raised error =>
      dsimp only
      rcases hhandler error s with he | ⟨y, hy, he⟩
      · rw [he]
        exact h
      · rw [he]
        exact h.trans (hy _ h.last)
  | stopped why => exact h

end Classlet
