import Classlet.Proofs.Evaluator.Collection

/-! # Scopes and activations balance

`Settles own s r` says of a computation that started in `s` and ended with `r`: the state is sound,
the activation and the depth are back, nothing but the variables of the scopes in `own` has changed
in what the program can still get at, and no fault of the scopes was met.  A computation is
`Isolated` if it settles without changing any variable, and `Confined` if it changes variables of
one context only.

Expressions are isolated and statements are confined to the running code.  Here are the steps that
they are made of; calls, modules and classes follow in `Classlet.Proofs.Evaluator.Calls`. -/

namespace Classlet

open Eval
open Arena (Exact Adds Extends)

variable {α β : Type} {s s' : State} {own : List ScopeId}

/-- The scopes were never found in disorder. -/
def Outcome.NoFault (o : Outcome α) : Prop := ∀ fault, o ≠ .stopped (.unbalanced fault)

theorem Outcome.NoFault.ok (a : α) : (Outcome.ok a).NoFault := fun _ he => by cases he

theorem Outcome.NoFault.raised (error : RuntimeError) :
    (Outcome.raised error : Outcome α).NoFault :=
  fun _ he => by cases he

/-- A computation that began in `s` has ended with the scopes in order and with the activation back,
and has changed at most variables of the scopes in `own`. -/
structure Settles (own : List ScopeId) (s : State) (r : Outcome α × State) : Prop where
  sound : r.2.Sound
  root : r.2.root = s.root
  activation : r.2.activation = s.activation
  depth : r.2.depth = s.depth
  memory : s.memory.Keeps r.2.memory
  gone : ∀ q ∈ s.gone, q ∈ r.2.gone
  spares : ∀ q, s.Spares q → r.2.Spares q
  /-- What the functions that are not gone hold is kept. -/
  scopes : Extends own (s.memory.held r.2.gone) s.scopes r.2.scopes
  noFault : r.1.NoFault

namespace Settles

theorem of_nil {r : Outcome α × State} (h : Settles [] s r) : Settles own s r :=
  { h with scopes := h.scopes.mono fun _ hm => by cases hm }

/-- The end of a computation in a state that differs in other things than scopes, functions and
activations. -/
theorem of_scopes (hs : s.Sound) {o : Outcome α} (hscopes : s'.scopes = s.scopes)
    (hclosures : s'.memory.closures = s.memory.closures) (hmemory : s.memory.Keeps s'.memory)
    (hgone : s'.gone = s.gone) (hschedule : s'.schedule = s.schedule) (hroot : s'.root = s.root)
    (hactivation : s'.activation = s.activation) (hdepth : s'.depth = s.depth)
    (ho : o.NoFault) : Settles own s (o, s') where
  sound := hs.of_scopes hscopes hclosures hgone hroot hactivation
  root := hroot
  activation := hactivation
  depth := hdepth
  memory := hmemory
  gone q hq := by
    show q ∈ s'.gone
    rw [hgone]
    exact hq
  spares q hq := by
    constructor
    · rw [hgone]
      exact hq.1
    · rw [hschedule]
      exact hq.2
  scopes := by
    show Extends own (s.memory.held s'.gone) s.scopes s'.scopes
    rw [hscopes, hgone]
    exact .refl own hs.exact fun _ => hs.held_inUse
  noFault := ho

theorem refl (hs : s.Sound) {o : Outcome α} (ho : o.NoFault) :
    Settles own s (o, s) :=
  of_scopes hs rfl rfl (.refl _) rfl rfl rfl rfl rfl ho

/-- A context is added, and memory only grows. -/
theorem of_adds {c : ContextId} {x : Context} {news : List ScopeId} {m : Memory}
    {scopes : Arena Value} (hs : s.Sound)
    (hsound : State.Sound { s with memory := m, scopes := scopes }) (hmemory : s.memory.Keeps m)
    (hadds : s.scopes.Adds scopes c x news) (a : α) :
    Settles [] s (.ok a, { s with memory := m, scopes := scopes }) where
  sound := hsound
  root := rfl
  activation := rfl
  depth := rfl
  memory := hmemory
  gone _ hq := hq
  spares _ hq := hq
  scopes := .of_adds hs.exact (fun _ => hs.held_inUse) hadds
  noFault := .ok a

theorem trans {o : Outcome α} {r : Outcome β × State} (h₁ : Settles own s (o, s'))
    (h₂ : Settles own s' r) : Settles own s r where
  sound := h₂.sound
  root := h₂.root.trans h₁.root
  activation := h₂.activation.trans h₁.activation
  depth := h₂.depth.trans h₁.depth
  memory := h₁.memory.trans h₂.memory
  gone q hq := h₂.gone q (h₁.gone q hq)
  spares q hq := h₂.spares q (h₁.spares q hq)
  scopes := (h₁.scopes.fewer fun _ hc => ((Memory.Keeps.refl s.memory).held h₂.gone hc).1).trans
    (h₂.scopes.fewer fun _ hc => (h₁.memory.held (fun _ hq => hq) hc).2)
  noFault := h₂.noFault

/-- Another outcome of the same run. -/
theorem outcome {o : Outcome α} {o' : Outcome β} (h : Settles own s (o, s'))
    (ho : o'.NoFault) : Settles own s (o', s') :=
  { h with noFault := ho }

theorem andThen {t : State} {x : Eval α} {f : α → Eval β} (hx : Settles own s (x t))
    (hf : ∀ a s', x t = (.ok a, s') → Settles own s (f a s')) : Settles own s ((x >>= f) t) := by
  rw [bind_apply]
  rcases hr : x t with ⟨o, s'⟩
  rw [hr] at hx
  cases o with
  | ok a => exact hf a s' hr
  | raised error => exact hx.outcome (.raised error)
  | stopped why =>
      refine hx.outcome fun fault he => hx.noFault fault ?_
      cases he
      rfl

theorem bind {x : Eval α} {f : α → Eval β} (hx : Settles own s (x s))
    (hf : ∀ a s', x s = (.ok a, s') → Settles own s' (f a s')) : Settles own s ((x >>= f) s) := by
  refine hx.andThen fun a s' hr => ?_
  rw [hr] at hx
  exact hx.trans (hf a s' hr)

end Settles

/-- Giving up what the program cannot get at settles. -/
theorem State.Sheds.settles {o : Outcome α} (h : s.Sheds s') (ho : o.NoFault) :
    Settles own s (o, s') where
  sound := h.sound
  root := h.trims.root
  activation := h.trims.activation
  depth := h.trims.depth
  memory := by
    rw [h.trims.memory]
    exact .refl _
  gone := h.gone
  spares := h.spares
  scopes := by
    have hscopes : Extends own s'.held s.scopes s'.scopes :=
      h.scopes.mono fun _ hm => by cases hm
    rwa [State.held, h.trims.memory] at hscopes
  noFault := ho

/-! ### Two properties of computations -/

/-- A computation that changes no variable of any scope that was there before. -/
def Isolated ⦃α : Type⦄ (x : Eval α) : Prop := ∀ s, s.Sound → Settles [] s (x s)

/-- A computation that changes only variables of one context, which may depend on the activation. -/
def Confined (pick : Activation → ContextId) ⦃α : Type⦄ (x : Eval α) : Prop :=
  ∀ s, s.Sound → s.scopes.Open (pick s.activation) →
    Settles (s.scopes.context (pick s.activation)).scopes s (x s)

variable {pick : Activation → ContextId}

theorem Isolated.confined {x : Eval α} (h : Isolated x) : Confined pick x :=
  fun s hs _ => (h s hs).of_nil

theorem Isolated.andThen {x : Eval α} {f : α → Eval β} (hx : Isolated x)
    (hf : ∀ a, x.Returns a → Isolated (f a)) : Isolated (x >>= f) := by
  intro s hs
  refine (hx s hs).bind fun a s' hr => hf a ⟨s, s', hr⟩ s' ?_
  have hsound := (hx s hs).sound
  rwa [hr] at hsound

theorem Isolated.bind {x : Eval α} {f : α → Eval β} (hx : Isolated x) (hf : ∀ a, Isolated (f a)) :
    Isolated (x >>= f) :=
  hx.andThen fun a _ => hf a

theorem Settles.stays_open {r : Outcome α × State} (h : Settles own s r) {c : ContextId}
    (hopen : s.scopes.Open c) : r.2.scopes.Open c :=
  h.scopes.stays_open hopen

/-- The context that a computation is confined to is the same afterwards. -/
theorem Settles.pick_eq {r : Outcome α × State} (h : Settles own s r)
    (hopen : s.scopes.Open (pick s.activation)) :
    r.2.scopes.Open (pick r.2.activation) ∧
      (r.2.scopes.context (pick r.2.activation)).scopes =
        (s.scopes.context (pick s.activation)).scopes := by
  rw [h.activation]
  exact ⟨h.stays_open hopen, (h.scopes.context _ (.opened hopen)).scopes⟩

theorem Confined.andThen {x : Eval α} {f : α → Eval β} (hx : Confined pick x)
    (hf : ∀ a, x.Returns a → Confined pick (f a)) : Confined pick (x >>= f) := by
  intro s hs hopen
  have h := hx s hs hopen
  refine h.bind fun a s' hr => ?_
  obtain ⟨hopen', hown⟩ := h.pick_eq hopen
  have hreturns : x.Returns a := ⟨s, s', hr⟩
  rw [hr] at hopen' hown h
  rw [← hown]
  exact hf a hreturns s' h.sound hopen'

theorem Confined.bind {x : Eval α} {f : α → Eval β} (hx : Confined pick x)
    (hf : ∀ a, Confined pick (f a)) : Confined pick (x >>= f) :=
  hx.andThen fun a _ => hf a

/-! ### Basic steps -/

theorem isolated_pure (a : α) : Isolated (pure a : Eval α) := fun _ hs => .refl hs (.ok a)

theorem isolated_raise (error : RuntimeError) : Isolated (raise error : Eval α) :=
  fun _ hs => .refl hs (.raised error)

theorem isolated_read (f : State → α) : Isolated (read f) := fun _ hs => .refl hs (.ok _)

theorem isolated_stop {why : Stop} (h : (Outcome.stopped why : Outcome α).NoFault) :
    Isolated (stop why : Eval α) :=
  fun _ hs => .refl hs h

theorem isolated_remember {f : Memory → α × Memory} (h : ∀ m : Memory, m.Alters (f m).2) :
    Isolated (remember f) :=
  fun s hs => .of_scopes hs rfl (h s.memory).closures (h s.memory).keeps rfl rfl rfl rfl rfl (.ok _)

theorem isolated_newMethod (b : BoundMethod) : Isolated (remember fun m => m.newMethod b) :=
  fun s hs => .of_scopes hs rfl rfl (s.memory.keeps_newMethod b) rfl rfl rfl rfl rfl (.ok _)

/-- All of a state but what is printed, kept, traced and loaded. -/
def State.footing (s : State) : Store × List FunctionRef × List (List FunctionRef) × ContextId ×
    Activation × Nat :=
  (s.toStore, s.gone, s.schedule, s.root, s.activation, s.depth)

theorem isolated_modify {f : State → State} (h : ∀ s, (f s).footing = s.footing) :
    Isolated (Eval.modify f) := by
  intro s hs
  have hfooting := h s
  simp only [State.footing, Prod.mk.injEq] at hfooting
  obtain ⟨hstore, hgone, hschedule, hroot, hactivation, hdepth⟩ := hfooting
  refine .of_scopes hs ?_ ?_ ?_ hgone hschedule hroot hactivation hdepth (.ok _)
  · rw [hstore]
  · rw [hstore]
  · rw [hstore]
    exact .refl _

theorem isolated_reclaim : Isolated reclaim := by
  intro s hs
  obtain ⟨s', hs', hsheds⟩ := hs.reclaim
  rw [hs']
  exact hsheds.settles (.ok ())

theorem isolated_freezeFunction (decl : FunctionDecl) (params : List ParamSpec)
    (returns : List TypeSpec) : Isolated (freezeFunction decl params returns) := by
  intro s hs
  obtain ⟨hexact, hadds⟩ := Arena.freeze_spec hs.exact s.activation.context
  have hheld : (freezeFunction decl params returns s).2.held =
      s.held ++ [(s.scopes.freeze s.activation.context).1] :=
    Memory.held_newFunction hs.gone_lt
  have hexact' : (freezeFunction decl params returns s).2.scopes.Exact
      { mentions := (freezeFunction decl params returns s).2.held ++
        (freezeFunction decl params returns s).2.scopes.dropped } := by
    rw [hheld, show (freezeFunction decl params returns s).2.scopes.dropped = s.scopes.dropped from
      hadds.dropped]
    refine hexact.perm_mentions ?_
    rw [List.append_assoc]
    exact List.perm_middle
  have hsound : (freezeFunction decl params returns s).2.Sound := by
    refine hs.add hadds hexact' (fun c hc => ?_) hadds.dropped (hs.parent _)
      (hs.stack_ne _ hs.here.1) rfl rfl fun q hq => ?_
    · rw [hheld, List.mem_append, List.mem_singleton] at hc
      exact hc.symm.imp_left fun he => ⟨he, rfl⟩
    · exact (hs.gone_lt q hq).trans_le (s.memory.keeps_newFunction _).functions_size_le
  exact .of_adds hs hsound (s.memory.keeps_newFunction _) hadds _

theorem isolated_captureFunction (decl : FunctionDecl) (params : List ParamSpec)
    (returns : List TypeSpec) : Isolated (captureFunction decl params returns) :=
  isolated_reclaim.bind fun _ => isolated_freezeFunction decl params returns

theorem isolated_closed : Closed Isolated where
  pure := isolated_pure
  andThen := Isolated.andThen
  fail c := isolated_raise (.ofCause c)
  stop _ hwhy := isolated_stop fun fault he => hwhy fault (Outcome.stopped.inj he)
  read := isolated_read
  copied v := isolated_remember fun m => m.alters_copyForBinding v
  newList _ := isolated_remember fun _ => ⟨rfl, rfl, rfl, rfl⟩
  newInstance _ _ _ := isolated_remember fun _ => ⟨rfl, rfl, rfl, rfl⟩
  newMethod := isolated_newMethod
  bindField i name v := isolated_remember fun m => m.alters_bindField i name v
  modifyList _ _ _ := isolated_remember fun _ => ⟨rfl, rfl, rfl, rfl⟩
  print _ :=
    isolated_modify fun _ => rfl
  captureFunction decl params returns _ := isolated_captureFunction decl params returns

/-! ### Variables -/

namespace Store

variable {t : Store} {c : ContextId} {name : String} {v : Value}

/-- A new variable of a context with a stack has a place on the stack, unless its name is
reserved. -/
theorem newPlace_spec (hne : (t.scopes.context c).scopes ≠ []) :
    (∀ r, t.newPlace c name = .ok r → r ∈ (t.scopes.context c).scopes) ∧
      ∀ fault, t.newPlace c name ≠ .error (.unbalanced fault) := by
  obtain ⟨top, rest, hscopes⟩ := List.exists_cons_of_ne_nil hne
  unfold newPlace Arena.innermost
  rw [hscopes]
  split <;> simp

/-- An assignment in a context with a stack has a place on the stack, or a cause against it. -/
theorem place_spec (hne : (t.scopes.context c).scopes ≠ []) :
    (∀ r, t.place c name v = .ok r → r ∈ (t.scopes.context c).scopes) ∧
      ∀ fault, t.place c name v ≠ .error (.unbalanced fault) := by
  unfold place
  split
  · simp
  · split
    · rename_i r hr
      have hmem : r ∈ (t.scopes.context c).scopes := List.mem_of_find?_eq_some hr
      dsimp only
      split <;> simp [hmem]
    · exact newPlace_spec hne

end Store

theorem Settles.bindAt {place : Store → Except BindFault ScopeId} {f : Store → ScopeId → Store}
    {c : ContextId} {name : String} {v : Value} (hs : s.Sound)
    (hplace : (∀ r, place s.toStore = .ok r → r ∈ (s.scopes.context c).scopes) ∧
      ∀ fault, place s.toStore ≠ .error (.unbalanced fault))
    (hscopes : ∀ r, (f s.toStore r).scopes = s.scopes.bind r name v)
    (hmemory : ∀ r, s.memory.Alters (f s.toStore r).memory) :
    Settles (s.scopes.context c).scopes s (Eval.bindAt place f s) := by
  unfold Eval.bindAt
  split
  · rename_i r hr
    have hmem := hplace.1 r hr
    have hlt := hs.exact.scope_lt c r hmem
    have hexact := Arena.bind_exact hs.exact hlt name v
    refine ⟨hs.of_shape ?_ (hmemory r).closures rfl ?_ ?_ ?_ ?_ ?_ rfl rfl, rfl, rfl, rfl,
      (hmemory r).keeps, fun _ hq => hq, fun _ hq => hq, ?_, .ok ()⟩
    · show Exact (f s.toStore r).scopes { mentions := s.held ++ s.scopes.dropped }
      rw [hscopes]
      exact hexact
    · show (f s.toStore r).scopes.dropped = s.scopes.dropped
      rw [hscopes]
      rfl
    · intro d
      show (f s.toStore r).scopes.InUse d ↔ _
      rw [hscopes]
      exact Arena.inUse_bind r name v d
    · intro d
      show ((f s.toStore r).scopes.context d).parent = _
      rw [hscopes, Arena.context_bind]
    · intro d
      show ((f s.toStore r).scopes.context d).captured = _
      rw [hscopes, Arena.context_bind]
    · intro d hd
      show ((f s.toStore r).scopes.context d).scopes ≠ []
      rw [hscopes, Arena.context_bind]
      exact hs.stack_ne d hd
    · show Extends _ s.held s.scopes (f s.toStore r).scopes
      rw [hscopes]
      exact .bind hs.exact (fun _ => hs.held_inUse) hlt hmem name v
  · exact .refl hs (.raised _)
  · rename_i fault hfault
    exact absurd hfault (hplace.2 fault)

section binding
variable (c : ContextId) (name : String) (v : Value)

theorem Settles.assign (hs : s.Sound) (hc : s.scopes.InUse c) :
    Settles (s.scopes.context c).scopes s (Eval.assign c name v s) :=
  .bindAt (v := (s.memory.copyForBinding v).1) hs (Store.place_spec (hs.stack_ne c hc))
    (fun _ => rfl) fun _ => s.memory.alters_copyForBinding v

theorem Settles.define (hs : s.Sound) (hc : s.scopes.InUse c) :
    Settles (s.scopes.context c).scopes s (Eval.define c name v s) :=
  .bindAt (v := (s.memory.copyForBinding v).1) hs (Store.newPlace_spec (hs.stack_ne c hc))
    (fun _ => rfl) fun _ => s.memory.alters_copyForBinding v

theorem Settles.defineShared (hs : s.Sound) (hc : s.scopes.InUse c) :
    Settles (s.scopes.context c).scopes s (Eval.defineShared c name v s) :=
  .bindAt hs (Store.newPlace_spec (hs.stack_ne c hc)) (fun _ => rfl) fun _ => .refl _

end binding

/-! ### Scopes -/

section scopes
variable {c : ContextId}

theorem State.Sound.pushScope (hs : s.Sound) (hopen : s.scopes.Open c) :
    State.Sound { s with scopes := (s.scopes.pushScope c).2 } := by
  have hshape := Arena.shape_pushScope hopen.1
  refine hs.of_shape (Arena.pushScope_exact hs.exact hopen.1 hopen.2) rfl rfl
    Arena.dropped_pushScope Arena.inUse_pushScope (fun d => (hshape d).1) (fun d => (hshape d).2)
    (fun d hd => ?_) rfl rfl
  show ((s.scopes.pushScope c).2.context d).scopes ≠ []
  rw [Arena.context_pushScope hopen.1]
  split
  · exact List.cons_ne_nil _ _
  · exact hs.stack_ne d hd

theorem State.Sound.withoutScope (hs : s.Sound) {r : ScopeId} {rest : List ScopeId}
    (hopen : s.scopes.Open c) (hscopes : (s.scopes.context c).scopes = r :: rest)
    (hrest : rest ≠ []) :
    State.Sound { s with scopes := s.scopes.dropScope c r s.memory.closure? } := by
  have hshape (d : ContextId) :
      ((s.scopes.dropScope c r s.memory.closure?).context d).parent =
          (s.scopes.context d).parent ∧
        ((s.scopes.dropScope c r s.memory.closure?).context d).captured =
          (s.scopes.context d).captured := Arena.shape_dropScope hopen.1 d
  refine hs.of_shape (Arena.dropScope_exact hs.exact hopen.1 hopen.2 hscopes) rfl rfl
    Arena.dropped_dropScope Arena.inUse_dropScope (fun d => (hshape d).1) (fun d => (hshape d).2)
    (fun d hd => ?_) rfl rfl
  show ((s.scopes.dropScope c r s.memory.closure?).context d).scopes ≠ []
  rw [Arena.context_dropScope hopen.1]
  split
  · rw [hscopes]
    exact hrest
  · exact hs.stack_ne d hd

/-- What ran in a scope that was pushed for it settles when the scope is popped. -/
theorem Settles.poppingScope {x : Eval α} (hs : s.Sound) (hopen : s.scopes.Open c)
    (hx : Settles ((s.scopes.pushScope c).1 :: (s.scopes.context c).scopes)
      { s with scopes := (s.scopes.pushScope c).2 }
      (x { s with scopes := (s.scopes.pushScope c).2 })) :
    Settles (s.scopes.context c).scopes s
      (Eval.poppingScope c (s.scopes.pushScope c).1 x
        { s with scopes := (s.scopes.pushScope c).2 }) := by
  have hself := (Arena.context_pushScope hopen.1 c).trans (if_pos rfl)
  have hpushed : (s.scopes.pushScope c).2.Open c := by
    refine ⟨(Arena.inUse_pushScope c).mpr hopen.1, ?_⟩
    rw [hself]
    exact hopen.2
  have hstack : ∀ {r : Outcome α × State}, Settles ((s.scopes.pushScope c).1 ::
      (s.scopes.context c).scopes) { s with scopes := (s.scopes.pushScope c).2 } r →
        (r.2.scopes.context c).scopes =
          (s.scopes.pushScope c).1 :: (s.scopes.context c).scopes := by
    intro r h
    rw [(h.scopes.context c (.opened hpushed)).scopes, hself]
  unfold Eval.poppingScope
  generalize x { s with scopes := (s.scopes.pushScope c).2 } = r at hx
  obtain ⟨o, s'⟩ := r
  dsimp only
  rw [Arena.popFault?_eq_none (hstack hx)]
  have hlet : Settles _ _ (o, s'.lettingGo) :=
    hx.trans (hx.sound.lettingGo.settles hx.noFault)
  exact
    { sound := hlet.sound.withoutScope (hlet.stays_open hpushed) (hstack hlet)
        (hs.stack_ne c hopen.1)
      root := hlet.root
      activation := hlet.activation
      depth := hlet.depth
      memory := hlet.memory
      gone := hlet.gone
      spares := hlet.spares
      scopes := Extends.popped (l := {}) hs.exact hopen hlet.sound.exact
        (fun _ hc => (hlet.memory.held (fun _ hq => hq) hc).2) hlet.scopes
      noFault := hlet.noFault }

end scopes

theorem Confined.inNewScope {x : Eval α} (hx : Confined Activation.context x) :
    Confined Activation.context (Eval.inNewScope x) := by
  intro s hs hopen
  have hpushed := hs.pushScope hopen
  have hrun := hx _ hpushed hpushed.here
  have hown : ((s.scopes.pushScope s.activation.context).2.context s.activation.context).scopes =
      (s.scopes.pushScope s.activation.context).1 ::
        (s.scopes.context s.activation.context).scopes := by
    rw [Arena.context_pushScope hopen.1, if_pos rfl]
  rw [hown] at hrun
  exact Settles.poppingScope hs hopen hrun

theorem Confined.withVariable (name : String) (v : Value) {body : Eval Completion}
    (hbody : Confined Activation.context body) :
    Confined Activation.context (withVariable name v body) := by
  have hdefine : Confined Activation.context (Eval.context >>= fun c => Eval.define c name v) :=
    fun s hs hopen => .define s.activation.context name v hs hopen.1
  exact Confined.inNewScope (hdefine.bind fun _ => hbody)

/-! ### Errors -/

theorem Confined.recording (statement : Statement) {x : Eval Completion} (hx : Confined pick x) :
    Confined pick (recording statement x) := by
  intro s hs hopen
  have h := hx s hs hopen
  unfold Classlet.recording
  generalize x s = r at h
  obtain ⟨o, s'⟩ := r
  cases o with
  | ok completion => exact h
  | raised error => exact h.outcome (.raised _)
  | stopped why => exact h

theorem Confined.handling {x : Eval Completion} {handler : RuntimeError → Eval Completion}
    (hx : Confined pick x) (hhandler : Takes (@Confined pick Completion) handler) :
    Confined pick (handling x handler) := by
  intro s hs hopen
  have h := hx s hs hopen
  obtain ⟨hopen', hown⟩ := h.pick_eq hopen
  unfold Classlet.handling
  generalize x s = r at h hopen' hown
  obtain ⟨o, s'⟩ := r
  cases o with
  | ok completion => exact h
  | raised error =>
      dsimp only
      rcases hhandler error s' with he | ⟨y, hy, he⟩
      · rw [he]
        exact h
      · have hh := hy s' h.sound hopen'
        rw [hown] at hh
        rw [he]
        exact h.trans hh
  | stopped why => exact h

/-! ### Activations -/

/-- Code that runs as an activation of an open context settles, and changes variables of that
context only. -/
theorem Settles.withActivation (activation : Activation) {x : Eval α} (hs : s.Sound)
    (hopen : s.scopes.Open activation.context) (hx : Confined Activation.context x) :
    Settles (s.scopes.context activation.context).scopes s
      (Eval.withActivation activation x s) := by
  have hentered : State.Sound { s with activation := activation, depth := s.depth + 1 } :=
    { hs with here := hopen }
  have h := hx _ hentered hopen
  unfold Eval.withActivation
  dsimp only
  generalize x { s with activation := activation, depth := s.depth + 1 } = r at h
  obtain ⟨o, s'⟩ := r
  exact
    { sound := { h.sound with here := h.stays_open hs.here }
      root := h.root
      activation := rfl
      depth := rfl
      memory := h.memory
      gone := h.gone
      spares := h.spares
      scopes := h.scopes
      noFault := h.noFault }

end Classlet
