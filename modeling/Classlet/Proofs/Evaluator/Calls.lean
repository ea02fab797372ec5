import Classlet.Proofs.Evaluator.Balance

/-! # Calls, modules and classes

A call opens a context behind the frozen scopes of the function, binds the arguments there, runs the
body and gives the context up, which leaves no trace of it (`Settles.entering`).  A module runs in
a context behind the global names, which stays (`isolated_runModule`).  So calls and imports are
isolated as soon as the bodies that they run are confined, which closes the circle: `rules`.

Two steps are isolated only together with what comes before them, since they change an object in
place that is new by then: a module is given its exports (`Settles.publish`), and the functions of
a class learn their class (`Settles.makeClass`). -/

namespace Classlet

open Eval
open Arena (Exact Adds Extends Survives)

variable {α : Type} {s : State} {c : ContextId}

/-! ### Giving up a context -/

/-- A context that is neither the root nor running is given up when only its base is left. -/
theorem State.Sound.release (hs : s.Sound) {base : ScopeId} (hopen : s.scopes.Open c)
    (hscopes : (s.scopes.context c).scopes = [base]) (hroot : s.root ≠ c)
    (hhere : s.activation.context ≠ c) :
    ∃ b, s.scopes.releaseContext c s.memory.closure? = .ok b ∧
      State.Sound { s with scopes := b } ∧ Survives s.memory.closure? [c] s.scopes b := by
  have hchild : ∀ d, (s.scopes.context d).parent ≠ some c := by
    intro d hd
    rcases hs.parent d c hd with hfrozen | he
    · rw [hopen.2] at hfrozen
      cases hfrozen
    · exact hroot he.symm
  have hclosure : c ∉ s.held ++ s.scopes.dropped := by
    intro hm
    have hfrozen := hs.frozen c hm
    rw [hopen.2] at hfrozen
    cases hfrozen
  obtain ⟨b, hb, hexact, hsurvives, -⟩ : ∃ b,
      s.scopes.releaseContext c s.memory.closure? = .ok b ∧ _ ∧
        Survives s.memory.closure? [c] s.scopes b ∧ _ :=
    Arena.releaseContext_spec hs.exact hopen.1 hopen.2 hscopes hchild hclosure
  have hexact' : b.Exact { mentions := s.held ++ b.dropped } := by
    rw [hsurvives.dropped]
    exact hexact
  refine ⟨b, hb, ?_, hsurvives⟩
  refine hs.survives hexact' hsurvives (fun d hd => ?_) rfl rfl (by simpa using hroot)
    (by simpa using hhere) hs.gone_lt
  rwa [hsurvives.dropped] at hd

/-- A call of a function that is not gone opens a context behind its closure. -/
theorem openCall_spec {r : FunctionRef} {f : Function} (hs : s.Sound)
    (hf : s.memory.function? r = some f) (hr : r ∉ s.gone) : ∃ c scopes base,
      openCall r f s = (.ok c, { s with scopes := scopes }) ∧
      State.Sound { s with scopes := scopes } ∧
      s.scopes.Adds scopes c { scopes := [base], parent := some f.closure } [base] := by
  have hheld : f.closure ∈ s.held := Memory.held_of_function hf hr
  obtain ⟨hexact, base, hadds⟩ := Arena.openContext_spec hs.exact (some f.closure) fun p hp => by
    cases hp
    exact hs.held_inUse hheld
  refine ⟨(s.scopes.openContext (some f.closure)).1, (s.scopes.openContext (some f.closure)).2,
    base, if_neg (by simpa using hr), ?_, hadds⟩
  refine hs.add hadds ?_ (fun d hd => .inr hd) hadds.dropped (fun p hp => ?_)
    (List.cons_ne_nil _ _) rfl rfl hs.gone_lt
  · rw [hadds.dropped]
    exact hexact
  · cases hp
    exact .inl (hs.held_captured hheld)

/-- A call that opens a context does nothing else. -/
theorem openCall_eq_ok {r : FunctionRef} {f : Function} {s' : State}
    (h : openCall r f s = (.ok c, s')) : r ∉ s.gone ∧ s' = { s with scopes := s'.scopes } := by
  unfold openCall at h
  split at h
  · cases h
  · rename_i hgone
    cases h
    exact ⟨by simpa using hgone, rfl⟩

theorem openCall_adds {r : FunctionRef} {f : Function} {s' : State} (hs : s.Sound)
    (hf : s.memory.function? r = some f) (h : openCall r f s = (.ok c, s')) : ∃ base,
      s.scopes.Adds s'.scopes c { scopes := [base], parent := some f.closure } [base] := by
  obtain ⟨d, scopes, base, hcall, -, hadds⟩ := openCall_spec hs hf (openCall_eq_ok h).1
  rw [hcall] at h
  cases h
  exact ⟨base, hadds⟩

/-- A call reclaims, and then opens its context or finds that the function is gone. -/
theorem enterContext_spec {r : FunctionRef} {f : Function} (hs : s.Sound)
    (hf : s.memory.function? r = some f) : ∃ t, reclaim s = (.ok (), t) ∧ s.Sheds t ∧
      ((r ∈ t.gone ∧ enterContext r f s = (.stopped .stale, t)) ∨
        ∃ c scopes base, enterContext r f s = (.ok c, { t with scopes := scopes }) ∧
          State.Sound { t with scopes := scopes } ∧
          t.scopes.Adds scopes c { scopes := [base], parent := some f.closure } [base]) := by
  obtain ⟨t, hreclaim, hsheds⟩ := hs.reclaim
  have hf' : t.memory.function? r = some f := by
    rw [hsheds.trims.memory]
    exact hf
  refine ⟨t, hreclaim, hsheds, ?_⟩
  unfold enterContext
  rw [bind_apply, hreclaim]
  dsimp only
  by_cases hgone : r ∈ t.gone
  · exact .inl ⟨hgone, if_pos (by simpa using hgone)⟩
  · exact .inr (openCall_spec hsheds.sound hf' hgone)

/-- What ran in a context that was opened for it settles when the context is given up. -/
theorem Settles.releasing {scopes : Arena Value} {p : ContextId} {base : ScopeId} {x : Eval α}
    (hs : s.Sound)
    (hadds : s.scopes.Adds scopes c { scopes := [base], parent := some p } [base])
    (hx : Settles [base] { s with scopes := scopes } (x { s with scopes := scopes })) :
    Settles [] s (releasing c x { s with scopes := scopes }) := by
  have hopen : scopes.Open c := ⟨(hadds.inUse c).mpr (.inl rfl), hadds.context_new.captured⟩
  have hold : ∀ d, s.scopes.InUse d → d ≠ c := by
    rintro d hd rfl
    exact hadds.fresh hd
  unfold Eval.releasing State.releaseContext
  generalize x { s with scopes := scopes } = r at hx
  obtain ⟨o, s'⟩ := r
  have hlet : Settles _ _ (o, s'.lettingGo) :=
    hx.trans (hx.sound.lettingGo.settles hx.noFault)
  dsimp only
  generalize s'.lettingGo = t at hlet
  have ht : t.Sound := hlet.sound
  -- the base is all that is left of the context, and nothing has come to hold it
  have hscopes : (t.scopes.context c).scopes = [base] :=
    (hlet.scopes.context c (.opened hopen)).scopes.trans hadds.context_new.scopes
  have hroot : t.root ≠ c := by
    rw [hlet.root]
    exact hold _ hs.root.1
  have hhere : t.activation.context ≠ c := by
    rw [hlet.activation]
    exact hold _ hs.here.1
  obtain ⟨b, hb, hsound, hsurvives⟩ := ht.release (hlet.stays_open hopen) hscopes hroot hhere
  rw [hb]
  have hheld : ∀ d ∈ s.memory.held t.gone, s.scopes.InUse d := fun d hd =>
    hs.held_inUse ((Memory.Keeps.refl s.memory).held hlet.gone hd).1
  exact
    { sound := hsound
      root := hlet.root
      activation := hlet.activation
      depth := hlet.depth
      memory := hlet.memory
      gone := hlet.gone
      spares := hlet.spares
      scopes := .released (l := {}) hs.exact hheld hadds hlet.scopes hsurvives hsound.exact
        fun d hd => (hlet.memory.held (fun _ hq => hq) hd).2
      noFault := hlet.noFault }

/-- A call that has been opened for a computation, and is given up after it, leaves no trace. -/
theorem Settles.entering {r : FunctionRef} {f : Function} {x : ContextId → Eval α} (hs : s.Sound)
    (hf : s.memory.function? r = some f) (hx : ∀ c, Confined (fun _ => c) (x c)) :
    Settles [] s ((enterContext r f >>= fun c => Eval.releasing c (x c)) s) := by
  obtain ⟨t, -, hsheds, ⟨-, hstale⟩ | ⟨c, scopes, base, henter, hentered, hadds⟩⟩ :=
    enterContext_spec hs hf
  · rw [bind_apply, hstale]
    exact hsheds.settles fun _ he => by cases he
  · rw [bind_apply, henter]
    have hrun := hx c _ hentered ⟨(hadds.inUse c).mpr (.inl rfl), hadds.context_new.captured⟩
    dsimp only at hrun
    rw [hadds.context_new.scopes] at hrun
    exact (hsheds.settles (.ok ())).trans (.releasing hsheds.sound hadds hrun)

/-! ### Calls -/

section calls
variable (f : Function)

theorem isolated_checkArgument (p : ParamSpec) (v : Value) : Isolated (checkArgument f p v) := by
  intro s hs
  unfold checkArgument
  dsimp only
  split
  · exact .refl hs (.ok ())
  · exact .refl hs (.raised _)

theorem isolated_checkArguments (p : ParamSpec) :
    ∀ vs : List Value, Isolated (checkArguments f p vs)
  | [] => isolated_pure ()
  | v :: vs => (isolated_checkArgument f p v).bind fun _ => isolated_checkArguments p vs

theorem confined_bindSlots (c : ContextId) :
    ∀ (shared : Bool) (slots : List Slot), Confined (fun _ => c) (bindSlots f c shared slots)
  | _, [] => (isolated_pure ()).confined
  | _, (p, none) :: _ => (isolated_closed.fail _).confined
  | shared, (p, some v) :: more => by
      have hmore := fun _ : Unit => confined_bindSlots c false more
      refine (isolated_checkArgument f p v).confined.bind fun _ => ?_
      cases shared with
      | true => exact Confined.bind (fun s hs hopen => .defineShared c p.name v hs hopen.1) hmore
      | false => exact Confined.bind (fun s hs hopen => .define c p.name v hs hopen.1) hmore

theorem confined_bindRest (c : ContextId) :
    ∀ rest : Option (ParamSpec × List Value), Confined (fun _ => c) (bindRest f c rest)
  | none => (isolated_pure ()).confined
  | some (p, vs) => (isolated_checkArguments f p vs).confined.bind fun _ _ hs hopen =>
      .define c p.name (.tuple vs) hs hopen.1

theorem confined_bindArguments (c : ContextId) (hasReceiver : Bool) (arguments : List Value)
    (keywords : KeywordValues) :
    Confined (fun _ => c) (bindArguments f c hasReceiver arguments keywords) :=
  (isolated_closed.ofExcept _).confined.bind fun arrangement =>
    (confined_bindSlots f c hasReceiver arrangement.slots).bind fun _ =>
      confined_bindRest f c arrangement.rest

variable {e : Engine} (hbody : ∀ body, Confined Activation.context (e.execStatements body))
include hbody

theorem confined_runBody (c : ContextId) : Confined (fun _ => c) (runBody e f c) :=
  fun s hs hopen =>
    .withActivation ⟨c, f.unit, f.name, s.activation.module⟩ hs hopen (hbody f.decl.body)

theorem Settles.callFunction {r : FunctionRef} {f : Function} (hs : s.Sound)
    (hf : s.memory.function? r = some f) (hasReceiver : Bool) (arguments : List Value)
    (keywords : KeywordValues) :
    Settles [] s (callFunction e r f hasReceiver arguments keywords s) := by
  unfold Classlet.callFunction
  refine (isolated_read _ s hs).bind fun depth s' hr => ?_
  obtain rfl : s' = s := by cases hr; rfl
  split
  · exact isolated_closed.fail _ s' hs
  · rw [bind_assoc]
    have hcall := Settles.entering hs hf fun c =>
      (confined_bindArguments f c hasReceiver arguments keywords).bind fun _ =>
        confined_runBody f hbody c
    refine hcall.bind fun completion s₁ hr => ?_
    have hsound := hcall.sound
    rw [hr] at hsound
    refine Isolated.bind (isolated_closed.readMemory _) (fun answer => ?_) s₁ hsound
    exact (isolated_closed.ofExcept answer).bind fun _ => isolated_pure _

theorem isolated_callReference (r : FunctionRef) (hasReceiver : Bool) (arguments : List Value)
    (keywords : KeywordValues) : Isolated (callReference e r hasReceiver arguments keywords) := by
  intro s hs
  unfold callReference
  refine (isolated_closed.readMemory _ s hs).bind fun found s' hr => ?_
  cases hr
  dsimp only
  cases hf : s.memory.function? r with
  | some f => exact .callFunction hbody hs hf hasReceiver arguments keywords
  | none => exact isolated_pure _ s hs

end calls

/-! ### Modules -/

section modules
variable (p : Path) (source : Option String) (parent : Option ModuleRef)

/-- Variables of scopes that were not in use before do not count. -/
theorem Settles.of_fresh {own : List ScopeId} {r : Outcome α × State} (hs : s.Sound)
    (h : Settles own s r) (hfresh : ∀ scope ∈ own, ¬ s.scopes.FrameInUse scope) :
    Settles [] s r :=
  { h with scopes := .of_fresh hs.exact (h.scopes.mono fun _ => List.mem_append_left []) hfresh }

/-- A new module settles, and has an open context with scopes of its own. -/
theorem openModule_spec (hs : s.Sound) :
    ∃ r s', openModule p source parent s = (.ok r, s') ∧
      Settles [] s (openModule p source parent s) ∧
      s.memory.modules.size ≤ r.index ∧ s'.scopes.Open (s'.memory.moduleInfo r).context ∧
      ∀ scope ∈ (s'.scopes.context (s'.memory.moduleInfo r).context).scopes,
        ¬ s.scopes.FrameInUse scope := by
  obtain ⟨hexact, base, hadds⟩ := Arena.openContext_spec hs.exact (some s.root) fun q hq => by
    cases hq
    exact hs.root.1
  unfold openModule remember
  dsimp only
  generalize (s.scopes.openContext (some s.root)).1 = c at hadds
  generalize (s.scopes.openContext (some s.root)).2 = scopes at hadds hexact
  refine ⟨_, _, rfl, .of_adds hs ?_ (s.memory.keeps_newModule _) hadds _, le_rfl, ?_⟩
  · refine hs.add hadds ?_ (fun d hd => .inr hd) hadds.dropped (fun q hq => ?_)
      (List.cons_ne_nil _ _) rfl rfl hs.gone_lt
    · show scopes.Exact { mentions := s.held ++ scopes.dropped }
      rw [hadds.dropped]
      exact hexact
    · cases hq
      exact .inr rfl
  · have hcontext : ∀ d : Module, ((s.memory.newModule d).2.moduleInfo
        (s.memory.newModule d).1).context = d.context := by
      intro d
      simp [Memory.newModule, Memory.moduleInfo]
    dsimp only
    rw [hcontext]
    show scopes.Open c ∧ ∀ scope ∈ (scopes.context c).scopes, _
    refine ⟨⟨(hadds.inUse c).mpr (.inl rfl), hadds.context_new.captured⟩, ?_⟩
    rw [hadds.context_new.scopes]
    exact hadds.frame_fresh

variable {p source parent} in
theorem newModule_of_reclaim {t : State} (hreclaim : reclaim s = (.ok (), t)) :
    newModule p source parent s = openModule p source parent t := by
  unfold newModule
  rw [bind_apply, hreclaim]

/-- What was dropped is reclaimed before a new module gets its context. -/
theorem newModule_spec (hs : s.Sound) :
    ∃ r s', newModule p source parent s = (.ok r, s') ∧
      Settles [] s (newModule p source parent s) ∧
      s'.scopes.Open (s'.memory.moduleInfo r).context := by
  obtain ⟨t, hreclaim, hsheds⟩ := hs.reclaim
  obtain ⟨r, s', hnew, hsettles, -, hopen, -⟩ := openModule_spec p source parent hsheds.sound
  refine ⟨r, s', (newModule_of_reclaim hreclaim).trans hnew, ?_, hopen⟩
  rw [newModule_of_reclaim hreclaim]
  exact (hsheds.settles (.ok ())).trans hsettles

theorem isolated_newModule : Isolated (newModule p source parent) := by
  intro s hs
  obtain ⟨_, _, -, hsettles, -⟩ := newModule_spec p source parent hs
  exact hsettles

theorem Settles.tracing {own : List ScopeId} {x : Eval Completion} (h : Settles own s (x s)) :
    Settles own s (tracing x s) := by
  unfold Classlet.tracing
  generalize x s = r at h
  obtain ⟨o, s'⟩ := r
  cases o with
  | ok completion => exact h
  | raised error =>
      exact { h with sound := h.sound.of_scopes rfl rfl rfl rfl rfl }
  | stopped why => exact h

/-- A module that came later gets its exports. -/
theorem Settles.publish {own : List ScopeId} {s' : State} {o : Outcome α} {r : ModuleRef}
    (h : Settles own s (o, s')) (hr : s.memory.modules.size ≤ r.index) :
    Settles own s (publish r s') := by
  unfold Classlet.publish
  dsimp only
  split
  · exact
      { h with
        sound := h.sound.of_scopes rfl rfl rfl rfl rfl
        memory := h.memory.setExports hr _
        noFault := .ok _ }
  · exact h.outcome (.raised _)

theorem isolated_load (e : Engine) : Isolated (load e p) := by
  unfold load
  refine Isolated.bind ?_ fun _ => ?_
  · exact isolated_modify fun _ => rfl
  · split
    · exact isolated_pure _
    · exact isolated_closed.fail _
    · exact isolated_stop fun _ he => by cases he

variable {e : Engine} (hbody : ∀ body, Confined Activation.context (e.execStatements body))
include hbody

theorem isolated_runModule (statements : List Statement) :
    Isolated (runModule e p source statements parent) := by
  unfold runModule newModule
  rw [← Eval.bind_assoc]
  refine isolated_reclaim.bind fun _ => ?_
  intro s hs
  obtain ⟨r, s', hnew, hsettles, hindex, hopen, hfresh⟩ := openModule_spec p source parent hs
  have hsound := hsettles.sound
  rw [hnew] at hsound hsettles
  refine Settles.of_fresh hs ?_ hfresh
  have hrun := hsettles.of_nil.trans (Settles.tracing (Settles.withActivation
    ⟨(s'.memory.moduleInfo r).context, (s'.memory.moduleInfo r).unit, moduleScope, some r⟩
    hsound hopen (hbody statements)))
  rw [bind_apply, hnew]
  refine hrun.andThen fun completion s₁ hr => ?_
  rw [hr] at hrun
  exact (hrun.publish hindex).andThen fun _ s₂ hr => by
    have hpublish := hrun.publish hindex
    rw [hr] at hpublish
    exact hpublish.outcome (.ok r)

theorem isolated_evaluateParsed (statements : List Statement) :
    Isolated (evaluateParsed e p source statements parent) := by
  refine (isolated_runModule _ source parent hbody statements).bind fun r => ?_
  refine Isolated.bind ?_ fun _ => isolated_pure r
  exact isolated_modify fun _ => rfl

theorem isolated_importNew : Isolated (importNew e p parent) := by
  unfold importNew
  refine Isolated.bind (isolated_closed.readMemory _) fun cyclic => ?_
  refine isolated_closed.ite (isolated_closed.fail _) ?_
  refine (isolated_load p e).bind fun source => ?_
  unfold evaluateSource
  split
  · exact isolated_evaluateParsed p (some source) parent hbody _
  · exact isolated_closed.fail _

theorem isolated_importModule (target : ImportPath) :
    Isolated (importModule e target parent) := by
  unfold importModule
  refine Isolated.bind (isolated_closed.readMemory _) fun p => ?_
  refine Isolated.bind (isolated_read _) fun kept => ?_
  cases kept with
  | some r => exact isolated_pure r
  | none => exact isolated_importNew p parent hbody

end modules

/-! ### Classes -/

/-- The functions of a class body came after the first `n` functions. -/
def ClassBody.Since (n : Nat) (b : ClassBody) : Prop := ∀ f ∈ b.functions, n ≤ f.index

theorem ClassBody.Since.addFunction {n : Nat} {b : ClassBody} (h : b.Since n) (name : String)
    {f : FunctionRef} (hf : n ≤ f.index) : (b.addFunction name f).Since n := by
  intro g hg
  rcases List.mem_append.mp hg with hg | hg
  · exact h g hg
  · rw [List.mem_singleton.mp hg]
    exact hf

/-- A computation that makes a function. -/
def Fresh (x : Eval FunctionRef) : Prop :=
  ∀ s, s.Sound → ∀ f s', x s = (.ok f, s') → s.memory.functions.size ≤ f.index

theorem Fresh.bind {x : Eval α} {f : α → Eval FunctionRef} (hx : Isolated x)
    (hf : ∀ a, Fresh (f a)) : Fresh (x >>= f) := by
  intro s hs r s' h
  obtain ⟨a, s₁, hr, h⟩ := of_bind_ok h
  have hsettles := hx s hs
  rw [hr] at hsettles
  exact hsettles.memory.functions_size_le.trans (hf a s₁ hsettles.sound r s' h)

theorem fresh_captureFunction (decl : FunctionDecl) (params : List ParamSpec)
    (returns : List TypeSpec) : Fresh (captureFunction decl params returns) := by
  refine .bind isolated_reclaim fun _ s _ f s' h => ?_
  cases h
  exact le_rfl

section classes
variable {e : Engine} (he : e.Satisfies Isolated)
include he

theorem fresh_makeFunction (decl : FunctionDecl) (owner : Option String) :
    Fresh (e.makeFunction decl owner) := by
  cases decl with
  | mk name params returns body line =>
      rw [Engine.makeFunction]
      exact .bind (isolated_closed.ofExcept _) fun _ =>
        .bind (isolated_closed.resolveParams he owner params) fun ps =>
          .bind (isolated_closed.resolveTypes he owner returns) fun rs =>
            fresh_captureFunction _ ps rs

theorem since_defineMember {n : Nat} {className : String} {body b : ClassBody} {s' : State}
    (hs : s.Sound) (hn : n ≤ s.memory.functions.size) (hbody : body.Since n)
    (member : ClassMember) (h : defineMember e className body member s = (.ok b, s')) :
    b.Since n := by
  cases member with
  | method decl =>
      obtain ⟨f, s₁, hf, h⟩ := of_bind_ok h
      have hfresh := fresh_makeFunction he decl _ s hs f s₁ hf
      cases h
      exact hbody.addFunction _ (hn.trans hfresh)
  | operator decl =>
      obtain ⟨f, s₁, hf, h⟩ := of_bind_ok h
      obtain ⟨key, s₂, -, h⟩ := of_bind_ok h
      have hfresh := fresh_makeFunction he decl _ s hs f s₁ hf
      cases h
      exact hbody.addFunction _ (hn.trans hfresh)
  | attr name value =>
      obtain ⟨v, s₁, -, h⟩ := of_bind_ok h
      cases h
      exact hbody

theorem since_defineMembers {n : Nat} {className : String} {b : ClassBody} {s' : State} :
    ∀ (members : List ClassMember) {body : ClassBody} {s : State}, s.Sound →
      n ≤ s.memory.functions.size → body.Since n →
      defineMembers e className body members s = (.ok b, s') → b.Since n
  | [], _, _, _, _, hbody, h => by
      cases h
      exact hbody
  | member :: more, body, s, hs, hn, hbody, h => by
      obtain ⟨body', s₁, hr, h⟩ := of_bind_ok h
      have hmember := isolated_closed.defineMember he className body member s hs
      rw [hr] at hmember
      exact since_defineMembers more hmember.sound (hn.trans hmember.memory.functions_size_le)
        (since_defineMember he hs hn hbody member hr) h

omit he in
/-- A class whose functions came later is made. -/
theorem Settles.makeClass {own : List ScopeId} {s' : State} {o : Outcome α} {body : ClassBody}
    (h : Settles own s (o, s')) (hbody : body.Since s.memory.functions.size) (name : String)
    (isStruct : Bool) (base : Option ClassRef) :
    Settles own s (makeClass name body isStruct base s') := by
  unfold Classlet.makeClass
  split
  · rename_i c memory hc
    obtain ⟨hkeeps, hfunctions, -⟩ := Memory.newClass_spec hc
    have hclosures : (body.functions.foldl (fun m f => m.setOwner c f) memory).closures =
        s'.memory.closures := by
      rw [Memory.closures_foldl_setOwner, Memory.closures, hfunctions]
      rfl
    exact
      { h with
        sound := h.sound.of_scopes rfl hclosures rfl rfl rfl
        memory := .foldl_setOwner c (h.memory.trans hkeeps) hbody
        noFault := .ok _ }
  · exact h.outcome (.raised _)

theorem isolated_makeClass (name : String) (members : List ClassMember) (isStruct : Bool)
    (base : Option ClassRef) :
    Isolated (defineMembers e name {} members >>= fun body =>
      makeClass name body isStruct base) := by
  intro s hs
  have hmembers := isolated_closed.defineMembers he name {} members s hs
  refine hmembers.andThen fun body s' hr => ?_
  rw [hr] at hmembers
  refine hmembers.makeClass ?_ name isStruct base
  exact since_defineMembers he members hs le_rfl (fun _ hf => by cases hf) hr

end classes

/-! ### The rules -/

/-- **Calls and imports are isolated, and statements are confined to the running code.** -/
theorem rules : Eval.Rules Isolated (Confined Activation.context) where
  closed := isolated_closed
  weaken := Isolated.confined
  andThen := Confined.andThen
  assign name v _ hs hopen := .assign _ name v hs hopen.1
  inNewScope := Confined.inNewScope
  withVariable := Confined.withVariable
  recording := Confined.recording
  throwValue v := (isolated_closed.throwValue isolated_raise v).confined
  handling := Confined.handling
  callReference _ r hasReceiver arguments keywords hbody :=
    isolated_callReference hbody r hasReceiver arguments keywords
  makeClass _ name members isStruct base he := isolated_makeClass he name members isStruct base
  importModule _ target hbody :=
    (isolated_read _).bind fun parent => isolated_importModule parent hbody target

end Classlet
