import Classlet.Proofs.Call.Binding
import Classlet.Proofs.Evaluator.Reached

/-! # The body of a call

A call of a user function opens a context behind the scopes that the function captured, and binds
the arguments there.  If the function takes them, the body begins in that context, with the
parameters bound and everything else as it was (`Function.Begins`).  If it does not, the call is a
`TypeError` before anything of the body runs, and what was bound so far is given up with the context
(`Reached.argument_binding`). -/

namespace Classlet

open Eval

variable {s t : State} {c : ContextId} {base : ScopeId} {f : Function}
  {arguments : List Value} {keywords : KeywordValues}

/-- What is left of a call when the arguments are bound: the body runs in the context, the context
is given up, and the result is checked. -/
def finishCall (e : Engine) (f : Function) (c : ContextId) : Eval Value := do
  let completion ← releasing c (runBody e f c)
  let v := completion.value
  ofExcept (← readMemory fun m => checkResults m f v)
  pure v

/-- The body of a function begins in a context of its own, with the arguments of a call. -/
structure Function.Begins (f : Function) (hasReceiver : Bool) (arguments : List Value)
    (keywords : KeywordValues) (s : State) (c : ContextId) (t : State) : Prop where
  fresh : ¬ s.scopes.InUse c
  /-- The context has one scope, behind those that the function captured. -/
  context : ∃ base, ¬ s.scopes.FrameInUse base ∧
    (t.scopes.context c).Agrees { scopes := [base], parent := some f.closure }
  /-- The parameters are bound in that scope, and nothing else is. -/
  names : (t.scopes.baseBindings c).map (·.1) = f.params.map ParamSpec.name
  /-- A parameter that takes one argument is bound to it, or to a copy of a struct value. -/
  single : ∀ i p v, f.fixed[i]? = some p → givenFor? arguments keywords i p = some v →
    ∃ w, (t.scopes.baseBindings c).get? p.name = some w ∧
      Received (hasReceiver && i == 0) s.memory v t.memory w
  /-- The variadic parameter is bound to the tuple of the positional arguments that are left. -/
  collected : ∀ p, f.variadic? = some p → (t.scopes.baseBindings c).get? p.name =
    some (.tuple (arguments.drop f.fixed.length))
  /-- Every variable that was there is as it was. -/
  undisturbed : Undisturbed s t

/-- A context that is new and has an empty scope is one in which parameters can be bound. -/
theorem Arena.Adds.expects {scopes : Arena Value} {names : List String}
    (h : s.scopes.Adds scopes c { scopes := [base], parent := some f.closure } [base])
    (hnodup : names.Nodup)
    (hallowed : ∀ name ∈ names, isReserved name = false) :
    Expects c base names { s with scopes := scopes } where
  stack := h.context_new.scopes
  lt := by
    have hin : scopes.FrameInUse base := (h.frameInUse base).mpr (.inl (List.mem_singleton_self _))
    exact hin.1
  nodup := hnodup
  allowed := hallowed
  unbound name _ := by
    dsimp only
    rw [h.values_new base (List.mem_singleton_self _)]
    rfl

/-- What is bound in a new context is not found in those that there were. -/
theorem Settles.binding {α : Type} {scopes : Arena Value} {x : Eval α} (hs : s.Sound)
    (hentered : State.Sound { s with scopes := scopes })
    (hadds : s.scopes.Adds scopes c { scopes := [base], parent := some f.closure } [base])
    (hx : Confined (fun _ => c) x) : Settles [] s (x { s with scopes := scopes }) := by
  have hopen : scopes.Open c := ⟨(hadds.inUse c).mpr (.inl rfl), hadds.context_new.captured⟩
  have hopened : Settles [] s (Outcome.ok c, { s with scopes := scopes }) :=
    .of_adds hs hentered (.refl _) hadds c
  have hown : (scopes.context c).scopes = [base] := hadds.context_new.scopes
  have hbound := hx _ hentered hopen
  dsimp only at hbound
  rw [hown] at hbound
  exact (hopened.of_nil.trans hbound).of_fresh hs hadds.frame_fresh

section bound
variable {hasReceiver : Bool} {scopes : Arena Value} {new : Bindings Value}

/-- The new context has the scope that it had, and what was bound is in there. -/
theorem Function.ArgumentsBound.at_base
    (h : f.ArgumentsBound hasReceiver arguments keywords { s with scopes := scopes } base new t)
    (hadds : s.scopes.Adds scopes c { scopes := [base], parent := some f.closure } [base]) :
    t.scopes.context c = scopes.context c ∧ (t.scopes.frame base).values = new := by
  constructor
  · rw [Arena.context, h.gains.contexts, Arena.context]
  · rw [h.gains.values]
    dsimp only
    rw [hadds.values_new base (List.mem_singleton_self _), List.nil_append]

theorem Function.ArgumentsBound.distinct
    (h : f.ArgumentsBound hasReceiver arguments keywords s base new t)
    (hnodup : (f.params.map ParamSpec.name).Nodup) : new.Distinct := by
  unfold Bindings.Distinct
  rw [h.names]
  exact hnodup

theorem Function.ArgumentsBound.begins
    (h : f.ArgumentsBound hasReceiver arguments keywords { s with scopes := scopes } base new t)
    (hadds : s.scopes.Adds scopes c { scopes := [base], parent := some f.closure } [base])
    (hnodup : (f.params.map ParamSpec.name).Nodup) (hundisturbed : Undisturbed s t) :
    f.Begins hasReceiver arguments keywords s c t := by
  obtain ⟨hcontext, hvalues⟩ := h.at_base hadds
  have hbase : t.scopes.baseBindings c = new := by
    rw [Arena.baseBindings, hcontext, hadds.context_new.scopes, List.getLast?_singleton]
    exact hvalues
  have hdistinct := h.distinct hnodup
  refine ⟨hadds.fresh, ⟨base, ?_, ?_⟩, ?_, ?_, ?_, hundisturbed⟩
  · exact hadds.frame_fresh base (List.mem_singleton_self _)
  · rw [hcontext]
    exact hadds.context_new
  · rw [hbase]
    exact h.names
  · intro i p v hp hv
    obtain ⟨w, hw, hreceived⟩ := h.single i p v hp hv
    exact ⟨w, hbase ▸ hdistinct.get?_of_mem hw, hreceived⟩
  · intro p hp
    exact hbase ▸ hdistinct.get?_of_mem (h.collected p hp)

end bound

section calls
variable {e : Engine} {settings : Settings} {loader : Loader} {r : FunctionRef} {s₀ : State}
  {s₁ : State} {hasReceiver : Bool}

theorem callFunction_of_bound (hdepth : s.depth < e.settings.maxCallDepth)
    (henter : enterContext r f s = (.ok c, s₀))
    (hbind : bindArguments f c hasReceiver arguments keywords s₀ = (.ok (), t)) :
    callFunction e r f hasReceiver arguments keywords s = finishCall e f c t := by
  unfold callFunction finishCall
  simp only [bind_apply, Eval.read, if_neg (Nat.not_le.mpr hdepth), henter, releasing, hbind]

/-- A call whose arguments are not bound raises the error of the binding, and gives up the
context. -/
theorem callFunction_of_unbound {error : RuntimeError} {s₁ : State}
    (hdepth : s.depth < e.settings.maxCallDepth) (henter : enterContext r f s = (.ok c, s₀))
    (hbind : bindArguments f c hasReceiver arguments keywords s₀ = (.raised error, s₁))
    (hrelease : s₁.releaseContext c = .ok t) :
    callFunction e r f hasReceiver arguments keywords s = (.raised error, t) := by
  unfold callFunction
  simp only [bind_apply, Eval.read, if_neg (Nat.not_le.mpr hdepth), henter, releasing, hbind,
    hrelease]

/-- What was bound before the error is given up, and the body does not run. -/
theorem callFunction_given_up {error : RuntimeError} {s₁ : State} (hs : s.Sound)
    (hf : s.memory.function? r = some f) (henter : enterContext r f s = (.ok c, s₀))
    (hbind : bindArguments f c hasReceiver arguments keywords s₀ = (.raised error, s₁)) :
    ∃ t, Undisturbed s t ∧ ∀ e : Engine, s.depth < e.settings.maxCallDepth →
      callFunction e r f hasReceiver arguments keywords s = (.raised error, t) := by
  have hsettles := Settles.entering hs hf fun c =>
    confined_bindArguments f c hasReceiver arguments keywords
  simp only [bind_apply, henter, releasing, hbind] at hsettles
  cases hrelease : s₁.releaseContext c with
  | ok t =>
    rw [hrelease] at hsettles
    exact ⟨t, hsettles.disturbs_nothing, fun e hdepth =>
      callFunction_of_unbound hdepth henter hbind hrelease⟩
  | error fault =>
    rw [hrelease] at hsettles
    exact absurd rfl (hsettles.noFault fault)

/-- What was dropped is reclaimed before a call, and its function is still there: whoever calls a
function refers to it. -/
structure Awaits (s : State) (r : FunctionRef) (s₁ : State) : Prop where
  reclaims : reclaim s = (.ok (), s₁)
  held : r ∉ s₁.gone

theorem Awaits.opens {s₁ : State} (h : Awaits s r s₁) (hs : s.Sound)
    (hr : s.memory.function? r = some f) : ∃ c scopes base,
      enterContext r f s = (.ok c, { s₁ with scopes := scopes }) ∧ s.Sheds s₁ ∧
        State.Sound { s₁ with scopes := scopes } ∧
        s₁.scopes.Adds scopes c { scopes := [base], parent := some f.closure } [base] := by
  obtain ⟨t, hreclaim, hsheds, ⟨hgone, -⟩ | ⟨c, scopes, base, henter, hsound, hadds⟩⟩ :=
    enterContext_spec hs hr
  all_goals obtain rfl : t = s₁ := congrArg Prod.snd (hreclaim.symm.trans h.reclaims)
  · exact absurd hgone h.held
  · exact ⟨c, scopes, base, henter, hsheds, hsound, hadds⟩

/-- Where nothing is gone or will be let go of, everything is spared. -/
theorem State.spares_all (hgone : s.gone = []) (hschedule : s.schedule = []) (r : FunctionRef) :
    s.Spares r := by
  unfold Spares
  rw [hgone, hschedule]
  exact ⟨List.not_mem_nil, List.forall_mem_nil _⟩

/-- A function that is spared is there whenever it is called. -/
theorem State.Spares.awaits (h : s.Spares r) (hs : s.Sound) : ∃ s₁, Awaits s r s₁ := by
  obtain ⟨s₁, hreclaim, hsheds⟩ := hs.reclaim
  exact ⟨s₁, hreclaim, (hsheds.spares r h).1⟩

/-- **A call binds its arguments exactly, or is a `TypeError` that changes nothing.**  The context
of the body is new after what was dropped has been reclaimed, and the error is the same whatever the
engine does with a body: nothing of the body is run. -/
theorem Reached.argument_binding (h : Reached settings loader s)
    (hr : s.memory.function? r = some f) (hmade : f.Made)
    (hnames : ∀ p ∈ f.params, isReserved p.name = false) (hawaits : Awaits s r s₁)
    (hasReceiver : Bool) (arguments : List Value) (keywords : KeywordValues) :
    ∃ c s₀, enterContext r f s = (.ok c, s₀) ∧
      ((∃ t, bindArguments f c hasReceiver arguments keywords s₀ = (.ok (), t)) ↔
        f.Takes s.memory arguments keywords) ∧
      (∀ t, bindArguments f c hasReceiver arguments keywords s₀ = (.ok (), t) →
        f.Begins hasReceiver arguments keywords s₁ c t ∧ Undisturbed s t ∧
          ∀ e : Engine, s.depth < e.settings.maxCallDepth →
            callFunction e r f hasReceiver arguments keywords s = finishCall e f c t) ∧
      (¬ f.Takes s.memory arguments keywords → ∃ cause t, cause.kind = .type ∧ Undisturbed s t ∧
        ∀ e : Engine, s.depth < e.settings.maxCallDepth →
          callFunction e r f hasReceiver arguments keywords s = (.raised (.ofCause cause), t)) := by
  have hs := h.sound
  obtain ⟨c, scopes, base, henter, hsheds, hentered, hadds⟩ := hawaits.opens hs hr
  have hnodup := hmade.nodup
  have hexpects : Expects c base (f.params.map ParamSpec.name) { s₁ with scopes := scopes } :=
    hadds.expects hnodup (List.forall_mem_map.mpr hnames)
  refine ⟨c, _, henter, ?_⟩
  rw [← hsheds.trims.memory]
  rcases decides_bindArguments hexpects hasReceiver arguments keywords with
    ⟨htakes, t, hbind, new, hnew⟩ | ⟨hnot, cause, _, hbind, hkind⟩
  case inl =>
    refine ⟨iff_of_true ⟨t, hbind⟩ htakes, fun u hu => ?_, fun hnot => absurd htakes hnot⟩
    obtain rfl : t = u := congrArg Prod.snd (hbind.symm.trans hu)
    have hsettles := Settles.binding hsheds.sound hentered hadds
      (confined_bindArguments f c hasReceiver arguments keywords)
    rw [hbind] at hsettles
    have hall := (hsheds.settles (.ok ())).trans hsettles
    exact ⟨hnew.begins hadds hnodup hsettles.disturbs_nothing, hall.disturbs_nothing,
      fun e hdepth => callFunction_of_bound hdepth henter hbind⟩
  case inr =>
    have hfails : ∀ t, bindArguments f c hasReceiver arguments keywords
        { s₁ with scopes := scopes } ≠ (.ok (), t) := by
      intro t ht
      cases hbind.symm.trans ht
    refine ⟨iff_of_false (fun ⟨t, ht⟩ => hfails t ht) hnot, fun t ht => absurd ht (hfails t),
      fun _ => ?_⟩
    obtain ⟨t, hundisturbed, hcall⟩ := callFunction_given_up hs hr henter hbind
    exact ⟨cause, t, hkind, hundisturbed, hcall⟩

/-! ### Calls by position -/

/-- A function of as many values of any class as there are names. -/
structure Function.TakesAny (f : Function) (names : List String) : Prop where
  params : f.params = names.map fun name => ⟨name, .any, false⟩
  returns : f.returns = [.any]
  nodup : names.Nodup
  allowed : ∀ name ∈ names, isReserved name = false

namespace Function.TakesAny

theorem fixed_eq (h : f.TakesAny names) : f.variadic? = none ∧ f.fixed = f.params := by
  have hnone : f.variadic? = none := by
    unfold Function.variadic?
    rw [h.params, List.getLast?_map]
    cases names.getLast? <;> simp [Option.filter]
  exact ⟨hnone, by rw [Function.fixed, hnone]; rfl⟩

theorem names_eq (h : f.TakesAny names) : f.params.map ParamSpec.name = names := by
  rw [h.params, List.map_map]
  exact List.map_id' names

theorem takes (h : f.TakesAny names) (hlength : arguments.length = names.length) (m : Memory) :
    f.Takes m arguments [] := by
  obtain ⟨hvariadic, hfixed⟩ := h.fixed_eq
  have hparam : ∀ {i p}, f.fixed[i]? = some p → i < names.length ∧ p.spec = .any := by
    intro i p hp
    rw [hfixed, h.params, List.getElem?_map] at hp
    obtain ⟨name, hname, rfl⟩ := Option.map_eq_some_iff.mp hp
    exact ⟨(List.getElem?_eq_some_iff.mp hname).1, rfl⟩
  refine ⟨⟨.inl ?_, List.nodup_nil, nofun⟩, fun i p hp => ?_, fun i p v hp _ => ?_, fun p hp => ?_⟩
  · rw [hfixed, h.params, List.length_map]
    exact hlength.le
  · rw [givenFor?, List.getElem?_eq_getElem (hlength ▸ (hparam hp).1)]
    rfl
  · rw [(hparam hp).2]
    rfl
  · cases hvariadic.symm.trans hp

end Function.TakesAny

/-- A name is found in the only scope of a context. -/
theorem Store.lookup_of_base {t : Store} {name : String} {w : Value}
    (hstack : (t.scopes.context c).scopes = [base])
    (hw : (t.scopes.frame base).values.get? name = some w) : t.lookup c name = .ok w := by
  unfold lookup Arena.get? Arena.getFrom?
  dsimp only
  rw [hstack, List.findSome?_cons, hw]

/-- The body of a function of some names can begin in `t`, for a call in `s` with some arguments:
the first of them is the receiver. -/
structure Entered (names : List String) (arguments : List Value) (s t : State) : Prop where
  adds : s.memory.Adds t.memory
  alters : s.memory.Alters t.memory
  nests : s.memory.Nests → t.memory.Nests
  bound : ∀ i name v, names[i]? = some name → arguments[i]? = some v →
    ∃ w, t.toStore.lookup t.activation.context name = .ok w ∧
      Received (i == 0) s.memory v t.memory w

theorem runBody_of_ran {completion : Completion} {n : Memory}
    (h : e.execStatements f.decl.body (t.enter ⟨c, f.unit, f.name, t.activation.module⟩) =
      (.ok completion, { t.enter ⟨c, f.unit, f.name, t.activation.module⟩ with memory := n })) :
    runBody e f c t = (.ok completion, { t with memory := n }) := by
  unfold runBody withActivation
  dsimp only
  rw [show e.execStatements f.decl.body { t with activation := _, depth := t.depth + 1 } = _ from h]
  rfl

/-- The result of a body is that of the call, if it may be of any class. -/
theorem finishCall_of_ran {completion : Completion} (hrun : runBody e f c t = (.ok completion, s))
    (hreturns : f.returns = [.any])
    (hnoFault : ∀ fault, (finishCall e f c t).1 ≠ .stopped (.unbalanced fault)) :
    ∃ u, finishCall e f c t = (.ok completion.value, u) ∧ u.memory = s.memory := by
  have hresult : ∀ m, checkResults m f completion.value = .ok () := by
    intro m
    rw [checkResults, hreturns]
    rfl
  rw [finishCall, bind_apply, releasing, hrun] at hnoFault ⊢
  dsimp only at hnoFault ⊢
  cases hrelease : s.releaseContext c with
  | error fault =>
    rw [hrelease] at hnoFault
    exact absurd rfl (hnoFault fault)
  | ok u =>
    dsimp only
    rw [bind_apply, readMemory]
    dsimp only
    rw [hresult]
    exact ⟨u, rfl, (State.trims_releaseContext hrelease).memory⟩

/-- A method is called with a value for each parameter: its body runs with the parameters bound, and
the result of the body is that of the call. -/
theorem callReference_of_body (arguments : List Value) (he : e.Satisfies Isolated) (hs : s.Sound)
    (hr : s.memory.function? r = some f) (hspares : s.Spares r) (hf : f.TakesAny names)
    (hlength : arguments.length = names.length) (hdepth : s.depth < e.settings.maxCallDepth) :
    ∃ t, Entered names arguments s t ∧ ∀ completion n,
      e.execStatements f.decl.body t = (.ok completion, { t with memory := n }) →
        ∃ u, callReference e r true arguments [] s = (.ok completion.value, u) ∧ u.memory = n := by
  obtain ⟨s₁, hawaits⟩ := hspares.awaits hs
  obtain ⟨c, scopes, base, henter, hsheds, hentered, hadds⟩ := hawaits.opens hs hr
  have hnodup : (f.params.map ParamSpec.name).Nodup := hf.names_eq ▸ hf.nodup
  have hexpects : Expects c base (f.params.map ParamSpec.name) { s₁ with scopes := scopes } :=
    hadds.expects hnodup (hf.names_eq ▸ hf.allowed)
  obtain ⟨-, t, hbind, new, hnew⟩ : _ ∧ _ :=
    (decides_bindArguments hexpects true arguments []).resolve_right fun h =>
      h.1 (hf.takes hlength _)
  obtain ⟨hcontext, hvalues⟩ := hnew.at_base hadds
  have hstack : (t.scopes.context c).scopes = [base] := by
    rw [hcontext, hadds.context_new.scopes]
  have hdistinct := hnew.distinct hnodup
  have hmemory : s₁.memory = s.memory := hsheds.trims.memory
  have hgains := hnew.gains
  refine ⟨t.enter ⟨c, f.unit, f.name, t.activation.module⟩, ⟨hmemory ▸ hgains.adds,
    hmemory ▸ hgains.alters, hmemory ▸ hgains.nests, fun i name v hname hv => ?_⟩,
    fun completion n hbody => ?_⟩
  · have hp : f.fixed[i]? = some ⟨name, .any, false⟩ := by
      rw [hf.fixed_eq.2, hf.params, List.getElem?_map, hname]
      rfl
    obtain ⟨w, hw, hreceived⟩ := hnew.single i _ v hp (by rw [givenFor?, hv]; rfl)
    rw [Bool.true_and] at hreceived
    refine ⟨w, ?_, hmemory ▸ hreceived⟩
    exact Store.lookup_of_base hstack (hvalues.symm ▸ hdistinct.get?_of_mem hw)
  · have hcall : callReference e r true arguments [] s = finishCall e f c t := by
      unfold callReference
      rw [bind_apply, readMemory]
      dsimp only
      rw [hr]
      exact callFunction_of_bound hdepth henter hbind
    have hnoFault := ((rules.callReference e r true arguments [] fun body =>
      rules.execStatements he body) s hs).noFault
    rw [hcall] at hnoFault ⊢
    exact finishCall_of_ran (runBody_of_ran hbody) hf.returns hnoFault

/-! ### A call by position and by name -/

/-- A function of an `int`, of one more value, and of what is left. -/
def gathering : FunctionDecl :=
  .mk "gathering" [.mk "a" (some (.var "int")) false, .mk "b" none false, .mk "rest" none true]
    [] [] 1

/-- The function that is made from a declaration, with the state after it. -/
def Engine.made? (e : Engine) (decl : FunctionDecl) (s : State) :
    Option (FunctionRef × Function × State) :=
  match e.makeFunction decl none s with
  | (.ok r, t) => (t.memory.function? r).map (r, ·, t)
  | _ => none

theorem Engine.of_made? {decl : FunctionDecl} (h : e.made? decl s = some (r, f, t)) :
    e.makeFunction decl none s = (.ok r, t) ∧ t.memory.function? r = some f := by
  unfold made? at h
  split at h
  case h_1 r' u hr =>
    obtain ⟨g, hg, he⟩ := Option.map_eq_some_iff.mp h
    cases he
    exact ⟨hr, hg⟩
  case h_2 => cases h

theorem Reached.made (h : Reached settings loader s) {decl : FunctionDecl} {fuel : Nat}
    (hmade : (engine settings loader fuel).makeFunction decl none s = (.ok r, t)) :
    Reached settings loader t := by
  have hran := h.ran (.query (.expression (.lambda decl))) fuel
  have hlambda : (Task.query (.expression (.lambda decl))).run (engine settings loader fuel) s =
      (.ok (.function r), t) := by
    show (engine settings loader fuel).evalExpr (.lambda decl) s = _
    rw [Engine.evalExpr, bind_apply, hmade]
    rfl
  rwa [hlambda] at hran

/-- Whether arguments are bound in a new context for a function. -/
def Function.binds (f : Function) (r : FunctionRef) (arguments : List Value)
    (keywords : KeywordValues) (s : State) : Bool :=
  ((enterContext r f >>= fun c => bindArguments f c false arguments keywords) s).1.isOk

theorem Function.binds_iff (henter : enterContext r f s = (.ok c, s₀)) :
    f.binds r arguments keywords s = true ↔
      ∃ t, bindArguments f c false arguments keywords s₀ = (.ok (), t) := by
  unfold binds
  rw [bind_apply, henter]
  constructor
  · intro hok
    obtain ⟨⟨⟩, hbind⟩ := Outcome.exists_of_isOk hok
    exact ⟨_, hbind⟩
  · rintro ⟨t, hbind⟩
    dsimp only
    rw [hbind]
    rfl

/-- One argument by position and one by name are enough, and one alone is not. -/
theorem argument_binding_gathering :
    let e := engine {} (fun _ => .unknown) 1
    ∃ r s f, e.makeFunction gathering none .initial = (.ok r, s) ∧
      s.memory.function? r = some f ∧
      (∃ s₁ c t, f.Begins false [.int 1] [("b", .int 2)] s₁ c t ∧
        callFunction e r f false [.int 1] [("b", .int 2)] s = finishCall e f c t) ∧
      ∃ cause t, cause.kind = .type ∧ Undisturbed s t ∧
        callFunction e r f false [.int 1] [] s = (.raised (.ofCause cause), t) := by
  intro e
  have htest : (e.made? gathering .initial).any (fun made =>
      made.2.1.params.all (fun p => !isReserved p.name) &&
        made.2.1.binds made.1 [.int 1] [("b", .int 2)] made.2.2 &&
          !made.2.1.binds made.1 [.int 1] [] made.2.2 &&
            decide (made.2.2.depth < e.settings.maxCallDepth) &&
              (made.2.2.gone.isEmpty && made.2.2.schedule.isEmpty)) = true := by
    decide +kernel
  obtain ⟨⟨r, f, s⟩, hmade?, htest⟩ := (Option.any_eq_true _ _).mp htest
  simp only [Bool.and_eq_true, List.all_eq_true, Bool.not_eq_true', decide_eq_true_eq,
    List.isEmpty_iff] at htest
  obtain ⟨⟨⟨⟨hnames, hbinds⟩, hnot⟩, hdepth⟩, hgone, hschedule⟩ := htest
  obtain ⟨hr, hf⟩ := Engine.of_made? hmade?
  have hreached : Reached {} (fun _ => .unknown) s := Reached.initial.made hr
  have hmade : f.Made := .intro f.owner hr hf
  obtain ⟨s₁, hawaits⟩ := (State.spares_all hgone hschedule r).awaits hreached.sound
  refine ⟨r, s, f, hr, hf, ?_, ?_⟩
  · obtain ⟨c, s₀, henter, -, hbegins, -⟩ :=
      hreached.argument_binding hf hmade hnames hawaits false [.int 1] [("b", .int 2)]
    obtain ⟨t, hbind⟩ := (Function.binds_iff henter).mp hbinds
    obtain ⟨hbegun, -, hcall⟩ := hbegins t hbind
    exact ⟨s₁, c, t, hbegun, hcall e hdepth⟩
  · obtain ⟨c, s₀, henter, htakes, -, hfails⟩ :=
      hreached.argument_binding hf hmade hnames hawaits false [.int 1] []
    rw [← htakes, ← Function.binds_iff henter] at hfails
    obtain ⟨cause, t, hkind, hundisturbed, hcall⟩ := hfails (ne_true_of_eq_false hnot)
    exact ⟨cause, t, hkind, hundisturbed, hcall e hdepth⟩

end calls

end Classlet
