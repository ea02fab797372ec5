import Classlet.Proofs.Run.Trace

/-! # The turns of a call

A call opens a context, binds the parameters of the function in its scope, runs the body and gives
the context up.  The parameters have different names, so that each of them is new in the scope when
it is bound (`Binds`).  That the context can be given up is known since the body is confined. -/

namespace Classlet

open Eval

variable {α β : Type} {m : Moment}

/-! ### The parameters of a call -/

theorem map_fst_fillPositional : ∀ (params : List ParamSpec) (arguments : List Value),
    (fillPositional params arguments).map (·.1) = params
  | [], _ => rfl
  | p :: params, [] => congrArg (p :: ·) (map_fst_fillPositional params [])
  | p :: params, _ :: arguments => congrArg (p :: ·) (map_fst_fillPositional params arguments)

theorem map_fst_fillKeyword {function keyword : String} {v : Value} :
    ∀ {slots slots' : List Slot}, fillKeyword function keyword v slots = .ok slots' →
      slots'.map (·.1) = slots.map (·.1)
  | [], _, h => by cases h
  | (p, slot) :: more, slots', h => by
      unfold fillKeyword at h
      split at h
      · cases slot with
        | some w => cases h
        | none =>
            cases h
            rfl
      · cases hmore : fillKeyword function keyword v more with
        | error c =>
            rw [hmore] at h
            cases h
        | ok slots =>
            rw [hmore] at h
            cases h
            exact congrArg (p :: ·) (map_fst_fillKeyword hmore)

theorem map_fst_fillKeywords {function : String} : ∀ {keywords : KeywordValues}
    {slots slots' : List Slot}, fillKeywords function keywords slots = .ok slots' →
      slots'.map (·.1) = slots.map (·.1)
  | [], _, _, h => by
      cases h
      rfl
  | (keyword, v) :: more, slots, slots', h => by
      rw [fillKeywords] at h
      cases hkeyword : fillKeyword function keyword v slots with
      | error c =>
          rw [hkeyword] at h
          cases h
      | ok filled =>
          rw [hkeyword] at h
          exact (map_fst_fillKeywords h).trans (map_fst_fillKeyword hkeyword)

/-- The parameters that an arrangement binds, in order. -/
def Arrangement.params (a : Arrangement) : List ParamSpec :=
  a.slots.map (·.1) ++ (a.rest.map (·.1)).toList

theorem Function.fixed_append_variadic (f : Function) :
    f.fixed ++ f.variadic?.toList = f.params := by
  unfold fixed
  cases hv : f.variadic? with
  | none => simp
  | some p =>
      have hlast : p ∈ f.params.getLast? := by
        unfold variadic? at hv
        exact (Option.filter_eq_some_iff.mp hv).1
      simp [List.dropLast_append_getLast? p hlast]

/-- An arrangement binds every parameter once. -/
theorem Function.params_of_arrange {f : Function} {arguments : List Value}
    {keywords : KeywordValues} {a : Arrangement} (h : f.arrange arguments keywords = .ok a) :
    a.params = f.params := by
  unfold arrange at h
  dsimp only at h
  split at h
  · cases h
  · cases hslots : fillKeywords f.name keywords (fillPositional f.fixed arguments) with
    | error c =>
        rw [hslots] at h
        cases h
    | ok slots =>
        rw [hslots] at h
        cases h
        have hfixed := (map_fst_fillKeywords hslots).trans (map_fst_fillPositional _ _)
        unfold Arrangement.params
        rw [hfixed, Option.map_map, Function.comp_def, Option.map_id']
        exact f.fixed_append_variadic

/-! ### Arguments -/

/-- The innermost scope of a context binds none of some names. -/
def State.Unbound (s : State) (c : ContextId) (names : List String) : Prop :=
  ∀ scope, s.scopes.innermost c = .ok scope →
    ∀ name ∈ names, (s.scopes.frame scope).values.get? name = none

/-- A computation that takes turns where some names are unbound in a context that was opened for a
call, and that leaves those in `later` unbound. -/
def Binds (c : ContextId) (names later : List String) (x : Eval α) : Prop :=
  ∀ m : Moment, m.Fit → (∃ rest, m.pending = .call c :: rest) → m.state.scopes.Open c →
    m.state.Unbound c names →
    m.Turns (m.after x) ∧ ∀ a s, x m.state = (.ok a, s) → s.scopes.Open c ∧ s.Unbound c later

section arguments
variable {c : ContextId} {names later : List String}

theorem Binds.bind {middle : List String} {x : Eval α} {f : α → Eval β}
    (hx : Binds c names middle x) (hf : ∀ a, Binds c middle later (f a)) :
    Binds c names later (x >>= f) := by
  intro m hm hcall hc hnames
  obtain ⟨hturns, hok⟩ := hx m hm hcall hc hnames
  refine ⟨Moment.turns_bind hturns fun a s hr hfit => ?_, fun b s' h => ?_⟩
  · obtain ⟨hin, hmiddle⟩ := hok a s hr
    exact (hf a (m.withState s) hfit hcall hin hmiddle).1
  · obtain ⟨a, s, hr, h⟩ := of_bind_ok h
    obtain ⟨hin, hmiddle⟩ := hok a s hr
    have hfit : (m.withState s).Fit := by
      have hlast := hturns.last
      unfold Moment.after at hlast
      rwa [hr] at hlast
    exact (hf a (m.withState s) hfit hcall hin hmiddle).2 b s' h

theorem Binds.of_same {x : Eval α} (h : ∀ s, (x s).2 = s) : Binds c names names x := by
  intro m hm _ hc hnames
  refine ⟨paced_of_same h m hm, fun a s hr => ?_⟩
  obtain rfl : m.state = s := by rw [← h m.state, hr]
  exact ⟨hc, hnames⟩

/-- A new name is bound, and other names stay unbound. -/
theorem Binds.bindNew (shared : Bool) {name : String} (hname : name ∉ later) (v : Value) :
    Binds c (name :: later) later (bindNew c shared name v) := by
  intro m hm hcall hc hnames
  have hnew := fun scope hscope => hnames scope hscope name List.mem_cons_self
  refine ⟨Moment.turns_bindNew hm hc.1 (.inr hcall) shared v hnew fun _ => hcall,
    fun a s hr => ?_⟩
  have hs : (Eval.bindNew c shared name v m.state).2 = s := by rw [hr]
  subst hs
  refine ⟨(Settles.bindNew hm.sound hc.1 shared name v).stays_open hc, ?_⟩
  intro scope hscope other hother
  rcases scopes_bindNew c shared name v m.state with hsame | ⟨top, w, htop, hbind⟩
  · rw [hsame] at hscope ⊢
    exact hnames scope hscope other (List.mem_cons_of_mem _ hother)
  · rw [hbind] at hscope ⊢
    have hne : name ≠ other := by
      rintro rfl
      exact hname hother
    have hlt := hm.sound.exact.scope_lt c top (Arena.mem_of_innermost htop)
    obtain rfl : top = scope := by
      rw [Arena.innermost, Arena.context_bind] at hscope
      exact Except.ok.inj (htop.symm.trans hscope)
    rw [Arena.values_bind hlt, if_pos rfl, Bindings.get?_insert_of_ne _ _ hne]
    exact hnames top htop other (List.mem_cons_of_mem _ hother)

variable (f : Function)

theorem Binds.checkArgument (p : ParamSpec) (v : Value) :
    Binds c names names (checkArgument f p v) := by
  refine .of_same fun s => ?_
  unfold Classlet.checkArgument
  dsimp only
  split <;> rfl

theorem Binds.checkArguments (p : ParamSpec) :
    ∀ vs : List Value, Binds c names names (checkArguments f p vs)
  | [] => .of_same fun _ => rfl
  | v :: vs => (Binds.checkArgument f p v).bind fun _ => Binds.checkArguments p vs

theorem Binds.bindSlots : ∀ (shared : Bool) (slots : List Slot),
    (slots.map (·.1.name) ++ later).Nodup →
      Binds c (slots.map (·.1.name) ++ later) later (bindSlots f c shared slots)
  | _, [], _ => .of_same fun _ => rfl
  | _, (p, none) :: more, _ => by
      intro m hm _ _ _
      exact ⟨paced_of_same (fun _ => rfl) m hm, fun _ _ h => by cases h⟩
  | shared, (p, some v) :: more, hnodup => by
      obtain ⟨hname, hmore⟩ := List.nodup_cons.mp hnodup
      refine (Binds.checkArgument f p v).bind fun _ => ?_
      have hrest := fun _ : Unit => Binds.bindSlots false more hmore
      cases shared with
      | true => exact (Binds.bindNew true hname v).bind hrest
      | false => exact (Binds.bindNew false hname v).bind hrest

theorem Binds.bindRest : ∀ rest : Option (ParamSpec × List Value),
    Binds c ((rest.map (·.1)).toList.map ParamSpec.name) [] (bindRest f c rest)
  | none => .of_same fun _ => rfl
  | some (p, vs) =>
      (Binds.checkArguments f p vs).bind fun _ => Binds.bindNew false List.not_mem_nil (.tuple vs)

/-- The arguments of a call are bound one by one to names that are new in the scope of the call. -/
theorem Binds.bindArguments (hparams : (f.params.map ParamSpec.name).Nodup) (hasReceiver : Bool)
    (arguments : List Value) (keywords : KeywordValues) :
    Binds c (f.params.map ParamSpec.name) []
      (bindArguments f c hasReceiver arguments keywords) := by
  unfold Classlet.bindArguments
  cases harrange : f.arrange arguments keywords with
  | error cause =>
      intro m hm _ _ _
      exact ⟨paced_of_same (fun _ => rfl) m hm, fun _ _ h => by cases h⟩
  | ok a =>
      have hnames : f.params.map ParamSpec.name = a.slots.map (·.1.name) ++
          (a.rest.map (·.1)).toList.map ParamSpec.name := by
        rw [← f.params_of_arrange harrange, Arrangement.params, List.map_append, List.map_map]
        rfl
      rw [hnames] at hparams ⊢
      exact (Binds.bindSlots f hasReceiver a.slots hparams).bind fun _ => Binds.bindRest f a.rest

end arguments

/-! ### Calls -/

/-- What runs in a context that is opened for a call begins with the context and ends with it. -/
theorem Moment.turns_opening {r : FunctionRef} {f : Function} {x : ContextId → Eval α}
    (hm : m.Fit) (hf : m.state.memory.function? r = some f)
    (hconfined : ∀ c, Confined (fun _ => c) (x c))
    (hx : ∀ c s, openCall r f m.state = (.ok c, s) → s.scopes.Open c → s.Fit →
      (∀ names, s.Unbound c names) →
      (m.enterCall s c).Turns ((m.enterCall s c).after (x c))) :
    m.Turns (m.after (openCall r f >>= fun c => releasing c (x c))) := by
  by_cases hgone : r ∈ m.state.gone
  · have hstale : openCall r f m.state = (.stopped .stale, m.state) :=
      if_pos (by simpa using hgone)
    unfold Moment.after
    rw [bind_apply, hstale]
    exact .refl hm
  obtain ⟨c, scopes, base, henter, hsound, hadds⟩ := openCall_spec hm.sound hf hgone
  have hopen : scopes.Open c := ⟨(hadds.inUse c).mpr (.inl rfl), hadds.context_new.captured⟩
  have hstack : (scopes.context c).scopes = [base] := hadds.context_new.scopes
  have hentered : State.Fit { m.state with scopes := scopes } := hm.of_sound hsound rfl
  have hunbound : ∀ names, State.Unbound { m.state with scopes := scopes } c names := by
    intro names scope hscope name _
    dsimp only at hscope ⊢
    rw [Arena.innermost, hstack] at hscope
    cases hscope
    rw [hadds.values_new base (List.mem_singleton_self base)]
    rfl
  have hrun := hx c _ henter hopen hentered hunbound
  have hsettles := hconfined c _ hsound hopen
  dsimp only at hsettles
  rw [hstack] at hsettles
  have hend := (Settles.releasing hm.sound hadds hsettles).sound
  have hlet := hsettles.trans (hsettles.sound.lettingGo.settles hsettles.noFault)
  -- the context is open as it was, and is neither the root nor running
  have hold : ∀ d, m.state.scopes.InUse d → d ≠ c := by
    rintro d hd rfl
    exact hadds.fresh hd
  have hroot : (x c { m.state with scopes := scopes }).2.lettingGo.root ≠ c := by
    rw [hlet.root]
    exact hold _ hm.sound.root.1
  have hhere : (x c { m.state with scopes := scopes }).2.lettingGo.activation.context ≠ c := by
    rw [hlet.activation]
    exact hold _ hm.sound.here.1
  have hopen' := hlet.stays_open hopen
  have hstack' := (hlet.scopes.context c (.opened hopen)).scopes.trans hstack
  obtain ⟨b, hb, -, -⟩ := hlet.sound.release hopen' hstack' hroot hhere
  have hstate : ((openCall r f >>= fun c => releasing c (x c)) m.state).2 =
      { (x c { m.state with scopes := scopes }).2.lettingGo with scopes := b } := by
    rw [bind_apply, henter]
    unfold releasing State.releaseContext
    dsimp only at hb ⊢
    rw [hb]
    rfl
  have hcalled := Turn.called hf henter
  have hshed := hrun.trans (turns_collects hrun.last .letGo)
  refine (hcalled.turns hm hentered).trans (hshed.step ?_ ?_)
  · unfold Moment.after
    rw [hstate]
    exact .returned rfl hopen' hroot hhere hb
  · refine State.Fit.of_sound hshed.last ?_ (congrArg (fun s => s.memory.functions) hstate)
    unfold Moment.after
    rw [bind_apply, henter]
    exact hend

/-- A call reclaims what was dropped before its context is opened. -/
theorem Moment.turns_entering {r : FunctionRef} {f : Function} {x : ContextId → Eval α}
    (hm : m.Fit) (hf : m.state.memory.function? r = some f)
    (hconfined : ∀ c, Confined (fun _ => c) (x c))
    (hx : ∀ t c s, openCall r f t = (.ok c, s) → s.scopes.Open c → s.Fit →
      (∀ names, s.Unbound c names) →
      (m.enterCall s c).Turns ((m.enterCall s c).after (x c))) :
    m.Turns (m.after (enterContext r f >>= fun c => releasing c (x c))) := by
  unfold enterContext
  rw [← Eval.bind_assoc]
  refine turns_bind (paced_reclaim m hm) fun _ t hr ht => ?_
  refine turns_opening ht ?_ hconfined fun c s => hx t c s
  show t.memory.function? r = some f
  rw [(State.Collects.reclaimed hr).trims.memory]
  exact hf

theorem Moment.turns_runBody {e : Engine} (f : Function) {c : ContextId} {rest : List Pending}
    (hm : m.Fit) (hopen : m.state.scopes.Open c) (hpending : m.pending = .call c :: rest)
    (hconfined : ∀ body, Confined Activation.context (e.execStatements body))
    (hbody : ∀ body, Paced (e.execStatements body)) : m.Turns (m.after (runBody e f c)) := by
  have hbegan := Turn.began (m := m) f.unit f.name hpending
  have hentered : (m.enterBody c f.unit f.name).Fit :=
    State.Fit.of_sound hm (hm.sound.enter hopen) rfl
  have hrun := hbody f.decl.body _ hentered
  have hend := (confined_runBody f hconfined c m.state hm.sound hopen).sound
  refine (hbegan.turns hm hentered).trans (hrun.step (.ended rfl) ?_)
  exact State.Fit.of_sound hrun.last hend rfl

section calls
variable {e : Engine} (hconfined : ∀ body, Confined Activation.context (e.execStatements body))
  (hbody : ∀ body, Paced (e.execStatements body))
include hconfined hbody

theorem Moment.turns_callFunction {r : FunctionRef} {f : Function} (hm : m.Fit)
    (hf : m.state.memory.function? r = some f) (hasReceiver : Bool) (arguments : List Value)
    (keywords : KeywordValues) :
    m.Turns (m.after (callFunction e r f hasReceiver arguments keywords)) := by
  have hparams := hm.params _ (Memory.mem_signatures hf)
  unfold callFunction
  refine turns_bind (paced_closed.read _ m hm) fun depth s hr _ => ?_
  obtain rfl : m.state = s := congrArg Prod.snd hr
  split
  · exact paced_closed.fail _ m hm
  · rw [bind_assoc]
    refine turns_bind (turns_entering hm hf (fun c => ?_) fun t c s henter hopen hs hnew => ?_)
      fun completion s _ hs => ?_
    · exact (confined_bindArguments f c hasReceiver arguments keywords).bind fun _ =>
        confined_runBody f hconfined c
    · have hbinds := Binds.bindArguments f hparams hasReceiver arguments keywords
        (m.enterCall s c) hs ⟨m.pending, rfl⟩ hopen (hnew _)
      refine turns_bind hbinds.1 fun _ s' hr hs' => ?_
      have hbound : bindArguments f c hasReceiver arguments keywords s = (.ok (), s') := hr
      have hsettles := confined_bindArguments f c hasReceiver arguments keywords s hs.sound hopen
      have hopen' := hsettles.stays_open hopen
      rw [hbound] at hopen'
      exact turns_runBody f hs' hopen' rfl hconfined hbody
    · refine paced_closed.bind (paced_closed.readMemory _) (fun answer => ?_) _ hs
      exact paced_closed.bind (paced_closed.ofExcept answer) fun _ => paced_closed.pure _

theorem paced_callReference (r : FunctionRef) (hasReceiver : Bool) (arguments : List Value)
    (keywords : KeywordValues) : Paced (callReference e r hasReceiver arguments keywords) := by
  intro m hm
  unfold callReference
  refine Moment.turns_bind (paced_closed.readMemory _ m hm) fun found s hr _ => ?_
  cases hr
  dsimp only
  cases hf : m.state.memory.function? r with
  | some f =>
      exact Moment.turns_callFunction hconfined hbody hm hf hasReceiver arguments keywords
  | none => exact paced_closed.pure _ m hm

end calls

end Classlet
