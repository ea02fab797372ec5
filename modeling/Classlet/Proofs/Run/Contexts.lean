import Classlet.Proofs.Run.Imports
import Classlet.Proofs.Run.Variables

/-! # The contexts of the code that runs and waits

The code that runs writes to the stack of one context, and the code that waits for it will write to
the stacks of others (`Moment.contexts`).  They are open, and the context of a call or of a module
is none of those that wait below it (`Moment.Ordered`).  A turn changes the stack of one of these
contexts only (`Turn.spares`).  So a module whose context is open and none of them is left alone by
all that follows (`Moment.Rests`, `Turns.rests`). -/

namespace Classlet

open Eval

/-! ### Stacks -/

namespace Arena

variable {α : Type} {a b : Arena α} {c d : ContextId} {k : Holdings} {s : ScopeId}
  {own : List ScopeId} {held ms : List ContextId} {closure? : α → Option ContextId}

theorem Exact.eq_of_mem_stacks (h : a.Exact k) (hc : a.Open c) (hd : a.Open d)
    (hsc : s ∈ (a.context c).scopes) (hsd : s ∈ (a.context d).scopes) : c = d := by
  by_contra hne
  -- the frame would be counted for `d` even without `c`
  have hcount := a.count_setContext hc.1.1 {} (stacksScope s)
  have hmem : stacksScope s (a.context c) = true := by simp [stacksScope, hc.2, hsc]
  rw [hmem, stacksScope_empty, if_pos rfl, if_neg Bool.false_ne_true] at hcount
  have hother : 0 < (a.setContext c {}).count (stacksScope s) := by
    refine count_pos _ (c := d) ?_ (stacksScope_empty s)
    rw [a.context_setContext hc.1.1, if_neg (Ne.symm hne)]
    simp [stacksScope, hd.2, hsd]
  have hlive := h.live_eq s (h.scope_lt c s hsc)
  split at hlive <;> omega

/-- Open contexts other than `c` stay open, with their stacks and the variables on them. -/
structure Spares (c : ContextId) (a b : Arena α) : Prop where
  opened : ∀ d, a.Open d → d ≠ c → b.Open d
  scopes : ∀ d, a.Open d → d ≠ c → (b.context d).scopes = (a.context d).scopes
  values : ∀ d, a.Open d → d ≠ c → ∀ s ∈ (a.context d).scopes,
    (b.frame s).values = (a.frame s).values

theorem Spares.baseBindings (h : Spares c a b) (hd : a.Open d) (hne : d ≠ c) :
    b.baseBindings d = a.baseBindings d := by
  unfold Arena.baseBindings
  rw [h.scopes d hd hne]
  cases hbase : (a.context d).scopes.getLast? with
  | none => rfl
  | some base => exact h.values d hd hne base (List.mem_of_getLast? hbase)

/-- Variables on the stack of a context are not on the stacks of the others. -/
theorem Extends.spares (h : Extends own held a b) (ha : a.Exact k) (hc : a.Open c)
    (hown : ∀ s ∈ own, s ∈ (a.context c).scopes) : Spares c a b where
  opened _ hd _ := h.stays_open hd
  scopes _ hd _ := (h.context _ (.opened hd)).scopes
  values _ hd hne s hs :=
    h.values _ (.opened hd) s hs fun hm => hne (ha.eq_of_mem_stacks hd hc hs (hown s hm))

theorem spares_pushScope (ha : a.Exact k) (hc : a.Open c) : Spares c a (a.pushScope c).2 := by
  have hold : ∀ d, d ≠ c → (a.pushScope c).2.context d = a.context d := by
    intro d hne
    rw [context_pushScope hc.1, if_neg hne]
  refine ⟨fun d hd hne => ?_, fun d _ hne => by rw [hold d hne], fun d hd hne s hs => ?_⟩
  · exact ⟨(inUse_pushScope d).mpr hd.1, by rw [hold d hne]; exact hd.2⟩
  · rw [frame_pushScope ha, if_neg]
    rintro rfl
    exact pushScope_fresh (ha.scope_inUse hs)

/-- Scopes on the stack of an open context are not emptied. -/
theorem Open.values_survive {t : ScopeId} (hd : b.Open d) (ht : t ∈ (b.context d).scopes)
    (hb : b.Exact { k with mentions := ms ++ b.dropped }) (h : FrameSurvives closure? a b t) :
    (b.frame t).values = (a.frame t).values := by
  have hkept : b.Kept [] d := .opened hd
  exact h.resolve_right fun hempty =>
    hkept.not_doomed hb (fun _ hm => by cases hm) ht hempty.2.2

theorem spares_dropScope (hb : (a.dropScope c s closure?).Exact
      { k with mentions := ms ++ (a.dropScope c s closure?).dropped }) (hc : a.Open c)
    (hs : s.index < a.frames.size) : Spares c a (a.dropScope c s closure?) := by
  have hold : ∀ d, d ≠ c → (a.dropScope c s closure?).context d = a.context d := by
    intro d hne
    rw [context_dropScope hc.1, if_neg hne]
  have hopen : ∀ d, a.Open d → d ≠ c → (a.dropScope c s closure?).Open d := fun d hd hne =>
    ⟨(inUse_dropScope d).mpr hd.1, by rw [hold d hne]; exact hd.2⟩
  refine ⟨hopen, fun d _ hne => by rw [hold d hne], fun d hd hne t ht => ?_⟩
  rw [← hold d hne] at ht
  exact (hopen d hd hne).values_survive ht hb (frame_dropScope hs hb (hb.scope_inUse ht)).2

theorem Survives.spares (h : Survives closure? [c] a b)
    (hb : b.Exact { k with mentions := ms ++ b.dropped }) : Spares c a b := by
  have huse : ∀ d, a.Open d → d ≠ c → b.InUse d := fun d hd hne =>
    h.opened d hd.1 hd.2 (by simpa using hne)
  have hopen : ∀ d, a.Open d → d ≠ c → b.Open d := fun d hd hne =>
    ⟨huse d hd hne, (h.context d (huse d hd hne)).captured.trans hd.2⟩
  refine ⟨hopen, fun d hd hne => ?_, fun d hd hne s hs => ?_⟩
  · exact (h.context d (huse d hd hne)).scopes
  · rw [← (h.context d (huse d hd hne)).scopes] at hs
    exact (hopen d hd hne).values_survive hs hb (h.frame s (hb.scope_inUse hs)).2

end Arena

/-! ### Modules -/

namespace Memory

variable {k l : Memory} {busy : List ModuleRef}

/-- The modules of `k` have the same contexts in `l`, and those that are not busy have the same
exports. -/
structure Retains (busy : List ModuleRef) (k l : Memory) : Prop where
  size_le : k.modules.size ≤ l.modules.size
  context : ∀ r : ModuleRef, r.index < k.modules.size →
    (l.moduleInfo r).context = (k.moduleInfo r).context
  exports : ∀ r : ModuleRef, r.index < k.modules.size → r ∉ busy →
    (l.moduleInfo r).exports = (k.moduleInfo r).exports

theorem retains_of_modules (h : l.modules = k.modules) : k.Retains busy l := by
  have hinfo : ∀ r, l.moduleInfo r = k.moduleInfo r := fun r => by
    rw [moduleInfo, moduleInfo, h]
  exact ⟨by rw [h], fun r _ => by rw [hinfo], fun r _ _ => by rw [hinfo]⟩

theorem retains_newModule (k : Memory) (d : Module) : k.Retains busy (k.newModule d).2 where
  size_le := (k.continues_newModule d).size_le
  context r hr := by rw [moduleInfo_newModule_of_lt k d hr]
  exports r hr _ := by rw [moduleInfo_newModule_of_lt k d hr]

theorem context_setExports (k : Memory) (q r : ModuleRef) (exports : Bindings Value) :
    ((k.setExports q exports).moduleInfo r).context = (k.moduleInfo r).context := by
  unfold moduleInfo setExports
  rw [Array.getElem?_modify]
  split
  · cases k.modules[r.index]? <;> rfl
  · rfl

theorem exports_setExports (k : Memory) {q r : ModuleRef} (exports : Bindings Value)
    (hr : r.index < k.modules.size) : ((k.setExports q exports).moduleInfo r).exports =
      if q = r then exports else (k.moduleInfo r).exports := by
  unfold moduleInfo setExports
  rw [Array.getElem?_modify, Array.getElem?_eq_getElem hr]
  by_cases he : q = r
  · rw [if_pos (congrArg ModuleRef.index he), if_pos he]
    rfl
  · have hne : q.index ≠ r.index := fun hi => he (by cases q; cases r; simpa using hi)
    rw [if_neg hne, if_neg he]

theorem retains_setExports (k : Memory) {q : ModuleRef} (hq : q ∈ busy)
    (exports : Bindings Value) : k.Retains busy (k.setExports q exports) where
  size_le := (k.continues_setExports q exports).size_le
  context r _ := k.context_setExports q r exports
  exports r hr hbusy := by
    rw [k.exports_setExports exports hr, if_neg]
    rintro rfl
    exact hbusy hq

end Memory

/-! ### Contexts of code -/

/-- The context that pending work goes on with. -/
def Pending.context : Pending → ContextId
  | block c _ => c
  | call c => c
  | body caller _ => caller.context
  | module x => x.caller.context

namespace Moment

variable {m m' : Moment} {c : ContextId} {r : ModuleRef} {pending : List Pending}

/-- The contexts of the code that runs and of the code that waits. -/
def contexts (m : Moment) : List ContextId :=
  m.state.activation.context :: m.pending.map Pending.context

/-- Work that has begun is not ended before it began. -/
theorem ne_of_rest {p q : Pending} {rest : List Pending} (h : rest = p :: pending) :
    pending ≠ q :: rest := by
  intro he
  have hlength := congrArg List.length he
  rw [h, List.length_cons, List.length_cons] at hlength
  omega

/-- A module that begins has a new context and is run for the code that is running. -/
theorem ModuleStep.begins {x : Running} {s : State} (h : m.ModuleStep (m.enter s x)) :
    ∃ (s' : State) (source : Option String) (parent : Option ModuleRef) (loads : Array Path),
      openModule (Location.canonical x.path) source parent { m.state with loads := loads } =
        (.ok x.ref, s') ∧ x.caller = m.state.activation ∧ m.enter s x = m.enter s' x := by
  generalize hafter : m.enter s x = after at h
  have hpending : after.pending = .module x :: m.pending := by rw [← hafter]; rfl
  cases h with
  | imported _ _ _ hnew =>
      cases (List.cons.inj hpending).1
      exact ⟨_, _, _, _, hnew, rfl, rfl⟩
  | evaluated _ hnew =>
      cases (List.cons.inj hpending).1
      exact ⟨_, _, _, m.state.loads, hnew, rfl, rfl⟩
  | @completed y rest exports hbefore =>
      exact absurd hbefore (ne_of_rest hpending)
  | @failed y rest trace hbefore =>
      exact absurd hbefore (ne_of_rest hpending)

theorem openModule_opens {p : Path} {source : Option String} {parent : Option ModuleRef}
    {s : State} (loads : Array Path) (hm : m.Fit)
    (hnew : openModule p source parent { m.state with loads := loads } = (.ok r, s)) :
    Arena.Extends [] m.state.held m.state.scopes s.scopes ∧ r = ⟨m.state.memory.modules.size⟩ ∧
      ¬ m.state.scopes.InUse (s.memory.moduleInfo r).context ∧
      ∃ d, s.memory = (m.state.memory.newModule d).2 := by
  let d := Module.ofSource p parent (m.state.scopes.openContext (some m.state.root)).1
    ⟨p.text, source⟩
  obtain ⟨-, base, hadds⟩ :=
    Arena.openContext_spec hm.sound.exact (some m.state.root) fun q hq => by
      cases hq
      exact hm.sound.root.1
  have hscopes : s.scopes = (m.state.scopes.openContext (some m.state.root)).2 :=
    (congrArg (fun r => r.2.scopes) hnew).symm
  have hmemory : s.memory = (m.state.memory.newModule d).2 :=
    (congrArg (fun r => r.2.memory) hnew).symm
  have href : r = ⟨m.state.memory.modules.size⟩ :=
    (Outcome.ok.inj (congrArg Prod.fst hnew)).symm
  have hcontext : (s.memory.moduleInfo r).context =
      (m.state.scopes.openContext (some m.state.root)).1 := by
    rw [hmemory, href]
    simp [Memory.newModule, Memory.moduleInfo, d, Module.ofSource]
  refine ⟨?_, href, ?_, d, hmemory⟩
  · rw [hscopes]
    exact .of_adds hm.sound.exact (fun _ => hm.sound.held_inUse) hadds
  · rw [hcontext]
    exact hadds.fresh

theorem contexts_withState {s : State} (h : s.activation = m.state.activation) :
    (m.withState s).contexts = m.contexts := by
  unfold contexts withState
  rw [h]

theorem activation_bindAt (place : Store → Except BindFault ScopeId)
    (f : Store → ScopeId → Store) (s : State) : (bindAt place f s).2.activation = s.activation := by
  rcases bindAt_cases place f s with h | ⟨scope, -, h⟩
  · rw [h]
  · rw [h]

theorem activation_bindNew (c : ContextId) (shared : Bool) (name : String) (v : Value)
    (s : State) : (bindNew c shared name v s).2.activation = s.activation := by
  unfold bindNew
  split
  · exact activation_bindAt _ _ s
  · exact activation_bindAt _ _ s

theorem contexts_of_pending {p : Pending} {rest : List Pending} (h : m.pending = p :: rest) :
    m.contexts = m.state.activation.context :: p.context :: rest.map Pending.context := by
  rw [contexts, h, List.map_cons]

/-- A context of the code after a turn was one of the code before it, or it is new. -/
theorem Turn.contexts (h : m.Turn m') (hm : m.Fit) (hm' : m'.Fit) (hc : c ∈ m'.contexts) :
    c ∈ m.contexts ∨ (¬ m.state.scopes.InUse c ∧ m'.state.scopes.Open c) := by
  have hsame : ∀ {s : State}, s.activation = m.state.activation → c ∈ (m.withState s).contexts →
      c ∈ m.contexts := fun hactivation hc => contexts_withState hactivation ▸ hc
  cases h with
  | worked hworks => exact .inl (hsame hworks.activation hc)
  | collected hcollects => exact .inl (hsame hcollects.trims.activation hc)
  | captured decl returns _ => exact .inl hc
  | assigned name v => exact .inl (hsame (activation_bindAt _ _ _) hc)
  | bound shared name v _ _ _ =>
      exact .inl (hsame (activation_bindNew _ shared name v m.state) hc)
  | opened =>
      left
      rcases List.mem_cons.mp hc with rfl | hc
      · exact List.mem_cons_self
      · exact hc
  | closed hpending _ =>
      left
      rw [contexts_of_pending hpending]
      rcases List.mem_cons.mp hc with rfl | hc
      · exact List.mem_cons_self
      · exact List.mem_cons_of_mem _ (List.mem_cons_of_mem _ hc)
  | called hf henter =>
      obtain ⟨base, hadds⟩ := openCall_adds hm.sound hf henter
      obtain ⟨-, hs⟩ := openCall_eq_ok henter
      rcases List.mem_cons.mp hc with rfl | hc
      · left
        rw [enterCall, hs]
        exact List.mem_cons_self
      · rcases List.mem_cons.mp hc with rfl | hc
        · exact .inr ⟨hadds.fresh, (hadds.inUse _).mpr (.inl rfl), hadds.context_new.captured⟩
        · exact .inl (List.mem_cons_of_mem _ hc)
  | began unit name hpending =>
      left
      rcases List.mem_cons.mp hc with rfl | hc
      · rw [contexts_of_pending hpending]
        exact List.mem_cons_of_mem _ List.mem_cons_self
      · exact hc
  | ended hpending =>
      left
      rw [contexts_of_pending hpending]
      exact List.mem_cons_of_mem _ hc
  | returned hpending hopen hroot hhere hrelease =>
      left
      rw [contexts_of_pending hpending]
      rcases List.mem_cons.mp hc with rfl | hc
      · exact List.mem_cons_self
      · exact List.mem_cons_of_mem _ (List.mem_cons_of_mem _ hc)
  | @entered s x hstep =>
      obtain ⟨s', source, parent, loads, hnew, hcaller, heq⟩ := hstep.begins
      rw [heq] at hc hm' ⊢
      obtain ⟨-, -, hfresh, -⟩ := openModule_opens loads hm hnew
      rcases List.mem_cons.mp hc with rfl | hc
      · exact .inr ⟨hfresh, hm'.sound.here⟩
      · left
        rcases List.mem_cons.mp hc with rfl | hc
        · show x.caller.context ∈ m.contexts
          rw [hcaller]
          exact List.mem_cons_self
        · exact List.mem_cons_of_mem _ hc
  | completed hpending _ =>
      left
      rw [contexts_of_pending hpending]
      exact List.mem_cons_of_mem _ hc
  | failed trace hpending =>
      left
      rw [contexts_of_pending hpending]
      exact List.mem_cons_of_mem _ hc

/-! ### Stacked work -/

/-- Work that waits while code runs in a context: the context of a call and that of a module is none
of those that wait below it, the body of a function runs in the context of its call, and no module
is run twice. -/
inductive Stacked (k : Memory) : ContextId → List Pending → Prop where
  | idle (c : ContextId) : Stacked k c []
  | block {c : ContextId} {rest : List Pending} (scope : ScopeId) :
      Stacked k c rest → Stacked k c (.block c scope :: rest)
  | call {c d : ContextId} {rest : List Pending} :
      d ∉ c :: rest.map Pending.context → Stacked k c rest → Stacked k c (.call d :: rest)
  | body {c : ContextId} {caller : Activation} {rest : List Pending} (depth : Nat) :
      Stacked k caller.context (.call c :: rest) →
      Stacked k c (.body caller depth :: .call c :: rest)
  | module {c : ContextId} {x : Running} {rest : List Pending} :
      c = (k.moduleInfo x.ref).context → x.ref.index < k.modules.size →
      c ∉ x.caller.context :: rest.map Pending.context →
      x.ref ∉ (rest.filterMap Pending.running?).map Running.ref →
      Stacked k x.caller.context rest → Stacked k c (.module x :: rest)

namespace Stacked

variable {k l : Memory}

theorem mono {busy : List ModuleRef} (h : Stacked k c pending) (hkl : k.Retains busy l) :
    Stacked l c pending := by
  induction h with
  | idle c => exact .idle c
  | block scope _ ih => exact .block scope ih
  | call hd _ ih => exact .call hd ih
  | body depth _ ih => exact .body depth ih
  | module hc hx hfresh hother _ ih =>
      exact .module (hc.trans (hkl.context _ hx).symm) (Nat.lt_of_lt_of_le hx hkl.size_le) hfresh
        hother ih

theorem index_lt (h : Stacked k c pending) {x : Running}
    (hx : x ∈ pending.filterMap Pending.running?) : x.ref.index < k.modules.size := by
  induction h with
  | idle _ => cases hx
  | block _ _ ih => exact ih hx
  | call _ _ ih => exact ih hx
  | body _ _ ih => exact ih hx
  | module _ hy _ _ _ ih =>
      rcases List.mem_cons.mp hx with rfl | hx
      · exact hy
      · exact ih hx

end Stacked

/-- The contexts of the code are open, and its work is stacked. -/
structure Ordered (m : Moment) : Prop where
  opened : ∀ c ∈ m.contexts, m.state.scopes.Open c
  stacked : Stacked m.state.memory m.state.activation.context m.pending

theorem ordered_start : start.Ordered where
  opened c hc := by
    rcases List.mem_cons.mp hc with rfl | hc
    · exact fit_start.sound.here
    · cases hc
  stacked := .idle _

/-! ### What a turn does to contexts -/

/-- A turn changes the stack of one context of the code, which stays open unless the code leaves
it. -/
theorem Turn.spares (h : m.Turn m') (hm : m.Fit) (hm' : m'.Fit) (hordered : m.Ordered) :
    ∃ c ∈ m.contexts, Arena.Spares c m.state.scopes m'.state.scopes ∧
      (c ∈ m'.contexts → m'.state.scopes.Open c) := by
  have hexact := hm.sound.exact
  have hhere := hm.sound.here
  have hcurrent : m.state.activation.context ∈ m.contexts := List.mem_cons_self
  have hrefl : Arena.Extends [] m.state.held m.state.scopes m.state.scopes :=
    .refl [] hexact fun _ => hm.sound.held_inUse
  -- nothing is changed in what there was
  have hkept : ∀ {b : Arena Value} {held}, Arena.Extends [] held m.state.scopes b →
      ∃ c ∈ m.contexts, Arena.Spares c m.state.scopes b ∧ (c ∈ m'.contexts → b.Open c) :=
    fun hextends => ⟨_, hcurrent, hextends.spares hexact hhere (fun _ hs => by cases hs),
      fun _ => hextends.stays_open hhere⟩
  have hwritten : ∀ {c : ContextId} {b : Arena Value} {held}, c ∈ m.contexts →
      Arena.Extends (m.state.scopes.context c).scopes held m.state.scopes b →
      ∃ c ∈ m.contexts, Arena.Spares c m.state.scopes b ∧ (c ∈ m'.contexts → b.Open c) :=
    fun {c b _} hc hextends => ⟨c, hc, hextends.spares hexact (hordered.opened c hc) fun _ hs => hs,
      fun _ => hextends.stays_open (hordered.opened c hc)⟩
  cases h with
  | @worked s hworks =>
      have hextends : Arena.Extends [] m.state.held m.state.scopes s.scopes := by
        rw [hworks.scopes]
        exact hrefl
      exact hkept hextends
  | collected hcollects => exact hkept (hcollects.sheds hm.sound).scopes
  | captured decl returns _ =>
      exact hkept (isolated_freezeFunction decl _ returns m.state hm.sound).scopes
  | assigned name v =>
      exact hwritten hcurrent (Settles.assign _ name v hm.sound hhere.1).scopes
  | @bound c shared name v howner _ _ =>
      have hc : c ∈ m.contexts := by
        rcases howner with rfl | ⟨rest, hpending⟩
        · exact hcurrent
        · rw [contexts_of_pending hpending]
          exact List.mem_cons_of_mem _ List.mem_cons_self
      exact hwritten hc (Settles.bindNew hm.sound (hordered.opened c hc).1 shared name v).scopes
  | opened => exact ⟨_, hcurrent, Arena.spares_pushScope hexact hhere, fun _ => hm'.sound.here⟩
  | @closed c scope rest hpending hpop =>
      obtain ⟨below, hstack⟩ := Arena.stack_of_popFault? hpop
      have hlt := hexact.scope_lt c scope (hstack ▸ List.mem_cons_self)
      have hc : c = m.state.activation.context := by
        have hstacked := hordered.stacked
        rw [hpending] at hstacked
        cases hstacked
        rfl
      subst hc
      exact ⟨_, hcurrent, Arena.spares_dropScope (k := {}) hm'.sound.exact hhere hlt,
        fun _ => hm'.sound.here⟩
  | called hf henter =>
      obtain ⟨base, hadds⟩ := openCall_adds hm.sound hf henter
      exact hkept (.of_adds hexact (fun _ => hm.sound.held_inUse) hadds)
  | began unit name hpending => exact hkept hrefl
  | ended hpending => exact hkept hrefl
  | @returned c rest scopes hpending hopen hroot hhere' hrelease =>
      obtain ⟨base, hstack⟩ := Arena.stack_of_releaseContext hrelease
      obtain ⟨b, hb, -, hsurvives⟩ := hm.sound.release hopen hstack hroot hhere'
      rw [hb] at hrelease
      cases hrelease
      refine ⟨c, ?_, hsurvives.spares (k := {}) hm'.sound.exact, fun hc => ?_⟩
      · rw [contexts_of_pending hpending]
        exact List.mem_cons_of_mem _ List.mem_cons_self
      · have hstacked := hordered.stacked
        rw [hpending] at hstacked
        cases hstacked with
        | call hd _ => exact absurd hc hd
  | entered hstep =>
      obtain ⟨s', source, parent, loads, hnew, -, heq⟩ := hstep.begins
      rw [heq] at hkept ⊢
      exact hkept (openModule_opens loads hm hnew).1
  | completed hpending _ => exact hkept hrefl
  | failed trace hpending => exact hkept hrefl

theorem Turn.opened_contexts (h : m.Turn m') (hm : m.Fit) (hm' : m'.Fit) (hordered : m.Ordered) :
    ∀ c ∈ m'.contexts, m'.state.scopes.Open c := by
  intro c hc
  obtain ⟨d, -, hspares, hd⟩ := h.spares hm hm' hordered
  rcases h.contexts hm hm' hc with hold | ⟨-, hnew⟩
  · by_cases he : c = d
    · subst he
      exact hd hc
    · exact hspares.opened c (hordered.opened c hold) he
  · exact hnew

/-- The modules that are being evaluated. -/
def busy (m : Moment) : List ModuleRef := m.running.map Running.ref

/-- A turn changes the exports of modules that are being evaluated only. -/
theorem Turn.retains (h : m.Turn m') (hm : m.Fit) :
    m.state.memory.Retains m.busy m'.state.memory := by
  rcases h.step.quiet_or_module with hquiet | hmodule
  · exact Memory.retains_of_modules hquiet.modules
  · cases hmodule with
    | @imported p source parent r s _ _ _ hnew =>
        obtain ⟨-, -, -, d, hmemory⟩ := openModule_opens _ hm hnew
        show m.state.memory.Retains m.busy s.memory
        rw [hmemory]
        exact m.state.memory.retains_newModule d
    | @evaluated p source parent r s _ hnew =>
        obtain ⟨-, -, -, d, hmemory⟩ := openModule_opens m.state.loads hm hnew
        show m.state.memory.Retains m.busy s.memory
        rw [hmemory]
        exact m.state.memory.retains_newModule d
    | @completed x rest exports hpending =>
        refine m.state.memory.retains_setExports ?_ exports
        rw [busy, running, hpending]
        exact List.mem_cons_self
    | failed trace hpending => exact Memory.retains_of_modules rfl

theorem Turn.stacked (h : m.Turn m') (hm : m.Fit) (hordered : m.Ordered) :
    Stacked m'.state.memory m'.state.activation.context m'.pending := by
  have hstacked := hordered.stacked
  have hretains := h.retains hm
  -- the same code goes on, with the same work waiting
  have hsame : ∀ {s : State}, s.activation = m.state.activation →
      m.state.memory.Retains m.busy s.memory → Stacked s.memory s.activation.context m.pending :=
    fun {s} hactivation hkl => by
      rw [hactivation]
      exact hstacked.mono hkl
  cases h with
  | worked hworks => exact hsame hworks.activation hretains
  | collected hcollects => exact hsame hcollects.trims.activation hretains
  | captured decl returns _ => exact hstacked.mono hretains
  | assigned name v => exact hsame (activation_bindAt _ _ _) hretains
  | bound shared name v _ _ _ => exact hsame (activation_bindNew _ shared name v m.state) hretains
  | opened => exact .block _ (hstacked.mono hretains)
  | closed hpending _ =>
      rw [hpending] at hstacked
      cases hstacked with
      | block _ hrest => exact hrest.mono hretains
  | @called r f c s hf henter =>
      obtain ⟨base, hadds⟩ := openCall_adds hm.sound hf henter
      obtain ⟨-, hs⟩ := openCall_eq_ok henter
      have hhere : s.activation = m.state.activation := by rw [hs]
      show Stacked s.memory s.activation.context (.call c :: m.pending)
      rw [hhere]
      refine .call (fun hc => ?_) (hstacked.mono hretains)
      exact hadds.fresh (hordered.opened _ hc).1
  | began unit name hpending =>
      rw [hpending] at hstacked
      show Stacked _ _ (.body m.state.activation m.state.depth :: m.pending)
      rw [hpending]
      exact .body _ (hstacked.mono hretains)
  | ended hpending =>
      rw [hpending] at hstacked
      cases hstacked with
      | body _ hrest => exact hrest.mono hretains
  | returned hpending _ _ _ _ =>
      rw [hpending] at hstacked
      cases hstacked with
      | call _ hrest => exact hrest.mono hretains
  | @entered s x hstep =>
      obtain ⟨s', source, parent, loads, hnew, hcaller, heq⟩ := hstep.begins
      rw [heq] at hretains ⊢
      obtain ⟨-, href, hfresh, d, hmemory⟩ := openModule_opens loads hm hnew
      refine .module rfl ?_ (fun hc => ?_) (fun hx => ?_) ?_
      · show x.ref.index < s'.memory.modules.size
        rw [hmemory, href]
        simp [Memory.newModule]
      · rw [hcaller] at hc
        exact hfresh (hordered.opened _ hc).1
      · obtain ⟨y, hy, he⟩ := List.mem_map.mp hx
        have hlt := hstacked.index_lt hy
        rw [he, href] at hlt
        exact Nat.lt_irrefl _ hlt
      · rw [hcaller]
        exact hstacked.mono hretains
  | completed hpending _ =>
      rw [hpending] at hstacked
      cases hstacked with
      | module _ _ _ _ hrest => exact hrest.mono hretains
  | failed trace hpending =>
      rw [hpending] at hstacked
      cases hstacked with
      | module _ _ _ _ hrest => exact hrest.mono hretains

theorem Turn.ordered (h : m.Turn m') (hm : m.Fit) (hm' : m'.Fit) (hordered : m.Ordered) :
    m'.Ordered :=
  ⟨h.opened_contexts hm hm' hordered, h.stacked hm hordered⟩

theorem Turns.ordered (h : m.Turns m') (hordered : m.Ordered) : m'.Ordered := by
  induction h with
  | refl _ => exact hordered
  | step hturns hturn hm' ih => exact hturn.ordered hturns.last hm' ih

/-! ### Modules that rest -/

/-- A module that is not being evaluated, and whose context is none of the code. -/
structure Rests (m : Moment) (r : ModuleRef) : Prop where
  index_lt : r.index < m.state.memory.modules.size
  idle : r ∉ m.busy
  opened : m.state.scopes.Open (m.state.memory.moduleInfo r).context
  apart : (m.state.memory.moduleInfo r).context ∉ m.contexts

/-- A module is as it was: with the same bindings at its top level, and the same exports. -/
structure Same (r : ModuleRef) (m m' : Moment) : Prop where
  bindings : m'.state.bindings r = m.state.bindings r
  exports : (m'.state.memory.moduleInfo r).exports = (m.state.memory.moduleInfo r).exports

/-- A module that is evaluated after a turn was so before, or is new. -/
theorem Turn.busy (h : m.Turn m') (hm : m.Fit) (hr : r ∈ m'.busy) :
    r ∈ m.busy ∨ r = ⟨m.state.memory.modules.size⟩ := by
  rcases h.step.quiet_or_module with hquiet | hmodule
  · rw [Moment.busy, hquiet.running] at hr
    exact .inl hr
  · cases hmodule with
    | imported _ _ _ hnew =>
        rcases List.mem_cons.mp hr with rfl | hr
        · exact .inr (openModule_opens _ hm hnew).2.1
        · exact .inl hr
    | evaluated _ hnew =>
        rcases List.mem_cons.mp hr with rfl | hr
        · exact .inr (openModule_opens m.state.loads hm hnew).2.1
        · exact .inl hr
    | completed exports hpending =>
        left
        rw [Moment.busy, running, hpending]
        exact List.mem_cons_of_mem _ hr
    | failed trace hpending =>
        left
        rw [Moment.busy, running, hpending]
        exact List.mem_cons_of_mem _ hr

theorem Turn.rests (h : m.Turn m') (hm : m.Fit) (hm' : m'.Fit) (hordered : m.Ordered)
    (hr : m.Rests r) : m'.Rests r ∧ Same r m m' := by
  obtain ⟨c, hc, hspares, -⟩ := h.spares hm hm' hordered
  have hretains := h.retains hm
  have hcontext := hretains.context r hr.index_lt
  have hne : (m.state.memory.moduleInfo r).context ≠ c := by
    rintro rfl
    exact hr.apart hc
  refine ⟨⟨Nat.lt_of_lt_of_le hr.index_lt hretains.size_le, fun hbusy => ?_, ?_, fun hin => ?_⟩,
    ?_, hretains.exports r hr.index_lt hr.idle⟩
  · rcases h.busy hm hbusy with hold | rfl
    · exact hr.idle hold
    · exact Nat.lt_irrefl _ hr.index_lt
  · rw [hcontext]
    exact hspares.opened _ hr.opened hne
  · rw [hcontext] at hin
    rcases h.contexts hm hm' hin with hold | ⟨hfresh, -⟩
    · exact hr.apart hold
    · exact hfresh hr.opened.1
  · unfold State.bindings
    rw [hcontext]
    exact hspares.baseBindings hr.opened hne

theorem Turns.rests (h : m.Turns m') (hordered : m.Ordered) (hr : m.Rests r) :
    m'.Rests r ∧ Same r m m' := by
  induction h with
  | refl _ => exact ⟨hr, rfl, rfl⟩
  | step hturns hturn hm' ih =>
      obtain ⟨hrests, hsame⟩ := ih
      obtain ⟨hrests', hsame'⟩ :=
        hturn.rests hturns.last hm' (hturns.ordered hordered) hrests
      exact ⟨hrests', hsame'.bindings.trans hsame.bindings, hsame'.exports.trans hsame.exports⟩

end Moment

end Classlet
