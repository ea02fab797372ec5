import Classlet.Proofs.Memory.Exports
import Classlet.Proofs.Run.Contexts

/-! # Exports stay fresh

A module gets its exports when its evaluation ends, from the bindings that its top level has then
(`Moment.Ends`).  From then on the module rests: its context is none of the code that runs or
waits, so that nothing binds a name there (`Moment.Turns.rests`).  Every module that is kept has
come to such an end (`Moment.Turns.ended`), and every module that the host or an import statement
gets is kept (`HostCall.kept`).  So exports are at all times what the top level of the module binds
to the names that it exports (`Moment.exports_stay_fresh`). -/

namespace Classlet

open Eval

namespace Moment

variable {m m' : Moment} {r : ModuleRef}

/-! ### Names are bound once -/

/-- No scope binds a name twice. -/
def Distinct (m : Moment) : Prop :=
  ∀ scope, m.state.scopes.FrameInUse scope → (m.state.scopes.frame scope).values.Distinct

theorem distinct_start : start.Distinct := by
  have hsize : State.initial.scopes.frames.size = 1 := by decide +kernel
  have hnames : ((State.initial.scopes.frame ⟨0⟩).values.map (·.1)).Nodup := by decide +kernel
  intro scope hin
  have hlt : scope.index < State.initial.scopes.frames.size := hin.1
  obtain ⟨i⟩ := scope
  obtain rfl : i = 0 := by
    rw [hsize] at hlt
    exact Nat.lt_one_iff.mp hlt
  exact hnames

/-- Binding a name in a scope keeps names distinct. -/
theorem Distinct.bind (h : m.Distinct) {s : State} {scope : ScopeId} {name : String} {v : Value}
    (hlt : scope.index < m.state.scopes.frames.size)
    (hs : s.scopes = m.state.scopes.bind scope name v) : (m.withState s).Distinct := by
  intro other hin
  show ((s.scopes.frame other).values).Distinct
  have hin' : s.scopes.FrameInUse other := hin
  rw [hs] at hin' ⊢
  rw [Arena.values_bind hlt]
  rw [Arena.frameInUse_bind] at hin'
  split
  · rename_i he
    subst he
    exact (h other hin').insert name v
  · exact h other hin'

theorem Distinct.of_scopes (h : m.Distinct) {s : State} (hs : s.scopes = m.state.scopes) :
    (m.withState s).Distinct := by
  intro scope hin
  have hin' : s.scopes.FrameInUse scope := hin
  show ((s.scopes.frame scope).values).Distinct
  rw [hs] at hin' ⊢
  exact h scope hin'

theorem Step.distinct (h : m.Step m') (hm : m.Fit) (hm' : m'.Fit) (hdistinct : m.Distinct) :
    m'.Distinct := by
  intro scope hin
  rcases h.frames hm hm' hin with
    (⟨hold, hvalues⟩ | ⟨hvalues, -⟩) | ⟨name, v, rfl⟩ | ⟨c, shared, name, v, rfl, -⟩
  · rw [hvalues]
    exact hdistinct scope hold
  · rw [hvalues]
    exact List.nodup_nil
  · rcases bindAt_cases (fun t => t.place m.state.activation.context name v)
      (fun t r => t.bindCopy r name v) m.state with hsame | ⟨r, hplace, hbind⟩
    · exact hdistinct.of_scopes (congrArg (fun s => s.scopes) hsame) scope hin
    · have hmem := (Store.place_spec (hm.sound.stack_ne _ hm.sound.here.1)).1 r hplace
      have hlt := hm.sound.exact.scope_lt _ r hmem
      exact hdistinct.bind hlt (congrArg (fun s => s.scopes) hbind) scope hin
  · rcases scopes_bindNew c shared name v m.state with hsame | ⟨top, w, htop, hbind⟩
    · exact hdistinct.of_scopes hsame scope hin
    · have hlt := hm.sound.exact.scope_lt c top (Arena.mem_of_innermost htop)
      exact hdistinct.bind hlt hbind scope hin

theorem Distinct.bindings (h : m.Distinct) (hm : m.Fit) (r : ModuleRef) :
    (m.state.bindings r).Distinct := by
  unfold State.bindings Arena.baseBindings
  cases hbase : (m.state.scopes.context _).scopes.getLast? with
  | none => exact List.nodup_nil
  | some base => exact h base (hm.sound.exact.scope_inUse (List.mem_of_getLast? hbase))

theorem Turns.distinct (h : m.Turns m') (hdistinct : m.Distinct) : m'.Distinct := by
  induction h with
  | refl _ => exact hdistinct
  | step hturns hturn hm' ih => exact hturn.step.distinct hturns.last hm' ih

/-! ### The end of an evaluation -/

/-- The evaluation of a module ends: the module gets the exports that its bindings call for, and is
kept. -/
inductive Ends (m : Moment) : ModuleRef → Moment → Prop where
  | completed {x : Running} {rest : List Pending} {exports : Bindings Value} :
      m.pending = .module x :: rest → m.state.exports x.ref = .ok exports →
      Ends m x.ref (m.finish x exports rest)

theorem Ends.turn (h : m.Ends r m') : m.Turn m' := by
  cases h with
  | completed hpending hexports => exact .completed hpending hexports

theorem Ends.rests (h : m.Ends r m') (hordered : m.Ordered) :
    m'.Rests r ∧ m'.state.bindings r = m.state.bindings r ∧
      m.state.exports r = .ok (m'.state.memory.moduleInfo r).exports := by
  cases h with
  | @completed x rest exports hpending hexports =>
      have hstacked := hordered.stacked
      rw [hpending] at hstacked
      cases hstacked with
      | module hcurrent hlt hfresh hother _ =>
          have hcontext := m.state.memory.context_setExports x.ref x.ref exports
          refine ⟨⟨?_, hother, ?_, ?_⟩, ?_, ?_⟩
          · exact Nat.lt_of_lt_of_le hlt (m.state.memory.continues_setExports x.ref exports).size_le
          · show m.state.scopes.Open ((m.state.memory.setExports x.ref exports).moduleInfo
              x.ref).context
            rw [hcontext, ← hcurrent]
            exact hordered.opened _ List.mem_cons_self
          · show ((m.state.memory.setExports x.ref exports).moduleInfo x.ref).context ∉ _
            rw [hcontext, ← hcurrent]
            exact hfresh
          · show m.state.scopes.baseBindings ((m.state.memory.setExports x.ref exports).moduleInfo
              x.ref).context = _
            rw [hcontext]
            rfl
          · show _ = Except.ok ((m.state.memory.setExports x.ref exports).moduleInfo x.ref).exports
            rw [m.state.memory.exports_setExports exports hlt, if_pos rfl]
            exact hexports

/-! ### Kept modules -/

theorem cache_bindAt (place : Store → Except BindFault ScopeId) (f : Store → ScopeId → Store)
    (s : State) : (bindAt place f s).2.cache = s.cache := by
  rcases bindAt_cases place f s with h | ⟨scope, -, h⟩
  · rw [h]
  · rw [h]

/-- A module that is kept after a turn was kept before it, or has come to its end. -/
theorem Turn.cache (h : m.Turn m') {p : Path} (hr : (p, r) ∈ m'.state.cache) :
    (p, r) ∈ m.state.cache ∨ m.Ends r m' := by
  cases h with
  | worked hworks => exact .inl (hworks.cache ▸ hr)
  | collected hcollects => exact .inl (hcollects.trims.cache ▸ hr)
  | captured decl returns _ => exact .inl hr
  | @assigned name v =>
      have hold : (p, r) ∈ (bindAt _ _ m.state).2.cache := hr
      rw [cache_bindAt] at hold
      exact .inl hold
  | @bound c shared name v _ _ _ =>
      have hcache : (bindNew c shared name v m.state).2.cache = m.state.cache := by
        unfold bindNew
        split
        · exact cache_bindAt _ _ m.state
        · exact cache_bindAt _ _ m.state
      exact .inl (hcache ▸ hr)
  | opened => exact .inl hr
  | closed hpending _ => exact .inl hr
  | called _ henter =>
      rw [(openCall_eq_ok henter).2] at hr
      exact .inl hr
  | began unit name hpending => exact .inl hr
  | ended hpending => exact .inl hr
  | returned hpending _ _ _ _ => exact .inl hr
  | entered hstep =>
      obtain ⟨s', source, parent, loads, hnew, -, heq⟩ := hstep.begins
      have hcache : s'.cache = m.state.cache := (congrArg (fun r => r.2.cache) hnew).symm
      rw [heq] at hr
      have hold : (p, r) ∈ s'.cache := hr
      rw [hcache] at hold
      exact .inl hold
  | @completed x rest exports hpending hexports =>
      rcases List.mem_cons.mp hr with he | hold
      · obtain rfl : r = x.ref := (Prod.mk.inj he).2
        exact .inr (.completed hpending hexports)
      · exact .inl (List.mem_of_mem_filter hold)
  | failed trace hpending => exact .inl hr

/-- Every module that is kept has come to its end. -/
theorem Turns.ended (h : start.Turns m) {p : Path} (hr : (p, r) ∈ m.state.cache) :
    ∃ e e' : Moment, start.Turns e ∧ e.Ends r e' ∧ e'.Turns m := by
  induction h with
  | refl _ => cases hr
  | step hturns hturn hm' ih =>
      rcases hturn.cache hr with hold | hends
      · obtain ⟨e, e', he, hends, hlater⟩ := ih hold
        exact ⟨e, e', he, hends, hlater.step hturn hm'⟩
      · exact ⟨_, _, hturns, hends, .refl hm'⟩

end Moment

/-! ### What is returned is kept -/

section kept
variable {e : Engine} {s s' : State} {r : ModuleRef}

theorem evaluateParsed_kept {p : Path} {source : Option String} {code : List Statement}
    {parent : Option ModuleRef} (h : evaluateParsed e p source code parent s = (.ok r, s')) :
    ∃ q, (q, r) ∈ s'.cache := by
  unfold evaluateParsed at h
  obtain ⟨r', s₁, -, h⟩ := of_bind_ok h
  obtain ⟨done, s₂, hkeep, h⟩ := of_bind_ok h
  cases h
  cases hkeep
  exact ⟨_, List.mem_cons_self⟩

theorem evaluateSource_kept {p : Path} {source : String} {parent : Option ModuleRef}
    (h : evaluateSource e p source parent s = (.ok r, s')) : ∃ q, (q, r) ∈ s'.cache := by
  unfold evaluateSource at h
  cases hparse : parse source with
  | ok code =>
      rw [hparse] at h
      exact evaluateParsed_kept h
  | error errors =>
      rw [hparse] at h
      cases h

theorem importModule_kept {target : ImportPath} {parent : Option ModuleRef}
    (h : importModule e target parent s = (.ok r, s')) : ∃ q, (q, r) ∈ s'.cache := by
  unfold importModule at h
  obtain ⟨p, s₁, hp, h⟩ := of_bind_ok h
  obtain rfl : s = s₁ := congrArg Prod.snd hp
  obtain ⟨found, s₂, hread, h⟩ := of_bind_ok h
  cases hread
  dsimp only at h
  cases hfound : s.cached? p with
  | some q =>
      rw [hfound] at h
      cases h
      obtain ⟨entry, hentry, he⟩ := Option.map_eq_some_iff.mp hfound
      have hmem := List.mem_of_find?_eq_some hentry
      exact ⟨entry.1, he ▸ hmem⟩
  | none =>
      rw [hfound] at h
      unfold importNew at h
      obtain ⟨cyclic, s₃, -, h⟩ := of_bind_ok h
      split at h
      · cases h
      · obtain ⟨source, s₄, -, h⟩ := of_bind_ok h
        exact evaluateSource_kept h

/-- A module that is returned is kept. -/
theorem HostCall.kept : ∀ {call : HostCall}, call.run e s = (.ok r, s') → ∃ q, (q, r) ∈ s'.cache
  | evaluate .., h => evaluateSource_kept h
  | evaluateParsed .., h => evaluateParsed_kept h
  | importModule .., h => importModule_kept h

end kept

/-! ### Exports -/

/-- What a module exports under a name. -/
def State.export? (s : State) (r : ModuleRef) (name : String) : Option Value :=
  (s.memory.moduleInfo r).exports.get? name

namespace Moment

variable {m m' e e' : Moment} {r : ModuleRef}

/-- The top level of a module is as it was when its evaluation ended, at the moment `e`, and the
module exports what its top level binds: everything if it binds no `exports`, and else the names
that were listed at the end. -/
structure Fresh (r : ModuleRef) (e m : Moment) : Prop where
  bindings : m.state.bindings r = e.state.bindings r
  all : (e.state.bindings r).get? exportsName = none →
    ∀ name, m.state.export? r name = (m.state.bindings r).get? name
  listed : ∀ v, (e.state.bindings r).get? exportsName = some v →
    ∃ entries, exportEntries e.state.memory v = .ok entries ∧ ∀ name,
      (.str name ∈ entries → ((m.state.bindings r).get? name).isSome ∧
        m.state.export? r name = (m.state.bindings r).get? name) ∧
      (.str name ∉ entries → m.state.export? r name = none)

/-- Exports are fresh from the end of an evaluation on. -/
theorem Ends.fresh (h : e.Ends r e') (he : start.Turns e) (hlater : e'.Turns m) :
    Fresh r e m := by
  have hordered := he.ordered ordered_start
  obtain ⟨hrests, hbindings, hexports⟩ := h.rests hordered
  have hordered' := h.turn.ordered he.last hlater.first hordered
  obtain ⟨-, hsame⟩ := hlater.rests hordered' hrests
  have hdistinct := (he.distinct distinct_start).bindings he.last r
  obtain ⟨hall, hlisted⟩ := computeExports_spec hdistinct hexports
  have hnow : m.state.bindings r = e.state.bindings r := hsame.bindings.trans hbindings
  refine ⟨hnow, fun hnone name => ?_, fun v hv => ?_⟩
  · rw [State.export?, hsame.exports, hnow, hall hnone]
  · obtain ⟨entries, hentries, hnames⟩ := hlisted v hv
    refine ⟨entries, hentries, fun name => ?_⟩
    rw [State.export?, hsame.exports, hnow]
    exact hnames name

/-- What the host asks for when nothing runs, and what the running code imports, takes turns. -/
theorem turns_hostCall (settings : Settings) (loader : Loader) (fuel : Nat) (hm : m.Fit)
    {call : HostCall} (hallowed : m.pending = [] ∨
      ∃ target, call = .importModule target m.state.activation.module) :
    ∃ hosted, m.Turns
      { m with state := (call.run (engine settings loader fuel) m.state).2, hosted := hosted } := by
  rcases hallowed with hidle | ⟨target, rfl⟩
  · exact call.turns settings loader fuel hm hidle
  · exact Task.turns settings loader fuel hm (.query (.importModule target _)) (.inr rfl)

/-- **Exports never go stale.**  Take any moment of what is done with an interpreter, and a module
that the host or the running code gets there.  The evaluation of the module has ended at a moment
`e` of the same run.  Whatever is done afterwards takes turns, and after any turns the module's top
level has the bindings that it had at `e`, and the exports of the module are these bindings, of all
names or of those that were listed at `e`. -/
theorem exports_stay_fresh {settings : Settings} {loader : Loader} {fuel : Nat} {call : HostCall}
    {s : State} (h : start.Turns m)
    (hallowed : m.pending = [] ∨ ∃ target, call = .importModule target m.state.activation.module)
    (hrun : call.run (engine settings loader fuel) m.state = (.ok r, s)) :
    ∃ (hosted : List Path) (e e' : Moment),
      m.Turns { m with state := s, hosted := hosted } ∧
      start.Turns e ∧ e.Ends r e' ∧ e'.Turns { m with state := s, hosted := hosted } ∧
      ∀ m', Turns { m with state := s, hosted := hosted } m' →
        (∀ (settings : Settings) (loader : Loader) (fuel : Nat) (task : Task), task.Allowed m' →
          ∃ hosted, m'.Turns { m' with
            state := (task.run (engine settings loader fuel) m'.state).2, hosted := hosted }) ∧
        Fresh r e m' := by
  obtain ⟨hosted, hturns⟩ := turns_hostCall settings loader fuel h.last hallowed
  rw [hrun] at hturns
  obtain ⟨q, hkept⟩ := HostCall.kept hrun
  obtain ⟨e, e', he, hends, hreturned⟩ := (h.trans hturns).ended hkept
  refine ⟨hosted, e, e', hturns, he, hends, hreturned, fun m' hlater => ⟨?_, ?_⟩⟩
  · exact fun settings loader fuel task => task.turns settings loader fuel hlater.last
  · exact hends.fresh he (hreturned.trans hlater)

/-- A module that lists one of its names. -/
theorem exports_stay_fresh_listed_name : ∃ (r : ModuleRef) (s : State) (e m : Moment),
    HostCall.run (engine {} (fun _ => .unknown) 3)
      (.evaluate ⟨"main"⟩ "x = 1; y = 2; exports = [\"x\"];" none) start.state = (.ok r, s) ∧
    m.state = s ∧ start.Turns m ∧ Fresh r e m := by
  have hok : (HostCall.run (engine {} (fun _ => .unknown) 3)
      (.evaluate ⟨"main"⟩ "x = 1; y = 2; exports = [\"x\"];" none) start.state).1.isOk = true := by
    decide +kernel
  obtain ⟨r, hrun⟩ := Outcome.exists_of_isOk hok
  obtain ⟨hosted, e, e', hturns, -, -, -, hlater⟩ :=
    exports_stay_fresh (.refl fit_start) (.inl rfl) hrun
  have hfresh := (hlater _ (.refl hturns.last)).2
  exact ⟨r, _, e, { start with state := _, hosted := hosted }, hrun, rfl, hturns, hfresh⟩

end Moment

end Classlet
