import Classlet.Proofs.Run.Adequacy

/-! # Variables keep their class

A scope is held as long as it is on the stack of a context or captured by a function that is not
gone, or around such a scope (`Moment.Holds`).  No step but an assignment, and the binding of a name
that its scope does not have, changes a variable of a scope that is held before and after it
(`Step.values`).  An assignment rebinds a name only to a value of the class of the old one.  So a
variable that is not `nil` stays bound, to values of one class, for as long as its scope is held. -/

namespace Classlet

open Eval

/-! ### Values of the same class -/

namespace Value

theorem sameClass_refl (v : Value) : v.sameClass v := by
  cases v <;> simp [sameClass, isFunction]

theorem sameClass_trans {u v w : Value} (h₁ : u.sameClass v) (h₂ : v.sameClass w) :
    u.sameClass w := by
  cases u <;> cases v <;> simp [sameClass, isFunction] at h₁ <;>
    cases w <;> simp_all [sameClass, isFunction]

theorem isNil_of_sameClass {v w : Value} (h : v.sameClass w) : w.isNil = v.isNil := by
  cases v <;> cases w <;> simp_all [sameClass, isFunction, isNil]

end Value

theorem Memory.sameClass_copyAt : ∀ (fuel : Nat) (k : Memory) (v : Value),
    v.sameClass (copyAt fuel k v).1
  | 0, _, v => v.sameClass_refl
  | fuel + 1, k, v => by
      cases v
      case «instance» i =>
        rw [copyAt]
        split
        · exact Value.sameClass_refl (.instance i)
        · exact Value.sameClass_refl (.instance i)
      all_goals exact Value.sameClass_refl _

theorem Memory.sameClass_copyForBinding (k : Memory) (v : Value) :
    v.sameClass (k.copyForBinding v).1 := by
  unfold copyForBinding
  split
  · exact sameClass_copyAt _ k v
  · exact v.sameClass_refl

/-! ### Innermost scopes -/

namespace Arena

variable {α : Type} {a b : Arena α} {c : ContextId} {s : ScopeId}

theorem stack_of_popFault? (h : a.popFault? c s = none) :
    ∃ rest, (a.context c).scopes = s :: rest := by
  unfold popFault? at h
  split at h
  · cases h
  · rename_i top rest hstack
    split at h
    · rename_i he
      exact ⟨rest, he ▸ hstack⟩
    · cases h

/-- A context that is given up had its base left. -/
theorem stack_of_releaseContext {closure? : α → Option ContextId}
    (h : a.releaseContext c closure? = .ok b) :
    ∃ base, (a.context c).scopes = [base] := by
  unfold releaseContext at h
  dsimp only at h
  split at h
  · rename_i base hstack
    exact ⟨base, hstack⟩
  · cases h

/-! ### Frames -/

variable {held : List ContextId}

/-- A scope of a context that can be got at. -/
def Holds (a : Arena α) (held : List ContextId) (s : ScopeId) : Prop :=
  ∃ c, a.Kept held c ∧ s ∈ (a.context c).scopes

theorem Adds.values_cases {x : Context} {news : List ScopeId} (hadds : a.Adds b c x news)
    (hs : b.FrameInUse s) : (a.FrameInUse s ∧ (b.frame s).values = (a.frame s).values) ∨
      ((b.frame s).values = [] ∧ ¬ a.FrameInUse s) := by
  by_cases hnew : s ∈ news
  · exact .inr ⟨hadds.values_new s hnew, hadds.frame_fresh s hnew⟩
  · have hold := ((hadds.frameInUse s).mp hs).resolve_left hnew
    exact .inl ⟨hold, hadds.values_old s hnew⟩

theorem pushScope_values_cases {k : Holdings} (h : a.Exact k)
    (hs : (a.pushScope c).2.FrameInUse s) :
    (a.FrameInUse s ∧ ((a.pushScope c).2.frame s).values = (a.frame s).values) ∨
      (((a.pushScope c).2.frame s).values = [] ∧ ¬ a.FrameInUse s) := by
  by_cases hnew : s = (a.pushScope c).1
  · refine .inr ⟨?_, hnew ▸ pushScope_fresh⟩
    rw [frame_pushScope h, if_pos hnew]
  · refine .inl ⟨?_, ?_⟩
    · rw [pushScope_eq] at hs hnew
      exact ((h.orderly.frameInUse_allocFrame s).mp hs).resolve_left hnew
    · rw [frame_pushScope h, if_neg hnew]

/-- The frame of a scope has the variables that it had, or it is empty: then it is new, or cannot be
got at. -/
def FrameStays (held : List ContextId) (a b : Arena α) (s : ScopeId) : Prop :=
  (a.FrameInUse s ∧ (b.frame s).values = (a.frame s).values) ∨
    ((b.frame s).values = [] ∧ (a.FrameInUse s → ¬ b.Holds held s))

namespace FrameStays

theorem of_values (hs : a.FrameInUse s) (hvalues : (b.frame s).values = (a.frame s).values) :
    FrameStays held a b s :=
  .inl ⟨hs, hvalues⟩

theorem of_fresh (h : (a.FrameInUse s ∧ (b.frame s).values = (a.frame s).values) ∨
    ((b.frame s).values = [] ∧ ¬ a.FrameInUse s)) : FrameStays held a b s :=
  h.imp_right fun ⟨hempty, hnew⟩ => ⟨hempty, fun hold => absurd hold hnew⟩

/-- A frame that is emptied is mentioned by dropped closures only. -/
theorem of_survives {k : Holdings} {ms : List ContextId} {closure? : α → Option ContextId}
    (h : a.FrameInUse s ∧ FrameSurvives closure? a b s)
    (hb : b.Exact { k with mentions := ms ++ b.dropped }) (hheld : ∀ d ∈ held, d ∈ ms) :
    FrameStays held a b s := by
  obtain ⟨hold, hvalues | ⟨hempty, -, hdoomed⟩⟩ := h
  · exact .inl ⟨hold, hvalues⟩
  · exact .inr ⟨hempty, fun _ ⟨_, hkept, hmem⟩ => hkept.not_doomed hb hheld hmem hdoomed⟩

end FrameStays

end Arena

/-- What can be got at when things have been given up is a context that could be got at before. -/
theorem State.Sheds.kept_before {s s' : State} (h : s.Sheds s') {c : ContextId}
    (hc : s'.scopes.Kept s'.held c) : s.scopes.Kept s'.held c := by
  have hin : ∀ {d}, s'.scopes.Kept s'.held d → s'.scopes.InUse d := fun hd =>
    hd.inUse h.sound.exact fun _ => h.sound.held_inUse
  induction hc with
  | opened hc => exact .opened ⟨h.inUse _ hc.1, (h.context _ hc.1).captured.symm.trans hc.2⟩
  | held hc => exact .held hc
  | parent hc hp ih => exact .parent ih ((h.context _ (hin hc)).parent.symm.trans hp)

theorem State.Sheds.frameStays {s s' : State} (h : s.Sheds s') {scope : ScopeId}
    (hin : s'.scopes.FrameInUse scope) :
    Arena.FrameStays s'.held s.scopes s'.scopes scope := by
  obtain ⟨hold, hvalues⟩ := h.frame scope hin
  by_cases hkept : s'.scopes.Holds s'.held scope
  · obtain ⟨c, hc, hmem⟩ := hkept
    have hc' := h.kept_before hc
    rw [(h.scopes.context c hc').scopes] at hmem
    exact .inl ⟨hold, h.scopes.values c hc' scope hmem List.not_mem_nil⟩
  · exact hvalues.imp (⟨hold, ·⟩) (⟨·, fun _ => hkept⟩)

namespace Moment

variable {m m' : Moment} {scope : ScopeId} {name : String} {v : Value}

/-- A scope is on the stack of a context, captured by a function that is not gone, or a scope around
these. -/
def Holds (m : Moment) (scope : ScopeId) : Prop := m.state.scopes.Holds m.state.held scope

/-- The value of a variable of a scope. -/
def value? (m : Moment) (scope : ScopeId) (name : String) : Option Value :=
  (m.state.scopes.frame scope).values.get? name

theorem Holds.frameInUse (h : m.Holds scope) (hm : m.Fit) :
    m.state.scopes.FrameInUse scope := by
  obtain ⟨c, -, hmem⟩ := h
  exact hm.sound.exact.scope_inUse hmem

/-! ### Steps that bind no variable -/

/-- A new module opens a context, and does nothing else to scopes. -/
theorem adds_openModule {p : Path} {source : Option String} {parent : Option ModuleRef}
    {r : ModuleRef} {s : State} (loads : Array Path) (hm : m.Fit)
    (hnew : openModule p source parent { m.state with loads := loads } = (.ok r, s)) :
    ∃ c x base, m.state.scopes.Adds s.scopes c x [base] := by
  obtain ⟨-, base, hadds⟩ :=
    Arena.openContext_spec hm.sound.exact (some m.state.root) fun q hq => by
      cases hq
      exact hm.sound.root.1
  have hscopes : s.scopes = (m.state.scopes.openContext (some m.state.root)).2 :=
    (congrArg (fun r => r.2.scopes) hnew).symm
  rw [hscopes]
  exact ⟨_, _, base, hadds⟩

/-- No step but an assignment or a new binding changes a variable of a frame that stays in use, but
for those that nobody can get at. -/
theorem Step.frames (h : m.Step m') (hm : m.Fit) (hm' : m'.Fit)
    (hin : m'.state.scopes.FrameInUse scope) :
    Arena.FrameStays m'.state.held m.state.scopes m'.state.scopes scope ∨
      (∃ name v, m' = m.withState (assign m.state.activation.context name v m.state).2) ∨
      ∃ c shared name v, m' = m.withState (bindNew c shared name v m.state).2 ∧
        (∀ r, m.state.scopes.innermost c = .ok r →
          (m.state.scopes.frame r).values.get? name = none) ∧
        (shared → ∃ rest, m.pending = .call c :: rest) := by
  cases h with
  | @worked s hworks =>
      refine .inl (.of_values ?_ (congrArg (fun a => (a.frame scope).values) hworks.scopes))
      exact hworks.scopes ▸ (hin : s.scopes.FrameInUse scope)
  | collected hcollects => exact .inl ((hcollects.sheds hm.sound).frameStays hin)
  | captured decl returns _ =>
      exact .inl (.of_fresh ((Arena.freeze_spec hm.sound.exact _).2.values_cases hin))
  | assigned name v => exact .inr (.inl ⟨name, v, rfl⟩)
  | bound c shared name v hnew hcall => exact .inr (.inr ⟨c, shared, name, v, rfl, hnew, hcall⟩)
  | opened => exact .inl (.of_fresh (Arena.pushScope_values_cases hm.sound.exact hin))
  | closed hpending hpop =>
      obtain ⟨rest, hstack⟩ := Arena.stack_of_popFault? hpop
      have hlt := hm.sound.exact.scope_lt _ _ (hstack ▸ List.mem_cons_self)
      exact .inl (.of_survives (k := {}) (Arena.frame_dropScope hlt hm'.sound.exact hin)
        hm'.sound.exact fun _ hd => hd)
  | called hf henter =>
      obtain ⟨base, hadds⟩ := openCall_adds hm.sound hf henter
      exact .inl (.of_fresh (hadds.values_cases hin))
  | began unit name hpending => exact .inl (.of_values hin rfl)
  | ended hpending => exact .inl (.of_values hin rfl)
  | returned hpending hopen hroot hhere hrelease =>
      obtain ⟨base, hstack⟩ := Arena.stack_of_releaseContext hrelease
      obtain ⟨b, hb, -, hsurvives⟩ := hm.sound.release hopen hstack hroot hhere
      rw [hb] at hrelease
      cases hrelease
      exact .inl (.of_survives (k := {}) (hsurvives.frame scope hin) hm'.sound.exact
        fun _ hd => hd)
  | module hstep =>
      left
      cases hstep with
      | imported _ _ _ hnew =>
          obtain ⟨c, x, base, hadds⟩ := adds_openModule _ hm hnew
          exact .of_fresh (hadds.values_cases hin)
      | evaluated _ hnew =>
          obtain ⟨c, x, base, hadds⟩ := adds_openModule m.state.loads hm hnew
          exact .of_fresh (hadds.values_cases hin)
      | completed exports hpending => exact .of_values hin rfl
      | failed trace hpending => exact .of_values hin rfl

/-- No step but an assignment or a new binding changes a variable of a scope that stays held. -/
theorem Step.values (h : m.Step m') (hm : m.Fit) (hm' : m'.Fit) (hscope : m.Holds scope)
    (hscope' : m'.Holds scope) :
    (m'.state.scopes.frame scope).values = (m.state.scopes.frame scope).values ∨
      (∃ name v, m' = m.withState (assign m.state.activation.context name v m.state).2) ∨
      ∃ c shared name v, m' = m.withState (bindNew c shared name v m.state).2 ∧
        ∀ r, m.state.scopes.innermost c = .ok r →
          (m.state.scopes.frame r).values.get? name = none := by
  rcases h.frames hm hm' (hscope'.frameInUse hm') with
    (⟨-, hvalues⟩ | ⟨-, hlost⟩) | hassigned | ⟨c, shared, name, v, rfl, hnew, -⟩
  · exact .inl hvalues
  · exact absurd hscope' (hlost (hscope.frameInUse hm))
  · exact .inr (.inl hassigned)
  · exact .inr (.inr ⟨c, shared, name, v, rfl, hnew⟩)

/-! ### Steps that bind a variable -/

/-- An assignment to a variable that is not `nil` has a value of its class. -/
theorem sameClass_of_place {t : Store} {c : ContextId} {w : Value}
    (hplace : t.place c name w = .ok scope)
    (hv : (t.scopes.frame scope).values.get? name = some v) (hnil : v.isNil = false) :
    v.sameClass w := by
  unfold Store.place at hplace
  split at hplace
  · cases hplace
  · cases hbinder : t.scopes.binder? (t.scopes.context c).scopes name with
    | some r =>
        rw [hbinder] at hplace
        dsimp only at hplace
        split at hplace
        · cases hplace
        · rename_i hclass
          cases hplace
          rw [hv, Option.getD_some, hnil] at hclass
          simpa using hclass
    | none =>
        -- no scope of the context binds the name, and the innermost one does
        rw [hbinder] at hplace
        have hmem := Arena.mem_of_innermost (Store.innermost_of_newPlace hplace)
        have hunbound := List.find?_eq_none.mp hbinder scope hmem
        simp [Bindings.has, hv] at hunbound

theorem value?_assign (hm : m.Fit) (hv : m.value? scope name = some v) (hnil : v.isNil = false)
    (other : String) (w : Value) :
    ∃ u, (m.withState (assign m.state.activation.context other w m.state).2).value? scope name =
      some u ∧ v.sameClass u := by
  rcases bindAt_cases (fun t => t.place m.state.activation.context other w)
    (fun t r => t.bindCopy r other w) m.state with hsame | ⟨r, hplace, hbind⟩
  · refine ⟨v, ?_, v.sameClass_refl⟩
    rw [← hv]
    exact congrArg (fun s => (s.scopes.frame scope).values.get? name) hsame
  · have hmem := (Store.place_spec (hm.sound.stack_ne _ hm.sound.here.1)).1 r hplace
    have hlt := hm.sound.exact.scope_lt _ r hmem
    have hvalue : (m.withState (assign m.state.activation.context other w m.state).2).value?
        scope name = ((m.state.scopes.bind r other (m.state.memory.copyForBinding w).1).frame
          scope).values.get? name :=
      congrArg (fun s => (s.scopes.frame scope).values.get? name) hbind
    rw [hvalue, Arena.values_bind hlt]
    by_cases hscope : scope = r
    · subst hscope
      rw [if_pos rfl]
      by_cases hname : other = name
      · subst hname
        have hclass := sameClass_of_place hplace hv hnil
        exact ⟨_, Bindings.get?_insert_self _ _ _,
          Value.sameClass_trans hclass (m.state.memory.sameClass_copyForBinding w)⟩
      · rw [Bindings.get?_insert_of_ne _ _ hname]
        exact ⟨v, hv, v.sameClass_refl⟩
    · rw [if_neg hscope]
      exact ⟨v, hv, v.sameClass_refl⟩

/-- A name that its scope does not have is none of the variables that there were. -/
theorem value?_bindNew (hm : m.Fit) (hv : m.value? scope name = some v) {c : ContextId}
    {other : String} (shared : Bool) (w : Value)
    (hnew : ∀ r, m.state.scopes.innermost c = .ok r →
      (m.state.scopes.frame r).values.get? other = none) :
    (m.withState (bindNew c shared other w m.state).2).value? scope name = some v := by
  unfold value? withState
  dsimp only
  rcases scopes_bindNew c shared other w m.state with hsame | ⟨r, u, hr, hbind⟩
  · rw [hsame]
    exact hv
  · have hlt := hm.sound.exact.scope_lt _ r (Arena.mem_of_innermost hr)
    rw [hbind, Arena.values_bind hlt]
    split
    · rename_i hscope
      have hne : other ≠ name := by
        rintro rfl
        have hnone := hnew r hr
        rw [← hscope] at hnone
        cases hv.symm.trans hnone
      rw [Bindings.get?_insert_of_ne _ _ hne, ← hscope]
      exact hv
    · exact hv

/-- **One step keeps the class of a variable** whose scope stays held. -/
theorem Step.sameClass (h : m.Step m') (hm : m.Fit) (hm' : m'.Fit) (hscope : m.Holds scope)
    (hscope' : m'.Holds scope) (hv : m.value? scope name = some v) (hnil : v.isNil = false) :
    ∃ w, m'.value? scope name = some w ∧ v.sameClass w := by
  rcases h.values hm hm' hscope hscope' with
    hvalues | ⟨other, w, rfl⟩ | ⟨c, shared, other, w, rfl, hnew⟩
  · refine ⟨v, ?_, v.sameClass_refl⟩
    rw [value?, hvalues]
    exact hv
  · exact value?_assign hm hv hnil other w
  · exact ⟨v, value?_bindNew hm hv shared w hnew, v.sameClass_refl⟩

/-! ### Runs -/

/-- A variable keeps its class along a trail on which its scope is held. -/
theorem Trail.sameClass (h : Trail (fun m => m.Fit ∧ m.Holds scope) m m')
    (hv : m.value? scope name = some v) (hnil : v.isNil = false) :
    ∃ w, m'.value? scope name = some w ∧ v.sameClass w := by
  induction h with
  | refl _ => exact ⟨v, hv, v.sameClass_refl⟩
  | step htrail hstep hlast ih =>
      obtain ⟨w, hw, hclass⟩ := ih
      obtain ⟨hm, hscope⟩ := htrail.last
      have hwnil := (Value.isNil_of_sameClass hclass).trans hnil
      obtain ⟨u, hu, hclass'⟩ := hstep.sameClass hm hlast.1 hscope hlast.2 hw hwnil
      exact ⟨u, hu, Value.sameClass_trans hclass hclass'⟩

/-- A scope is held along all of a trail, or up to a step that gives it up. -/
theorem Trail.holds (h : m.Leads m') (hscope : m.Holds scope) :
    Trail (fun m => m.Fit ∧ m.Holds scope) m m' ∨
      ∃ k k', Trail (fun m => m.Fit ∧ m.Holds scope) m k ∧ k.Step k' ∧ ¬ k'.Holds scope ∧
        k'.Leads m' := by
  induction h with
  | refl hm => exact .inl (.refl ⟨hm, hscope⟩)
  | @step m₁ m₂ _ hstep hlast ih =>
      rcases ih with hheld | ⟨k, k', hheld, hlost, hnot, hlater⟩
      · by_cases hscope' : m₂.Holds scope
        · exact .inl (hheld.step hstep ⟨hlast, hscope'⟩)
        · exact .inr ⟨m₁, m₂, hheld, hstep, hscope', .refl hlast⟩
      · exact .inr ⟨k, k', hheld, hlost, hnot, hlater.step hstep hlast⟩

/-- **Variables are type-stable.**  Take any moment of a run at which a name is bound in a scope to
something else than `nil`.  Whatever is run next takes steps; the scope is held through all of them,
or up to one that gives it up; and as long as it is held, the name is bound in it to a value of the
same class. -/
theorem variables_keep_class (h : start.Leads m) (hscope : m.Holds scope)
    (hv : m.value? scope name = some v) (hnil : v.isNil = false) :
    (∀ (settings : Settings) (loader : Loader) (fuel : Nat) (task : Task), task.Allowed m →
      ∃ hosted, m.Leads
        { m with state := (task.run (engine settings loader fuel) m.state).2, hosted := hosted }) ∧
    (∀ m', m.Leads m' → Trail (fun m => m.Fit ∧ m.Holds scope) m m' ∨
      ∃ k k', Trail (fun m => m.Fit ∧ m.Holds scope) m k ∧ k.Step k' ∧ ¬ k'.Holds scope ∧
        k'.Leads m') ∧
    ∀ m', Trail (fun m => m.Fit ∧ m.Holds scope) m m' →
      ∃ w, m'.value? scope name = some w ∧ v.sameClass w :=
  ⟨fun settings loader fuel task => task.leads settings loader fuel h.last,
    fun _ hleads => hleads.holds hscope, fun _ htrail => htrail.sameClass hv hnil⟩

/-- A global variable that is assigned twice. -/
theorem variables_keep_class_assigned_twice : ∃ m m' : Moment, start.Leads m ∧
    Trail (fun m => m.Fit ∧ m.Holds ⟨0⟩) m m' ∧
      ∃ v w, m.value? ⟨0⟩ "x" = some v ∧ m'.value? ⟨0⟩ "x" = some w ∧ v.sameClass w := by
  let m := start.after (context >>= fun c => assign c "x" (.int 1))
  let m' := m.after (context >>= fun c => assign c "x" (.int 2))
  have hm := traced_assign "x" (.int 1) start fit_start
  have hm' := traced_assign "x" (.int 2) m hm.last
  have hstep : ∀ k : Moment, k.Step (k.after (context >>= fun c => assign c "x" (.int 2))) :=
    fun _ => .assigned "x" (.int 2)
  obtain ⟨⟨hin, hmem⟩, ⟨hin', hmem'⟩, hbound⟩ :
      ((m.state.scopes.InUse ⟨0⟩ ∧ (m.state.scopes.context ⟨0⟩).captured = false) ∧
        ⟨0⟩ ∈ (m.state.scopes.context ⟨0⟩).scopes) ∧
      ((m'.state.scopes.InUse ⟨0⟩ ∧ (m'.state.scopes.context ⟨0⟩).captured = false) ∧
        ⟨0⟩ ∈ (m'.state.scopes.context ⟨0⟩).scopes) ∧
      (m.value? ⟨0⟩ "x").map Value.isNil = some false := by decide +kernel
  have hheld : m.Holds ⟨0⟩ := ⟨⟨0⟩, .opened hin, hmem⟩
  have htrail : Trail (fun m => m.Fit ∧ m.Holds ⟨0⟩) m m' :=
    .step (.refl ⟨hm.last, hheld⟩) (hstep m) ⟨hm'.last, ⟨0⟩, .opened hin', hmem'⟩
  obtain ⟨v, hv, hnil⟩ := Option.map_eq_some_iff.mp hbound
  obtain ⟨w, hw, hclass⟩ := (variables_keep_class hm hheld hv hnil).2.2 m' htrail
  exact ⟨m, m', hm, htrail, v, w, hv, hw, hclass⟩

end Moment

end Classlet
