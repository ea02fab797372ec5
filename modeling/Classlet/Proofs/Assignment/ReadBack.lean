import Classlet.Proofs.Assignment.Operators
import Classlet.Proofs.Evaluator.Reached
import Classlet.Proofs.Run.Trace
import Mathlib.Data.List.Chain

/-! # Assignments are read back

An assignment to a place is not lost: reading the place afterwards gives the assigned value, or for
a struct value a copy that shows the same (`assignment_read_back`).  A variable needs no more.  The
way of a longer place has to be steady (`Steady`): the operators `[]` and `[]=` on it keep their
laws. A way without user code is steady if it goes through different elements and fields, or where
it goes through one twice, leads to the same value both times, which is no struct value (`Direct`).
A place can be assigned to where it has gone through before, and then the assignment can change
where it leads (`assignment_to_container_is_lost`). -/

namespace Classlet

open Eval

variable {e : Engine} {s t : State} {name : String} {v : Value} {x : Content}

/-! ### Variables -/

theorem lookup_of_evalExpr (h : e.evalExpr (.var name) s = (.ok v, t)) :
    s.toStore.lookup s.activation.context name = .ok v ∧ t = s := by
  rw [Engine.evalExpr] at h
  dsimp only at h
  split at h
  · rename_i w hw
    cases h
    exact ⟨hw, rfl⟩
  · cases h

/-- An assignment to one target assigns the value of the expression. -/
theorem assignment_single {target x : Expr} {s₀ : State} (hx : e.evalExpr x s₀ = (.ok v, s))
    (h : assignment e [target] [x] s₀ = (.ok (), t)) : assignTo e target v s = (.ok (), t) := by
  obtain ⟨vs, s₁, hvs, h⟩ := of_bind_ok h
  have hall : evalAll e [x] s₀ = (.ok [v], s) := by
    rw [evalAll, bind_apply, hx]
    rfl
  rw [hall] at hvs
  cases hvs
  obtain ⟨_, s₂, hspread, h⟩ := of_bind_ok h
  cases hspread
  obtain ⟨⟨⟩, s₃, hassign, hrest⟩ := of_bind_ok h
  cases hrest
  exact hassign

/-- The scope in which an assignment binds a name of a context: the first scope that has it, or the
innermost one. -/
def Arena.home? (a : Arena Value) (c : ContextId) (name : String) : Option ScopeId :=
  (a.binder? (a.context c).scopes name).or (a.context c).scopes.head?

theorem Store.home_of_place {t : Store} {c : ContextId} {r : ScopeId}
    (hplace : t.place c name v = .ok r) : t.scopes.home? c name = some r := by
  unfold Store.place at hplace
  unfold Arena.home?
  split at hplace
  · cases hplace
  · cases hbinder : t.scopes.binder? (t.scopes.context c).scopes name with
    | some f =>
      rw [hbinder] at hplace
      dsimp only at hplace
      split at hplace <;> cases hplace
      rfl
    | none =>
      rw [hbinder] at hplace
      have htop := Store.innermost_of_newPlace hplace
      unfold Arena.innermost at htop
      split at htop <;> cases htop
      rename_i hstack
      rw [hstack]
      rfl

/-- A name is found in the scope in which it has been bound. -/
theorem Arena.binder?_bind {a : Arena Value} {c : ContextId} {r : ScopeId} {w : Value}
    (hhome : a.home? c name = some r) (hlt : r.index < a.frames.size) :
    (a.bind r name w).binder? (a.context c).scopes name = some r := by
  have hhas : ∀ f, ((a.bind r name w).frame f).values.has name =
      (f == r || (a.frame f).values.has name) := by
    intro f
    rw [Arena.values_bind hlt]
    by_cases hf : f = r <;> simp [Bindings.has, hf]
  unfold Arena.home? at hhome
  unfold Arena.binder? at hhome ⊢
  simp only [hhas]
  cases hbinder : (a.context c).scopes.find? (fun s => (a.frame s).values.has name) with
  | some f =>
    rw [hbinder] at hhome
    cases hhome
    obtain ⟨hr, front, rest, hstack, hfront⟩ := List.find?_eq_some_iff_append.mp hbinder
    refine List.find?_eq_some_iff_append.mpr ⟨by simp, front, rest, hstack, fun f hf => ?_⟩
    have hnot := hfront f hf
    have hne : f ≠ r := by
      rintro rfl
      simp [hr] at hnot
    simpa [hne] using hnot
  | none =>
    rw [hbinder, Option.none_or] at hhome
    obtain ⟨rest, hstack⟩ := List.head?_eq_some_iff.mp hhome
    simp [hstack]

/-- A name has the value that it is bound to in the first scope that has it. -/
theorem Store.lookup_of_binder {t : Store} {c : ContextId} {r : ScopeId} {w : Value}
    (hbinder : t.scopes.binder? (t.scopes.context c).scopes name = some r)
    (hw : (t.scopes.frame r).values.get? name = some w) : t.lookup c name = .ok w := by
  obtain ⟨-, front, rest, hstack, hfront⟩ := List.find?_eq_some_iff_append.mp hbinder
  have hnone : front.findSome? (fun f => (t.scopes.frame f).values.get? name) = none := by
    refine List.findSome?_eq_none_iff.mpr fun f hf => ?_
    simpa [Bindings.has] using hfront f hf
  unfold Store.lookup Arena.get? Arena.getFrom?
  dsimp only
  rw [hstack, List.findSome?_append, hnone, Option.none_or, List.findSome?_cons, hw]

/-- A name is bound in the first scope of a context that has it. -/
theorem Store.lookup_place {t : Store} {c : ContextId} {r : ScopeId}
    (hplace : t.place c name v = .ok r) (hlt : r.index < t.scopes.frames.size) :
    (t.bindCopy r name v).lookup c name = .ok (t.memory.copyForBinding v).1 := by
  refine Store.lookup_of_binder (Arena.binder?_bind (Store.home_of_place hplace) hlt) ?_
  unfold Store.bindCopy
  rw [Arena.values_bind hlt, if_pos rfl, Bindings.get?_insert_self]

theorem assign_ok {c : ContextId} (hs : s.Sound) (hc : s.scopes.InUse c)
    (h : assign c name v s = (.ok (), t)) :
    ∃ r, s.toStore.place c name v = .ok r ∧ r.index < s.scopes.frames.size ∧
      t = { s with toStore := s.toStore.bindCopy r name v } := by
  unfold assign bindAt at h
  dsimp only at h
  cases hplace : s.toStore.place c name v with
  | error fault =>
    rw [hplace] at h
    cases fault <;> cases h
  | ok r =>
    rw [hplace] at h
    cases h
    have hmem := (Store.place_spec (hs.stack_ne c hc)).1 r hplace
    exact ⟨r, rfl, hs.exact.scope_lt c r hmem, rfl⟩

theorem assign_read_back (hs : s.Sound) (hx : s.memory.Shows v x)
    (h : assignTo e (.var name) v s = (.ok (), t)) :
    ∃ w, e.evalExpr (.var name) t = (.ok w, t) ∧ t.memory.Shows w x := by
  obtain ⟨r, hplace, hlt, rfl⟩ := assign_ok hs hs.here.1 h
  exact ⟨_, evalExpr_var e (Store.lookup_place hplace hlt), Memory.shows_copyForBinding hx⟩

/-! ### Steady ways -/

/-- A way from a variable on which assignments are not lost: its laws hold in all states with a
property, and in these the variable is bound to the first container. -/
structure Steady (e : Engine) (P : State → Prop) (name : String) (c : Value) (way : List Passage) :
    Prop where
  kind : Passable way
  bound : ∀ s, P s → s.toStore.lookup s.activation.context name = .ok c ∧ s.memory.Has c
  lawful : LawfulWay e P way

/-- A plain passage stores in memory, and no instance is given up. -/
theorem Passage.Plain.store_spec {a : Passage} (ha : a.Plain) (hm : s.memory.Nests)
    (hstore : a.store e s = (.ok (), t)) :
    ∃ m, t = { s with memory := m } ∧ s.memory.instances.size ≤ m.instances.size := by
  cases ha with
  | element l k v =>
    obtain ⟨p, -, -, rfl⟩ := setIndexOperation_list e hstore
    exact ⟨_, rfl, (adds_withElement (s := s) (l := l) (v := v) (p := p)).instances.length_le⟩
  | field i name v =>
    have ht : t = { s with memory := s.memory.bindField i name v } :=
      (congrArg Prod.snd hstore).symm
    exact ⟨_, ht, (Memory.evolves_bindField hm i name v).size_le⟩

section plain
variable {u : State} {P : State → Prop} {m : Memory} {a : Passage} {way inner : List Passage}

/-- A plain passage is lawful if every store behind it spares it. -/
theorem Passage.lawful_of_plain (hplain : ∀ b ∈ a :: inner, b.Plain)
    (hhas : ∀ s, P s → ∀ b ∈ inner, s.memory.Has b.container)
    (hspots : ∀ s, P s → s.memory.spot? = m.spot?)
    (hstores : ∀ s t, P s → Met [a.container] s → a.store e s = (.ok (), t) → P t)
    (hnext : ∀ b ∈ inner.head?, a.value = b.container) (hspares : ∀ b ∈ inner, b.Spares m a) :
    a.Lawful e P inner where
  stores := hstores
  operator h := absurd (hplain a List.mem_cons_self) h
  found _ hinner s hP _ _ := by
    obtain ⟨b, more, rfl⟩ := List.exists_cons_of_ne_nil hinner
    rw [hnext b rfl]
    exact hhas s hP b List.mem_cons_self
  apart hback b hb := by
    obtain ⟨c, more, rfl⟩ := List.exists_cons_of_ne_nil (List.ne_nil_of_mem hb)
    obtain ⟨hstruct, hindex⟩ := Bool.and_eq_true_iff.mp hback
    rw [List.dropLast_cons_cons, List.all_cons, Bool.and_eq_true_iff] at hindex
    have hmiss := (hspares b hb).resolve_right fun h => by simp [hstruct] at h
    refine .inr fun s t hP hmet hstore => ?_
    exact (hplain a List.mem_cons_self).holds_missed hindex.1
      (hplain b (List.mem_cons_of_mem a hb)) hmet.nests (hhas s hP b hb)
      (hmiss.symm.congr (hspots s hP)) hstore
  stays hback b hb := by
    refine .inr fun s t hP hmet hreturns hstep => ?_
    refine (hplain a List.mem_cons_self).returns_spared (hplain b (List.mem_cons_of_mem a hb)) hmet
      ((hspares b hb).congr (hspots s hP)) ?_ hreturns hstep
    obtain ⟨c, more, rfl⟩ := List.exists_cons_of_ne_nil (List.ne_nil_of_mem hb)
    rw [hnext c rfl]
    exact c.not_isMethod (.inl (hplain c (List.mem_cons_of_mem a List.mem_cons_self)))

theorem lawfulWay_of_plain (hspots : ∀ s, P s → s.memory.spot? = m.spot?) :
    ∀ {way : List Passage}, (∀ a ∈ way, a.Plain) →
      (∀ s, P s → ∀ a ∈ way, s.memory.Has a.container) →
      (∀ a ∈ way, ∀ s t, P s → Met [a.container] s → a.store e s = (.ok (), t) → P t) →
      way.IsChain (fun a b => a.value = b.container) →
      way.Pairwise (fun a b => b.Spares m a) → LawfulWay e P way
  | [], _, _, _, _, _ => trivial
  | a :: inner, hplain, hhas, hstores, hchain, hspares => by
      obtain ⟨hnext, hchain⟩ := List.isChain_cons.mp hchain
      obtain ⟨hfirst, hspares⟩ := List.pairwise_cons.mp hspares
      have hhas' : ∀ s, P s → ∀ b ∈ inner, s.memory.Has b.container :=
        fun s hP b hb => hhas s hP b (List.mem_cons_of_mem a hb)
      exact ⟨Passage.lawful_of_plain hplain hhas' hspots (hstores a List.mem_cons_self) hnext
          hfirst,
        lawfulWay_of_plain hspots (fun b hb => hplain b (List.mem_cons_of_mem _ hb)) hhas'
          (fun b hb => hstores b (List.mem_cons_of_mem _ hb)) hchain hspares⟩

/-- A way without user code.  What is stored on it lies in other spots than what has been passed
before, or is what lies there already and no struct value. -/
structure Direct (m : Memory) (way : List Passage) : Prop where
  plain : ∀ a ∈ way, a.Plain
  has : ∀ a ∈ way, m.Has a.container
  spares : way.Pairwise fun a b => b.Spares m a

theorem Direct.exists_steady {c : Value} {steps : List PlaceStep} {last : PlaceStep}
    (h : Direct s.memory way) (hpass : Passes e v s c steps last way u)
    (hbound : s.toStore.lookup s.activation.context name = .ok c) :
    ∃ P, P s ∧ Steady e P name c way := by
  have hc : s.memory.Has c := by
    obtain ⟨a, rest, rfl, rfl⟩ := hpass.head
    exact h.has a List.mem_cons_self
  refine ⟨fun t => (∀ a ∈ way, t.memory.Has a.container) ∧ t.memory.spot? = s.memory.spot? ∧
      t.toStore.lookup t.activation.context name = .ok c ∧ t.memory.Has c,
    ⟨h.has, rfl, hbound, hc⟩, fun a ha => .inl (h.plain a ha), fun _ h => h.2.2, ?_⟩
  refine lawfulWay_of_plain (fun _ h => h.2.1) h.plain (fun _ h => h.1)
    (fun a ha t t' ⟨hhas, hspots, hbound, hc⟩ hmet hstore => ?_) hpass.isChain h.spares
  have hsize := (h.plain a ha).size_store hstore
  obtain ⟨n, rfl, hle⟩ := (h.plain a ha).store_spec hmet.nests hstore
  exact ⟨fun b hb => (hhas b hb).mono hle, (Memory.spot?_congr hsize).trans hspots, hbound,
    hc.mono hle⟩

end plain

/-! ### Assignments are read back -/

/-- **Assignments are not lost.**  An assignment to a place succeeds.  If its way is direct or
steady, reading the place right afterwards gives the assigned value, or for a struct value a copy
that shows what the value showed when it was assigned. -/
theorem assignment_read_back {settings : Settings} {loader : Loader} {fuel : Nat}
    {steps : List PlaceStep} {value : Expr} {s₀ : State} (hs : s.Fit) (hm : s.memory.Nests)
    (hv : s.memory.Knows v)
    (hvalue : (engine settings loader fuel).evalExpr value s₀ = (.ok v, s))
    (hway : ∀ c init last way u, steps = init ++ [last] →
      s.toStore.lookup s.activation.context name = .ok c →
        Passes (engine settings loader fuel) v s c init last way u →
          Direct s.memory way ∨ ∃ P, P s ∧ Steady (engine settings loader fuel) P name c way)
    (h : assignment (engine settings loader fuel) [(Expr.var name).along steps] [value] s₀ =
      (.ok (), t)) :
    ∃ x w u, s.memory.Shows v x ∧
      (engine settings loader fuel).evalExpr ((Expr.var name).along steps) t = (.ok w, u) ∧
      u.memory.Shows w x := by
  have he := engine_isPaced settings loader fuel
  generalize engine settings loader fuel = e at *
  obtain ⟨x, hx⟩ := hm.exists_shows hv
  have hassign := assignment_single hvalue h
  rcases List.eq_nil_or_concat' steps with rfl | ⟨init, last, rfl⟩
  · obtain ⟨w, hread, hw⟩ := assign_read_back hs.sound hx hassign
    exact ⟨x, w, t, hx, hread, hw⟩
  · rw [assignTo_along] at hassign
    obtain ⟨c, s', hc, hwalk⟩ := of_bind_ok hassign
    obtain ⟨hbound, rfl⟩ := lookup_of_evalExpr hc
    obtain ⟨way, u, hpass⟩ := exists_passes hwalk
    obtain ⟨P, hP, hsteady⟩ := (hway c init last way u rfl hbound hpass).elim
      (·.exists_steady hpass hbound) id
    have hmet : Met [c] s' := ⟨hs, hm, List.forall_mem_singleton.mpr (hsteady.bound s' hP).2⟩
    have hleads := hpass.leads he hsteady.lawful hsteady.kind hP hmet hx hwalk
    obtain ⟨hPt, -, hway⟩ := hpass.keeps he hsteady.lawful hsteady.kind (Q := fun _ => True)
      (fun _ _ _ _ _ _ _ _ => trivial) hP hmet trivial hwalk
    obtain ⟨a, rest, rfl, rfl⟩ := hpass.head
    obtain ⟨y, hy⟩ := hway.exists_shows List.mem_cons_self
    obtain ⟨w, u', hread, hw⟩ := Leads.read he hsteady.lawful hPt hway hleads
      (fun _ h => by cases h; exact hy) hy
    refine ⟨x, w, u', hx, ?_, hw⟩
    rw [evalExpr_along, bind_apply, evalExpr_var e (hsteady.bound t hPt).1, ← hpass.map_step]
    exact hread

def Value.instance? : Value → Option InstanceRef
  | .instance i => some i
  | _ => none

theorem Value.instance?_eq_some {v : Value} {i : InstanceRef} (h : v.instance? = some i) :
    v = .instance i := by
  cases v <;> cases h
  rfl

/-- The operators of a class hand out copies of a struct value, and take one in. -/
def cellInBox : List Statement := [
  .mk 1 (.classDecl "Cell" none [] true),
  .mk 2 (.classDecl "Box" none [
    .operator (.mk "[]" [.mk "self" none false, .mk "index" none false] []
      [.mk 3 (.returnValues [.index (.list [.attr (.var "self") "cell"]) (.literal (.int 0))])] 3),
    .operator (.mk "[]=" [.mk "self" none false, .mk "index" none false, .mk "value" none false] []
      [.mk 4 (.assign [.attr (.var "self") "cell"] [.var "value"])] 4)] false),
  .mk 5 (.assign [.var "box"] [.call (.var "Box") [] []]),
  .mk 6 (.assign [.attr (.var "box") "cell"] [.call (.var "Cell") [] []])]

/-- A variable holds an instance with a struct value behind its operators. -/
def boxed : State :=
  ((engine {} (fun _ => .unknown) 4).execStatements cellInBox .initial).2

theorem met_boxed : Met [] boxed := by
  have hbody := paced_rules.execStatements (engine_isPaced {} (fun _ => .unknown) 4) cellInBox
  have hinitial : Met [] State.initial := by
    exact ⟨Moment.fit_start, ⟨fun _ => 0, fun i n hn => nomatch hn⟩, nofun⟩
  exact hinitial.after hbody.2 (Prod.eta _).symm

theorem atAccessor_boxed :
    AtAccessor {} "box" ⟨0, ⟨22⟩, false⟩ "cell" ⟨21⟩ "v" boxed := by
  obtain ⟨hclass, hreader, hwriter, hgone, hschedule, hdepth, hlt, hfields, hcell, hbound, hnone⟩ :
      (∀ c ∈ boxed.memory.chain ⟨22⟩, c.index < boxed.memory.classes.size) ∧
        (boxed.memory.definedFor? ⟨0, ⟨22⟩, false⟩ indexKey).bind Function.handsOut? =
          some "cell" ∧
        (boxed.memory.definedFor? ⟨0, ⟨22⟩, false⟩ setIndexKey).bind Function.takesIn? =
          some "cell" ∧
        boxed.gone = [] ∧ boxed.schedule = [] ∧ boxed.depth < ({} : Settings).maxCallDepth ∧
        0 < boxed.memory.instances.size ∧
        (∀ b ∈ boxed.memory.instances.toList, 0 ∉ Bindings.structs b) ∧
        ((boxed.memory.field? ⟨0, ⟨22⟩, false⟩ "cell").bind Value.instance?).any
          (fun j => j.isStruct && j.ofClass == ⟨21⟩) = true ∧
        ((boxed.scopes.context boxed.activation.context).scopes.findSome?
          (fun r => (boxed.scopes.frame r).values.get? "box")).bind Value.instance? =
            some ⟨0, ⟨22⟩, false⟩ ∧
        (boxed.memory.findAttribute? ⟨21⟩ "v").isNone = true := by
    decide +kernel
  generalize boxed = s at *
  refine ⟨⟨hclass, hreader, hwriter⟩, fun _ r _ => State.spares_all hgone hschedule r, hdepth,
    ⟨hlt, fun i hi => ?_⟩, ?_, ?_, ?_⟩
  · unfold Memory.fieldsAt at hi
    cases hb : s.memory.instances[i]? with
    | none =>
      rw [hb] at hi
      cases hi
    | some b =>
      rw [hb] at hi
      exact hfields b (Array.mem_toList_iff.mpr (Array.mem_of_getElem? hb)) hi
  · obtain ⟨j, hj, htest⟩ := (Option.any_eq_true _ _).mp hcell
    obtain ⟨v, hv, hvj⟩ := Option.bind_eq_some_iff.mp hj
    obtain rfl := Value.instance?_eq_some hvj
    obtain ⟨hstruct, hclass⟩ := Bool.and_eq_true_iff.mp htest
    exact ⟨j, hv, hstruct, by simpa using hclass⟩
  · obtain ⟨v, hv, hvi⟩ := Option.bind_eq_some_iff.mp hbound
    obtain rfl := Value.instance?_eq_some hvi
    exact hv
  · intro w hw
    rw [hw] at hnone
    cases hnone

/-- A field of a copy that an operator has handed out is assigned to, and read back. -/
theorem assignment_read_back_operator :
    let e := engine {} (fun _ => .unknown) 4
    let place := (Expr.var "box").along [.index (.int 0), .attr "v"]
    ∃ t x w u, assignment e [place] [.literal (.int 5)] boxed = (.ok (), t) ∧
      boxed.memory.Shows (.int 5) x ∧ e.evalExpr place t = (.ok w, u) ∧ u.memory.Shows w x := by
  intro e place
  have hok : (assignment e [place] [.literal (.int 5)] boxed).1.isOk = true := by decide +kernel
  have hmet := met_boxed
  have hat := atAccessor_boxed
  generalize boxed = s at *
  obtain ⟨⟨⟩, ht⟩ := Outcome.exists_of_isOk hok
  have hvalue : e.evalExpr (.literal (.int 5)) s = (.ok (.int 5), s) := rfl
  have hway : ∀ c init last way u, [PlaceStep.index (.int 0), .attr "v"] = init ++ [last] →
      s.toStore.lookup s.activation.context "box" = .ok c →
        Passes e (.int 5) s c init last way u →
          Direct s.memory way ∨ ∃ P, P s ∧ Steady e P "box" c way := by
    intro c init last way u hsteps hc hpass
    cases hat.lookup.symm.trans hc
    have hsplit : [PlaceStep.index (.int 0)] ++ [.attr "v"] = init ++ [last] := hsteps
    obtain ⟨rfl, hlast⟩ := List.append_inj' hsplit rfl
    cases hlast
    cases hpass with
    | step hread hmore =>
      cases hmore
      obtain ⟨-, -, -, d, rfl, hclass, hd, hnew, -⟩ := hat.read hmet hread
      refine .inr ⟨_, hat, ?_, fun s hP => ⟨hP.lookup, ?_⟩, ?_⟩
      · simp only [Passable, List.forall_mem_cons]
        exact ⟨.inr ⟨⟨_, rfl⟩, rfl⟩, .inl (.field ..), nofun⟩
      · rintro i hi
        cases hi
        exact hP.free.lt
      · exact hclass ▸ AtAccessor.lawfulWay rfl hd (hat.free.lt.trans_le hnew).ne'
  obtain ⟨x, w, u, hx, hread, hw⟩ := assignment_read_back hmet.fit hmet.nests
    (fun _ h => by cases h) hvalue hway ht
  exact ⟨_, x, w, u, ht, hx, hread, hw⟩

/-- A field of an instance holds the instance itself. -/
def instanceInItself (e : Engine) : State :=
  (e.execStatements [
    .mk 1 (.classDecl "N" none [] false),
    .mk 2 (.assign [.var "n"] [.call (.var "N") [] []]),
    .mk 3 (.assign [.attr (.var "n") "next"] [.var "n"])] .initial).2

/-- An assignment that changes where its own place leads is lost: what is read afterwards has no
such attribute. -/
theorem assignment_to_container_is_lost :
    let e := engine {} (fun _ => .unknown) 4
    let place := (Expr.var "n").along [.attr "next", .attr "next"]
    ∃ t error u, assignment e [place] [.literal (.int 5)] (instanceInItself e) = (.ok (), t) ∧
      e.evalExpr place t = (.raised error, u) ∧
      error.raised = .cause (.noAttribute "int" "next") := by
  intro e place
  have hok : (assignment e [place] [.literal (.int 5)] (instanceInItself e)).1.isOk = true := by
    decide +kernel
  have hraised : (e.evalExpr place
      (assignment e [place] [.literal (.int 5)] (instanceInItself e)).2).1.cause? =
        some (.noAttribute "int" "next") := by
    decide +kernel
  obtain ⟨⟨⟩, hassign⟩ := Outcome.exists_of_isOk hok
  obtain ⟨error, hread, hcause⟩ := Outcome.exists_of_cause? hraised
  exact ⟨_, error, _, hassign, hread, hcause⟩

end Classlet
