import Classlet.Proofs.Error.Handlers
import Classlet.Proofs.Run.Variables
import Classlet.Proofs.Termination.Tame

/-! # Computations that end

`Halts P X s Q` says of a computation `X`, which is written over an engine, that from the state `s`
it ends with a value or an error of the program and never depends on the fuel once there is enough
of it.  It ends in a tame state, and a value has the property `Q`.  It may be stopped only where
there can be no room for what it asks for, or where the schedule of the state has let go of a
function that is called (`State.Excuses`).

There is a rule for each basic step, and one for sequencing.  That enough fuel is enough is part of
the definition, so that no rule speaks of fuel but the one for engines themselves (`Halts.call`). -/

namespace Classlet

open Eval

variable {P : Program} {α β : Type} {s t u : State}

/-! ### Tame states -/

def State.global? (s : State) : Option ScopeId := (s.scopes.context s.root).scopes.getLast?

/-- Whatever a state holds is tame; only the scope of the global names binds `append`. -/
structure State.Tame (P : Program) (s : State) : Prop where
  sound : s.Sound
  memory : s.memory.Tame P
  frames : ∀ r, s.scopes.FrameInUse r → ∀ p ∈ (s.scopes.frame r).values, p.2.FitsIn s.memory ∨
    (s.global? = some r ∧ p.1 = Builtin.append.name)
  module : ∀ r, s.activation.module = some r → r.index < s.memory.modules.size

/-- The state `t` comes after `s` in the run of one activation. -/
structure State.Reaches (P : Program) (s t : State) : Prop where
  tame : t.Tame P
  settles : ∃ own, Settles own s ((.ok () : Outcome Unit), t)
  lists : s.memory.lists.size ≤ t.memory.lists.size

/-- A value mentions what is in the memory of a state. -/
abbrev Value.Fits (v : Value) (s : State) : Prop := v.FitsIn s.memory

theorem Memory.Keeps.classes_size_le {m n : Memory} (h : m.Keeps n) :
    m.classes.size ≤ n.classes.size :=
  h.classes.length_le

theorem Memory.Keeps.modules_size_le {m n : Memory} (h : m.Keeps n) :
    m.modules.size ≤ n.modules.size :=
  h.modules.length_le

theorem Settles.global? {own : List ScopeId} {o : Outcome α} (h : Settles own s (o, t))
    (hs : s.Sound) : t.global? = s.global? := by
  show (t.scopes.context t.root).scopes.getLast? = _
  rw [h.root, (h.scopes.context s.root (.opened hs.root)).scopes]
  rfl

/-- A variable other than `append` is bound to a value that fits. -/
theorem State.Tame.lookup (hs : s.Tame P) {c : ContextId} {name : String} {v : Value}
    (hv : s.toStore.lookup c name = .ok v) (hname : name ≠ Builtin.append.name) : v.Fits s := by
  have hfrom : ∀ (fuel : Nat) (c : ContextId),
      s.scopes.getFrom? name fuel c = some v → v.Fits s := by
    intro fuel
    induction fuel with
    | zero => exact fun _ h => by cases h
    | succ fuel ih =>
        intro c h
        rw [Arena.getFrom?] at h
        split at h
        · rename_i w hw
          cases h
          obtain ⟨r, hr, hw⟩ := List.exists_of_findSome?_eq_some hw
          have hbound := hs.frames r (hs.sound.exact.scope_inUse hr) _ (Bindings.mem_of_get? hw)
          exact hbound.resolve_right fun he => hname he.2
        · obtain ⟨parent, -, h⟩ := Option.bind_eq_some_iff.mp h
          exact ih parent h
  unfold Store.lookup at hv
  split at hv
  · rename_i w hw
    cases hv
    exact hfrom _ c hw
  · cases hv

namespace State.Reaches

theorem refl (hs : s.Tame P) : s.Reaches P s where
  tame := hs
  settles := ⟨[], .refl hs.sound (.ok ())⟩
  lists := le_rfl

theorem keeps (h : s.Reaches P t) : s.memory.Keeps t.memory := h.settles.choose_spec.memory

theorem trans (h₁ : s.Reaches P t) (h₂ : t.Reaches P u) : s.Reaches P u where
  tame := h₂.tame
  settles := by
    obtain ⟨own₁, h₁⟩ := h₁.settles
    obtain ⟨own₂, h₂⟩ := h₂.settles
    have hl : ∀ r ∈ own₁, r ∈ own₁ ++ own₂ := fun _ => List.mem_append_left _
    have hr : ∀ r ∈ own₂, r ∈ own₁ ++ own₂ := fun _ => List.mem_append_right _
    exact ⟨own₁ ++ own₂, Settles.trans { h₁ with scopes := h₁.scopes.mono hl }
      { h₂ with scopes := h₂.scopes.mono hr }⟩
  lists := h₁.lists.trans h₂.lists

theorem activation (h : s.Reaches P t) : t.activation = s.activation :=
  h.settles.choose_spec.activation

theorem depth (h : s.Reaches P t) : t.depth = s.depth := h.settles.choose_spec.depth

theorem fits (h : s.Reaches P t) {v : Value} (hv : v.Fits s) : v.Fits t :=
  hv.mono h.lists h.keeps.classes_size_le

theorem within (h : s.Reaches P t) {n : Nat} {v : Value} (hv : v.Within n s.memory.classes.size) :
    v.Within n t.memory.classes.size :=
  hv.mono le_rfl h.keeps.classes_size_le

/-- A computation that settles comes to a later state, if it leaves memory tame and binds fitting
values only. -/
theorem of_settles {own : List ScopeId} {o : Outcome α} (hs : s.Tame P)
    (hsettles : Settles own s (o, t)) (hmemory : t.memory.Tame P)
    (hlists : s.memory.lists.size ≤ t.memory.lists.size)
    (hframes : ∀ r, t.scopes.FrameInUse r → ∀ p ∈ (t.scopes.frame r).values, p.2.Fits t ∨
      (s.global? = some r ∧ p.1 = Builtin.append.name)) : s.Reaches P t := by
  have hkeeps := hsettles.memory
  refine ⟨⟨hsettles.sound, hmemory, ?_, fun r hr => ?_⟩, ⟨own, hsettles.outcome (.ok ())⟩, hlists⟩
  · rw [hsettles.global? hs.sound]
    exact hframes
  · have hactivation : t.activation = s.activation := hsettles.activation
    rw [hactivation] at hr
    exact (hs.module r hr).trans_le hkeeps.modules_size_le

/-- The same if all values were bound before. -/
theorem of_bound {own : List ScopeId} {o : Outcome α} (hs : s.Tame P)
    (hsettles : Settles own s (o, t)) (hmemory : t.memory.Tame P)
    (hlists : s.memory.lists.size ≤ t.memory.lists.size)
    (hframes : ∀ r, t.scopes.FrameInUse r → ∀ p ∈ (t.scopes.frame r).values,
      s.scopes.FrameInUse r ∧ p ∈ (s.scopes.frame r).values) : s.Reaches P t := by
  refine .of_settles hs hsettles hmemory hlists fun r hr p hp => ?_
  obtain ⟨hold, hp⟩ := hframes r hr p hp
  refine (hs.frames r hold p hp).imp_left fun hfits => ?_
  exact hfits.mono hlists hsettles.memory.classes_size_le

/-- What the program cannot get at is given up. -/
theorem of_sheds (hs : s.Tame P) (h : s.Sheds t) : s.Reaches P t := by
  have hsettles : Settles [] s ((.ok () : Outcome Unit), t) := h.settles (.ok ())
  refine .of_bound hs hsettles ?_ ?_ fun r hr p hp => ?_
  · rw [h.trims.memory]
    exact hs.memory
  · rw [h.trims.memory]
  · obtain ⟨hold, hvalues | hempty⟩ := h.frame r hr
    · rw [hvalues] at hp
      exact ⟨hold, hp⟩
    · rw [hempty] at hp
      cases hp

theorem spares (h : s.Reaches P t) {q : FunctionRef} (hq : s.Spares q) : t.Spares q :=
  h.settles.choose_spec.spares q hq

end State.Reaches

/-! ### Ends -/

/-- What was raised is an instance of a class in memory, or an error of the runtime. -/
def Raised.FitsIn : Raised → Memory → Prop
  | .cause _, _ => True
  | .thrown i, m => (Value.instance i).FitsIn m

/-- There can be no room for what was asked for, or a function was called that the schedule lets go
of. -/
def State.Excuses (s : State) (why : Stop) : Prop :=
  why = .capacityOverflow ∨ (why = .stale ∧ ∃ q, ¬ s.Spares q)

theorem State.Reaches.excuses (h : s.Reaches P t) {why : Stop} (hwhy : t.Excuses why) :
    s.Excuses why :=
  hwhy.imp_right fun ⟨hstale, q, hq⟩ => ⟨hstale, q, fun hs => hq (h.spares hs)⟩

/-- A computation that began in `s` has ended by itself, or with an excuse.  What it raised fits,
and a value has the property `Q`. -/
structure Ends (P : Program) (s : State) (Q : α → Memory → Prop) (r : Outcome α × State) :
    Prop where
  reaches : s.Reaches P r.2
  halted : ∀ why, r.1 = .stopped why → s.Excuses why
  answer : ∀ a, r.1 = .ok a → Q a r.2.memory
  error : ∀ error, r.1 = .raised error → error.raised.FitsIn r.2.memory

/-- With enough fuel a computation ends. -/
def Halts (P : Program) (X : Engine → Eval α) (s : State) (Q : α → Memory → Prop) : Prop :=
  ∃ r n, (∀ m, n ≤ m → X (P.engine m) s = r) ∧ Ends P s Q r

namespace Ends

variable {Q R : α → Memory → Prop}

theorem ok {a : α} (h : s.Reaches P t) (ha : Q a t.memory) : Ends P s Q (.ok a, t) where
  reaches := h
  halted := fun _ he => by cases he
  answer := fun b hb => by
    cases hb
    exact ha
  error := fun _ he => by cases he

theorem stopped {why : Stop} (h : s.Reaches P t) (hwhy : s.Excuses why) :
    Ends P s Q (.stopped why, t) where
  reaches := h
  halted := fun _ he => by
    cases he
    exact hwhy
  answer := fun _ hb => by cases hb
  error := fun _ he => by cases he

theorem raised {error : RuntimeError} (h : s.Reaches P t) (he : error.raised.FitsIn t.memory) :
    Ends P s Q (.raised error, t) where
  reaches := h
  halted := fun _ he => by cases he
  answer := fun _ hb => by cases hb
  error := fun _ hr => by
    cases hr
    exact he

/-- What ended after `t` ended after what comes before `t`. -/
theorem after {r : Outcome α × State} (h : Ends P t Q r) (hs : s.Reaches P t) : Ends P s Q r where
  reaches := hs.trans h.reaches
  halted why hwhy := hs.excuses (h.halted why hwhy)
  answer := h.answer
  error := h.error

end Ends

namespace Halts

variable {Q Q' : α → Memory → Prop} {R : β → Memory → Prop} {X Y : Engine → Eval α}

/-- A computation that does not call back. -/
theorem of_ends {x : Eval α} (h : Ends P s Q (x s)) : Halts P (fun _ => x) s Q :=
  ⟨x s, 0, fun _ _ => rfl, h⟩

theorem mono (h : Halts P X s Q) (hQ : ∀ a t, s.Reaches P t → Q a t.memory → Q' a t.memory) :
    Halts P X s Q' := by
  obtain ⟨r, n, hrun, hr⟩ := h
  exact ⟨r, n, hrun, { hr with answer := fun a ha => hQ a _ hr.reaches (hr.answer a ha) }⟩

/-- The same computation, written in another way. -/
theorem congr (h : Halts P Y s Q) (hXY : ∀ m, X (P.engine m) s = Y (P.engine m) s) :
    Halts P X s Q := by
  obtain ⟨r, n, hrun, hr⟩ := h
  exact ⟨r, n, fun m hm => (hXY m).trans (hrun m hm), hr⟩

/-- The engine calls back into the engine with one unit of fuel less. -/
theorem step (h : Halts P Y s Q) (hXY : ∀ m, X (P.engine (m + 1)) s = Y (P.engine m) s) :
    Halts P X s Q := by
  obtain ⟨r, n, hrun, hr⟩ := h
  refine ⟨r, n + 1, fun m hm => ?_, hr⟩
  obtain ⟨k, rfl⟩ : ∃ k, m = k + 1 := ⟨m - 1, by omega⟩
  exact (hXY k).trans (hrun k (by omega))

theorem bind {F : α → Engine → Eval β} (hx : Halts P X s Q)
    (hf : ∀ a t, s.Reaches P t → Q a t.memory → Halts P (F a) t R) :
    Halts P (fun e => X e >>= fun a => F a e) s R := by
  obtain ⟨⟨o, t⟩, n, hrun, hr⟩ := hx
  have hbind : ∀ m, n ≤ m → (X (P.engine m) >>= fun a => F a (P.engine m)) s =
      ((fun _ => (o, t) : Eval α) >>= fun a => F a (P.engine m)) s :=
    fun m hm => bind_apply_congr (hrun m hm)
  cases o with
  | ok a =>
      obtain ⟨r, k, hrest, hk⟩ := hf a t hr.reaches (hr.answer a rfl)
      refine ⟨r, max n k, fun m hm => ?_, hk.after hr.reaches⟩
      exact (hbind m (by omega)).trans (hrest m (by omega))
  | raised error => exact ⟨_, n, hbind, .raised hr.reaches (hr.error error rfl)⟩
  | stopped why => exact ⟨_, n, hbind, .stopped hr.reaches (hr.halted why rfl)⟩

/-- A computation from `t` on is followed by a change of memory, which settles only from an earlier
state `s` on: it changes an object that was made in between. -/
theorem changing {F : α → Eval β} (hs : s.Tame P) (ht : s.Reaches P t) (hx : Halts P X t Q)
    (hjoint : ∀ m, ∃ own, Settles own s ((X (P.engine m) >>= F) t))
    (hf : ∀ a u, t.Reaches P u → Q a u.memory → (∃ c, F a u = Eval.fail c u) ∨
      ∃ b memory, F a u = (.ok b, { u with memory := memory }) ∧ memory.Tame P ∧
        u.memory.lists.size ≤ memory.lists.size ∧ u.memory.classes.size ≤ memory.classes.size ∧
        R b memory) :
    ∃ r n, (∀ m, n ≤ m → (X (P.engine m) >>= F) t = r) ∧ Ends P s R r := by
  obtain ⟨⟨o, u⟩, n, hrun, hr⟩ := hx
  have hall := ht.trans hr.reaches
  have hend : ∀ m, n ≤ m → (X (P.engine m) >>= F) t =
      ((fun _ => (o, u) : Eval α) >>= F) t :=
    fun m hm => bind_apply_congr (hrun m hm)
  cases o with
  | ok a =>
      obtain ⟨c, hfail⟩ | ⟨b, memory, hchange, htame, hlists, hclasses, hb⟩ :=
        hf a u hr.reaches (hr.answer a rfl)
      · exact ⟨_, n, fun m hm => (hend m hm).trans hfail, .raised hall trivial⟩
      · have hrun := fun m hm => (hend m hm).trans hchange
        obtain ⟨own, hsettles⟩ := hjoint n
        rw [hrun n le_rfl] at hsettles
        refine ⟨_, n, hrun, .ok (.of_settles hs hsettles htame (hall.lists.trans hlists) ?_) hb⟩
        intro r hu p hp
        obtain ⟨own', hbefore⟩ := hall.settles
        rw [← hbefore.global? hs.sound]
        exact (hall.tame.frames r hu p hp).imp_left fun h => h.mono hlists hclasses
  | raised error => exact ⟨_, n, hend, .raised hall (hr.error error rfl)⟩
  | stopped why => exact ⟨_, n, hend, .stopped hall (ht.excuses (hr.halted why rfl))⟩

theorem ite {c : Prop} [Decidable c] (hx : c → Halts P X s Q) (hy : ¬c → Halts P Y s Q) :
    Halts P (fun e => if c then X e else Y e) s Q := by
  by_cases hc : c
  · exact (hx hc).congr fun m => by rw [if_pos hc]
  · exact (hy hc).congr fun m => by rw [if_neg hc]

/-! ### Basic steps -/

section steps
variable (hs : s.Tame P)
include hs

theorem pure {a : α} (ha : Q a s.memory) : Halts P (fun _ => pure a) s Q :=
  .of_ends (.ok (.refl hs) ha)

theorem stop {why : Stop} (hwhy : why = .capacityOverflow) :
    Halts P (fun _ => Eval.stop why) s Q :=
  .of_ends (.stopped (.refl hs) (.inl hwhy))

theorem raise {error : RuntimeError} (he : error.raised.FitsIn s.memory) :
    Halts P (fun _ => Eval.raise error) s Q :=
  .of_ends (.raised (.refl hs) he)

theorem fail (c : Cause) : Halts P (fun _ => Eval.fail c) s Q :=
  .of_ends (.raised (.refl hs) trivial)

theorem failWithType (v : Value) (c : String → Cause) :
    Halts P (fun _ => Eval.failWithType v c) s Q :=
  .of_ends (.raised (.refl hs) trivial)

theorem read {f : State → α} (ha : Q (f s) s.memory) : Halts P (fun _ => Eval.read f) s Q :=
  .of_ends (.ok (.refl hs) ha)

theorem readMemory {f : Memory → α} (ha : Q (f s.memory) s.memory) :
    Halts P (fun _ => Eval.readMemory f) s Q :=
  .of_ends (.ok (.refl hs) ha)

theorem ofExcept {x : Except Cause α} (ha : ∀ a, x = .ok a → Q a s.memory) :
    Halts P (fun _ => Eval.ofExcept x) s Q := by
  cases x with
  | ok a => exact .pure hs (ha a rfl)
  | error c => exact .fail hs c

theorem remember {f : Memory → α × Memory} (hisolated : Isolated (Eval.remember f))
    (hmemory : (f s.memory).2.Tame P) (hlists : s.memory.lists.size ≤ (f s.memory).2.lists.size)
    (ha : Q (f s.memory).1 (f s.memory).2) :
    Halts P (fun _ => Eval.remember f) s Q := by
  refine .of_ends (.ok (.of_bound hs (hisolated s hs.sound) hmemory hlists ?_) ha)
  exact fun r hr p hp => ⟨hr, hp⟩

theorem modify {f : State → State} (hisolated : Isolated (Eval.modify f))
    (hstore : (f s).toStore = s.toStore) : Halts P (fun _ => Eval.modify f) s fun _ _ => True := by
  refine .of_ends (.ok (.of_bound hs (hisolated s hs.sound) ?_ ?_ ?_) trivial)
  · rw [hstore]
    exact hs.memory
  · rw [hstore]
  · rw [hstore]
    exact fun r hr p hp => ⟨hr, hp⟩

theorem reclaim : Halts P (fun _ => Eval.reclaim) s fun _ _ => True := by
  obtain ⟨t, ht, hsheds⟩ := hs.sound.reclaim
  refine .of_ends ?_
  rw [ht]
  exact .ok (.of_sheds hs hsheds) trivial

theorem newList {vs : Array Value} (hvs : ∀ v ∈ vs, v.Fits s) :
    Halts P (fun _ => Classlet.newList vs) s Value.FitsIn := by
  refine .bind (.remember hs (Q := fun l m => (Value.list l).FitsIn m) (isolated_closed.newList vs)
    (hs.memory.newList hvs) ?_ ?_) fun l t ht hl => .pure ht.tame hl
  · simp [Memory.newList]
  · show _ < _
    simp [Memory.newList]

theorem newListOf {vs : List Value} (hvs : ∀ v ∈ vs, v.Fits s) :
    Halts P (fun _ => Classlet.newListOf vs) s Value.FitsIn :=
  .newList hs fun v hv => hvs v (List.mem_toArray.mp hv)

theorem copied {v : Value} (hv : v.Fits s) : Halts P (fun _ => Eval.copied v) s
    fun w m => w.FitsIn m ∧ w = (s.memory.copyForBinding v).1 := by
  obtain ⟨hw, hmemory⟩ := hs.memory.copyForBinding hv
  have hlists := s.memory.lists_copyForBinding v
  have hsize : s.memory.lists.size ≤ (s.memory.copyForBinding v).2.lists.size := by rw [hlists]
  refine .remember hs (isolated_closed.copied v) hmemory hsize ⟨?_, rfl⟩
  exact hw.mono hsize ((s.memory.alters_copyForBinding v).keeps.classes_size_le)

theorem newInstance (c : ClassRef) {fields : Bindings Value}
    (hfields : BoundWithin s.memory.lists.size s.memory.classes.size fields) :
    Halts P (fun _ => Eval.remember fun m => m.newInstance c fields) s fun i _ => i.ofClass = c :=
  .remember hs (isolated_remember fun _ => ⟨rfl, rfl, rfl, rfl⟩) (hs.memory.newInstance hfields)
    le_rfl rfl

/-- A variable that is bound in a scope gets what binding a fitting value gives. -/
theorem bindAt {own : List ScopeId} {place : Store → Except BindFault ScopeId}
    {f : Store → ScopeId → Store} {name : String} {v : Value}
    (hsettles : Settles own s (Eval.bindAt place f s))
    (hscopes : ∀ r, (f s.toStore r).scopes = s.scopes.bind r name v)
    (hmemory : ∀ r, (f s.toStore r).memory.Tame P)
    (hlists : ∀ r, (f s.toStore r).memory.lists = s.memory.lists)
    (hv : ∀ r, v.FitsIn (f s.toStore r).memory)
    (hplace : ∀ r, place s.toStore = .ok r → r.index < s.scopes.frames.size) :
    Halts P (fun _ => Eval.bindAt place f) s fun _ _ => True := by
  refine .of_ends ?_
  have hfault := hsettles.noFault
  unfold Eval.bindAt at hsettles hfault ⊢
  split
  · rename_i r hr
    rw [hr] at hsettles
    have hsize := (congrArg Array.size (hlists r)).ge
    refine .ok (.of_settles hs hsettles (hmemory r) hsize ?_) trivial
    intro x hx p hp
    dsimp only at hx hp ⊢
    rw [hscopes, Arena.frameInUse_bind] at hx
    rw [hscopes, Arena.values_bind (hplace r hr)] at hp
    have hold : p ∈ (s.scopes.frame x).values → p.2.FitsIn (f s.toStore r).memory ∨
        (s.global? = some x ∧ p.1 = Builtin.append.name) := fun hp =>
      (hs.frames x hx p hp).imp_left fun h => h.mono hsize hsettles.memory.classes_size_le
    split at hp
    · rename_i he
      subst he
      rcases Bindings.mem_insert hp with rfl | hp
      · exact .inl (hv x)
      · exact hold hp
    · exact hold hp
  · exact .raised (.refl hs) trivial
  · rename_i fault hunbalanced
    rw [hunbalanced] at hfault
    exact absurd rfl (hfault fault)

/-! ### Variables -/

section binding
variable {c : ContextId} (hc : s.scopes.InUse c) (name : String) {v : Value} (hv : v.Fits s)
include hv

theorem bindCopy {own : List ScopeId} {place : Store → Except BindFault ScopeId}
    (hsettles : Settles own s (Eval.bindAt place (fun t r => t.bindCopy r name v) s))
    (hplace : ∀ r, place s.toStore = .ok r → r ∈ (s.scopes.context c).scopes) :
    Halts P (fun _ => Eval.bindAt place fun t r => t.bindCopy r name v) s fun _ _ => True := by
  obtain ⟨hw, hmemory⟩ := hs.memory.copyForBinding hv
  have hlists := s.memory.lists_copyForBinding v
  refine .bindAt hs (v := (s.memory.copyForBinding v).1) hsettles (fun _ => rfl)
    (fun _ => hmemory) (fun _ => hlists) (fun _ => ?_)
    fun r hr => hs.sound.exact.scope_lt c r (hplace r hr)
  exact hw.mono (congrArg Array.size hlists).ge
    (s.memory.alters_copyForBinding v).keeps.classes_size_le

include hc

theorem assign : Halts P (fun _ => Eval.assign c name v) s fun _ _ => True :=
  .bindCopy hs name hv (.assign c name v hs.sound hc)
    (Store.place_spec (hs.sound.stack_ne c hc)).1

theorem define : Halts P (fun _ => Eval.define c name v) s fun _ _ => True :=
  .bindCopy hs name hv (.define c name v hs.sound hc)
    (Store.newPlace_spec (hs.sound.stack_ne c hc)).1

theorem defineShared : Halts P (fun _ => Eval.defineShared c name v) s fun _ _ => True :=
  .bindAt hs (.defineShared c name v hs.sound hc) (fun _ => rfl) (fun _ => hs.memory)
    (fun _ => rfl) (fun _ => hv) fun r hr => hs.sound.exact.scope_lt c r
      ((Store.newPlace_spec (hs.sound.stack_ne c hc)).1 r hr)

end binding

theorem assignHere (name : String) {v : Value} (hv : v.Fits s) :
    Halts P (fun _ => Eval.context >>= fun c => Eval.assign c name v) s fun _ _ => True :=
  .congr (.assign hs hs.sound.here.1 name hv) fun _ => rfl

end steps

end Halts

/-! ### Scopes -/

theorem State.global?_pushScope (hs : s.Sound) :
    State.global? { s with scopes := (s.scopes.pushScope s.activation.context).2 } = s.global? := by
  unfold State.global?
  dsimp only
  rw [Arena.context_pushScope hs.here.1]
  split
  · rename_i he
    obtain ⟨top, rest, hstack⟩ := List.exists_cons_of_ne_nil (hs.stack_ne _ hs.here.1)
    rw [he, hstack]
    exact List.getLast?_cons_cons
  · rfl

theorem State.Tame.pushScope (hs : s.Tame P) :
    State.Tame P { s with scopes := (s.scopes.pushScope s.activation.context).2 } where
  sound := hs.sound.pushScope hs.sound.here
  memory := hs.memory
  frames r hr p hp := by
    rw [State.global?_pushScope hs.sound]
    rcases Arena.pushScope_values_cases hs.sound.exact hr with ⟨hold, hvalues⟩ | ⟨hnew, -⟩
    · rw [hvalues] at hp
      exact hs.frames r hold p hp
    · rw [hnew] at hp
      cases hp
  module := hs.module

theorem Halts.inNewScope {X : Engine → Eval α} {Q : α → Memory → Prop} (hs : s.Tame P)
    (hconfined : ∀ m, Confined Activation.context (X (P.engine m)))
    (hx : Halts P X { s with scopes := (s.scopes.pushScope s.activation.context).2 } Q) :
    Halts P (fun e => Eval.inNewScope (X e)) s Q := by
  obtain ⟨⟨o, t⟩, n, hrun, hr⟩ := hx
  obtain ⟨own, hinside⟩ := hr.reaches.settles
  have hpushed := hs.pushScope
  have hself : ∀ {u : State} {own : List ScopeId} {o : Outcome Unit},
      Settles own { s with scopes := (s.scopes.pushScope s.activation.context).2 } (o, u) →
        (u.scopes.context s.activation.context).scopes =
          (s.scopes.pushScope s.activation.context).1 ::
            (s.scopes.context s.activation.context).scopes := by
    intro u own o h
    rw [(h.scopes.context _ (.opened hpushed.sound.here)).scopes,
      Arena.context_pushScope hs.sound.here.1, if_pos rfl]
  have hpopped : ∀ m, n ≤ m → Eval.inNewScope (X (P.engine m)) s =
      (o, t.dropScope s.activation.context (s.scopes.pushScope s.activation.context).1) := by
    intro m hm
    show poppingScope s.activation.context (s.scopes.pushScope s.activation.context).1
      (X (P.engine m)) { s with scopes := (s.scopes.pushScope s.activation.context).2 } = _
    unfold poppingScope
    rw [hrun m hm]
    dsimp only
    rw [Arena.popFault?_eq_none (hself hinside)]
  have hsettles := (hconfined n).inNewScope s hs.sound hs.sound.here
  rw [hpopped n le_rfl] at hsettles
  have hlet := hr.reaches.trans (.of_sheds hr.reaches.tame hr.reaches.tame.sound.lettingGo)
  obtain ⟨_, hlast⟩ := hlet.settles
  refine ⟨_, n, hpopped, .of_settles hs hsettles hlet.tame.memory hlet.lists ?_, hr.halted,
    fun a ha => ?_, fun error herror => ?_⟩
  · intro r hr p hp
    have hlt := hlet.tame.sound.exact.scope_lt s.activation.context _
      (by rw [hself hlast]; exact List.mem_cons_self)
    rw [← State.global?_pushScope hs.sound, ← hlast.global? hpushed.sound]
    obtain ⟨hold, hframe⟩ := Arena.frame_dropScope hlt hsettles.sound.exact hr
    exact hlet.tame.frames r hold p (hframe.mem_values hp)
  · rw [(t.trims_dropScope _ _).memory]
    exact hr.answer a ha
  · rw [(t.trims_dropScope _ _).memory]
    exact hr.error error herror

/-! ### Activations -/

theorem Halts.withActivation {X : Engine → Eval α} {Q : α → Memory → Prop} {activation : Activation}
    (hs : s.Tame P) (hopen : s.scopes.Open activation.context)
    (hconfined : ∀ m, Confined Activation.context (X (P.engine m)))
    (hx : Halts P X { s with activation := activation, depth := s.depth + 1 } Q) :
    Halts P (fun e => Eval.withActivation activation (X e)) s Q := by
  obtain ⟨⟨o, t⟩, n, hrun, hr⟩ := hx
  obtain ⟨own, hinside⟩ := hr.reaches.settles
  have hback : ∀ m, n ≤ m → Eval.withActivation activation (X (P.engine m)) s =
      (o, { t with activation := s.activation, depth := s.depth }) := by
    intro m hm
    unfold Eval.withActivation
    dsimp only
    rw [hrun m hm]
  have hsettles := Settles.withActivation activation hs.sound hopen (hconfined n)
  rw [hback n le_rfl] at hsettles
  refine ⟨_, n, hback, .of_settles hs hsettles hr.reaches.tame.memory hr.reaches.lists ?_,
    hr.halted, hr.answer, hr.error⟩
  intro r hu p hp
  have hglobal : t.global? = s.global? := hinside.global? { hs.sound with here := hopen }
  rw [← hglobal]
  exact hr.reaches.tame.frames r hu p hp

/-- A context that is added behind another one is all that is new. -/
theorem State.Reaches.of_adds {c p : ContextId} {base : ScopeId} {scopes : Arena Value}
    (hs : s.Tame P) (hsound : State.Sound { s with scopes := scopes })
    (hadds : s.scopes.Adds scopes c { scopes := [base], parent := some p } [base]) :
    s.Reaches P { s with scopes := scopes } := by
  have hsettles : Settles [] s ((.ok c : Outcome ContextId), { s with scopes := scopes }) :=
    .of_adds hs.sound hsound (.refl _) hadds c
  refine .of_bound hs hsettles hs.memory le_rfl fun r hr p hp => ?_
  rcases hadds.values_cases hr with ⟨hold, hvalues⟩ | ⟨hnew, -⟩
  · rw [hvalues] at hp
    exact ⟨hold, hp⟩
  · rw [hnew] at hp
    cases hp

/-- A computation runs in a context that was added for it, which is given up after it. -/
theorem Halts.releasing {c p : ContextId} {base : ScopeId} {scopes : Arena Value}
    {X : Engine → Eval α} {Q : α → Memory → Prop} (hs : s.Tame P)
    (hsound : State.Sound { s with scopes := scopes })
    (hadds : s.scopes.Adds scopes c { scopes := [base], parent := some p } [base])
    (hconfined : ∀ m, Confined (fun _ => c) (X (P.engine m)))
    (hx : Halts P X { s with scopes := scopes } Q) :
    ∃ r n, (∀ m, n ≤ m → Eval.releasing c (X (P.engine m)) { s with scopes := scopes } = r) ∧
      Ends P s Q r := by
  have hopen : scopes.Open c := ⟨(hadds.inUse c).mpr (.inl rfl), hadds.context_new.captured⟩
  obtain ⟨⟨o, t⟩, n, hrun, hr⟩ := hx
  have hlet := hr.reaches.trans (.of_sheds hr.reaches.tame hr.reaches.tame.sound.lettingGo)
  obtain ⟨own, hinside⟩ := hlet.settles
  have hall := (State.Reaches.of_adds hs hsound hadds).trans hlet
  have hold : ∀ d, s.scopes.InUse d → d ≠ c := by
    rintro d hd rfl
    exact hadds.fresh hd
  have hroot : t.lettingGo.root ≠ c := by
    obtain ⟨_, h⟩ := hall.settles
    rw [h.root]
    exact hold _ hs.sound.root.1
  have hhere : t.lettingGo.activation.context ≠ c := by
    rw [hall.activation]
    exact hold _ hs.sound.here.1
  -- the base is all that is left of the context
  have hagree := hinside.scopes.context c (.opened hopen)
  obtain ⟨b, hrelease, hsound', hsurvives⟩ := hlet.tame.sound.release (hinside.stays_open hopen)
    (hagree.scopes.trans hadds.context_new.scopes) hroot hhere
  have hback : ∀ m, n ≤ m → Eval.releasing c (X (P.engine m)) { s with scopes := scopes } =
      (o, { t.lettingGo with scopes := b }) := by
    intro m hm
    unfold Eval.releasing State.releaseContext
    rw [hrun m hm]
    dsimp only
    rw [hrelease]
    rfl
  have hrest := hconfined n _ hsound hopen
  dsimp only at hrest
  rw [hadds.context_new.scopes] at hrest
  have hsettles := Settles.releasing hs.sound hadds hrest
  rw [hback n le_rfl] at hsettles
  refine ⟨_, n, hback, .of_settles hs hsettles hlet.tame.memory hall.lists ?_, hr.halted,
    fun a ha => ?_, fun error herror => ?_⟩
  · intro r hu p hp
    obtain ⟨_, h⟩ := hall.settles
    rw [← h.global? hs.sound]
    obtain ⟨huse, hframe⟩ := hsurvives.frame r hu
    exact hlet.tame.frames r huse p (hframe.mem_values hp)
  · show Q a t.lettingGo.memory
    rw [t.trims_lettingGo.memory]
    exact hr.answer a ha
  · show error.raised.FitsIn t.lettingGo.memory
    rw [t.trims_lettingGo.memory]
    exact hr.error error herror

/-- A call is opened for a computation, and given up after it, unless its function is gone. -/
theorem Halts.entering {r : FunctionRef} {f : Function} {X : ContextId → Engine → Eval α}
    {Q : α → Memory → Prop} (hs : s.Tame P) (hf : s.memory.function? r = some f)
    (hconfined : ∀ c m, Confined (fun _ => c) (X c (P.engine m)))
    (hx : ∀ c t, s.Reaches P t → t.scopes.Open c → Halts P (X c) t Q) :
    Halts P (fun e => enterContext r f >>= fun c => Eval.releasing c (X c e)) s Q := by
  obtain ⟨t, -, hsheds, ⟨hgone, hstale⟩ | ⟨c, scopes, base, henter, hsound, hadds⟩⟩ :=
    enterContext_spec hs.sound hf
  · have ht := State.Reaches.of_sheds hs hsheds
    refine ⟨(.stopped .stale, t), 0, fun m _ => ?_, .stopped ht (ht.excuses (.inr ⟨rfl, r, ?_⟩))⟩
    · dsimp only
      rw [bind_apply, hstale]
    · exact fun hspares => hspares.1 hgone
  · have ht := State.Reaches.of_sheds hs hsheds
    have hadded := State.Reaches.of_adds ht.tame hsound hadds
    have hopen : scopes.Open c := ⟨(hadds.inUse c).mpr (.inl rfl), hadds.context_new.captured⟩
    obtain ⟨result, n, hrun, hends⟩ :=
      Halts.releasing ht.tame hsound hadds (hconfined c) (hx c _ (ht.trans hadded) hopen)
    refine ⟨result, n, fun m hm => ?_, hends.after ht⟩
    dsimp only
    rw [bind_apply, henter]
    exact hrun m hm

/-! ### Errors and loops -/

namespace Halts

variable {X : Engine → Eval Completion} {Q : Completion → Memory → Prop}

theorem recording (statement : Statement) (hx : Halts P X s Q) :
    Halts P (fun e => Classlet.recording statement (X e)) s Q := by
  obtain ⟨⟨o, t⟩, n, hrun, hr⟩ := hx
  cases o with
  | ok a =>
      refine ⟨(.ok a, t), n, fun m hm => ?_, hr⟩
      simp only [Classlet.recording, hrun m hm]
  | raised error =>
      refine ⟨(.raised (error.record t.depth (t.traceFrame statement)), t), n, fun m hm => ?_,
        .raised hr.reaches ?_⟩
      · simp only [Classlet.recording, hrun m hm]
      · rw [RuntimeError.raised_record]
        exact hr.error error rfl
  | stopped why =>
      refine ⟨(.stopped why, t), n, fun m hm => ?_, hr⟩
      simp only [Classlet.recording, hrun m hm]

theorem tracing (hx : Halts P X s Q) : Halts P (fun e => Classlet.tracing (X e)) s Q := by
  obtain ⟨⟨o, t⟩, n, hrun, hr⟩ := hx
  cases o with
  | ok a =>
      refine ⟨(.ok a, t), n, fun m hm => ?_, hr⟩
      simp only [Classlet.tracing, hrun m hm]
  | raised error =>
      refine ⟨(.raised error, { t with lastTrace := error.trace }), n, fun m hm => ?_,
        .raised (hr.reaches.trans ?_) (hr.error error rfl)⟩
      · simp only [Classlet.tracing, hrun m hm]
      · have htame := hr.reaches.tame
        have hsettles :
            Settles [] t ((.ok () : Outcome Unit), { t with lastTrace := error.trace }) :=
          .of_scopes htame.sound rfl rfl (.refl _) rfl rfl rfl rfl rfl (.ok ())
        exact .of_bound htame hsettles htame.memory le_rfl fun r hr p hp => ⟨hr, hp⟩
  | stopped why =>
      refine ⟨(.stopped why, t), n, fun m hm => ?_, hr⟩
      simp only [Classlet.tracing, hrun m hm]

theorem handling {handler : RuntimeError → Engine → Eval Completion} (hx : Halts P X s Q)
    (hhandler : ∀ (error : RuntimeError) t, s.Reaches P t → error.raised.FitsIn t.memory →
      Halts P (handler error) t Q) :
    Halts P (fun e => Classlet.handling (X e) fun error => handler error e) s Q := by
  obtain ⟨⟨o, t⟩, n, hrun, hr⟩ := hx
  cases o with
  | ok a =>
      refine ⟨(.ok a, t), n, fun m hm => ?_, hr⟩
      simp only [Classlet.handling, hrun m hm]
  | raised error =>
      obtain ⟨r, k, hrest, hk⟩ := hhandler error t hr.reaches (hr.error error rfl)
      refine ⟨r, max n k, fun m hm => ?_, hk.after hr.reaches⟩
      simp only [Classlet.handling, hrun m (by omega), hrest m (by omega)]
  | stopped why =>
      refine ⟨(.stopped why, t), n, fun m hm => ?_, hr⟩
      simp only [Classlet.handling, hrun m hm]

end Halts

end Classlet
