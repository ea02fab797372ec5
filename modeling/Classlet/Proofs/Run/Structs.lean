import Classlet.Proofs.Memory.Separation
import Classlet.Proofs.Run.Variables
import Mathlib.Data.Set.Basic

/-! # Struct values are held once

Variables and fields hold struct values of their own: what is assigned, passed or stored in a field
is copied first.  The receiver of a call is the exception, since a method can change the struct
value that it is called on (`Moment.Receives`).  So at every moment of a run, a struct value is in
one cell only among the fields and the variables that are no receivers (`Moment.Apart`), and what is
written to it there shows in no other cell.

Elements of lists and tuples are no cells of this kind.  A display copies its elements, but packing,
repeating, joining and slicing do not. -/

namespace Classlet

open Eval

/-- A variable or a field, as a place for a struct value. -/
inductive Cell where
  | variable (scope : ScopeId) (name : String)
  | field (index : Nat) (name : String)

abbrev Variable := ScopeId × String

namespace Moment

variable {m m' : Moment} {receivers receivers' : Set Variable}

/-! ### Receivers -/

/-- A step binds a variable to the receiver of a call, a struct value that is not copied. -/
def Receives (m m' : Moment) (x : Variable) : Prop :=
  ∃ c rest v, m.pending = .call c :: rest ∧ m.state.scopes.innermost c = .ok x.1 ∧ v.isStruct ∧
    m' = m.withState (defineShared c x.2 v m.state).2

/-- The variables that are bound to receivers after a step: their frames are in use, or they come
with the step. -/
def receiversAfter (m m' : Moment) (receivers : Set Variable) : Set Variable :=
  { x | (x ∈ receivers ∧ m'.state.scopes.FrameInUse x.1) ∨ m.Receives m' x }

/-- On the way to a moment, variables have been bound to receivers. -/
inductive Receivers : Set Variable → Moment → Prop where
  | start : Receivers ∅ start
  | step {receivers : Set Variable} {m m' : Moment} : Receivers receivers m → m.Step m' → m'.Fit →
      Receivers (m.receiversAfter m' receivers) m'

theorem Receivers.fit (h : Receivers receivers m) : m.Fit := by
  cases h with
  | start => exact fit_start
  | step _ _ hfit => exact hfit

/-- Where no call is pending, nothing is received. -/
theorem Receivers.idle (h : Receivers ∅ m) (hidle : m.pending = []) (hstep : m.Step m')
    (hfit : m'.Fit) : Receivers ∅ m' := by
  have hnone : m.receiversAfter m' ∅ = ∅ := by
    refine Set.eq_empty_iff_forall_notMem.mpr fun x hx => ?_
    rcases hx with ⟨hx, -⟩ | ⟨c, rest, v, hpending, -⟩
    · exact hx
    · cases hidle.symm.trans hpending
  exact hnone ▸ h.step hstep hfit

/-- What comes after a moment has receivers, too. -/
theorem Receivers.leads (h : Receivers receivers m) (hleads : m.Leads m') :
    ∃ receivers', Receivers receivers' m' := by
  induction hleads with
  | refl _ => exact ⟨receivers, h⟩
  | step _ hstep hfit ih =>
      obtain ⟨receivers', h'⟩ := ih
      exact ⟨_, h'.step hstep hfit⟩

/-! ### Cells -/

def struct? (m : Moment) : Cell → Option Nat
  | .variable scope name => (m.value? scope name).bind Value.struct?
  | .field i name => m.state.memory.heldIn? i name

/-- A cell is a field, or a variable in use that is no receiver. -/
def Owner (m : Moment) (receivers : Set Variable) : Cell → Prop
  | .variable scope name => m.state.scopes.FrameInUse scope ∧ (scope, name) ∉ receivers
  | .field .. => True

/-- Struct values are in one cell each, and nest without cycles. -/
structure Apart (receivers : Set Variable) (m : Moment) : Prop where
  nests : m.state.memory.Nests
  known : ∀ a n, m.Owner receivers a → m.struct? a = some n → n < m.state.memory.instances.size
  once : ∀ a b n, m.Owner receivers a → m.Owner receivers b →
    m.struct? a = some n → m.struct? b = some n → a = b

namespace Apart

theorem mono (h : Apart receivers m)
    (hmore : ∀ x ∈ receivers, m.state.scopes.FrameInUse x.1 → x ∈ receivers') :
    Apart receivers' m := by
  have howner : ∀ {a}, m.Owner receivers' a → m.Owner receivers a := by
    intro a ha
    cases a with
    | «variable» scope name => exact ⟨ha.1, fun hmem => ha.2 (hmore _ hmem ha.1)⟩
    | field i name => trivial
  exact ⟨h.nests, fun a n ha => h.known a n (howner ha),
    fun a b n ha hb => h.once a b n (howner ha) (howner hb)⟩

/-- Struct values stay apart if fields evolve, and at most one variable gets a struct value, which
is new and in no field. -/
theorem evolve (h : Apart receivers m) (hevolves : m.state.memory.Evolves m'.state.memory)
    (x : Option Variable) (hvariables : ∀ scope name n, m'.Owner receivers' (.variable scope name) →
      m'.struct? (.variable scope name) = some n →
      (m.Owner receivers (.variable scope name) ∧ m.struct? (.variable scope name) = some n) ∨
        (x = some (scope, name) ∧ m.state.memory.Loose m'.state.memory n)) :
    Apart receivers' m' := by
  constructor
  case nests => exact hevolves.nests
  case known =>
    intro a n ha hn
    cases a with
    | «variable» scope name =>
        rcases hvariables scope name n ha hn with ⟨hold, hn⟩ | ⟨-, hloose⟩
        · exact (h.known _ n hold hn).trans_le hevolves.size_le
        · exact hloose.lt
    | field i name => exact hevolves.nests.lt hn
  case once =>
    intro a b n ha hb hna hnb
    by_cases hn : m.state.memory.instances.size ≤ n
    · -- a new struct value came to a field, or to the one variable
      have hx : ∀ {scope name}, m'.Owner receivers' (.variable scope name) →
          m'.struct? (.variable scope name) = some n →
          x = some (scope, name) ∧ m.state.memory.Loose m'.state.memory n := by
        intro scope name ha hna
        refine (hvariables scope name n ha hna).resolve_left fun hold => ?_
        exact Nat.not_lt.mpr hn (h.known _ n hold.1 hold.2)
      cases a with
      | «variable» scope name =>
          obtain ⟨hxa, hloose⟩ := hx ha hna
          cases b with
          | «variable» scope' name' =>
              cases hxa.symm.trans (hx hb hnb).1
              rfl
          | field j name' => exact absurd hnb (hloose.free j name')
      | field i name =>
          cases b with
          | «variable» scope' name' => exact absurd hna ((hx hb hnb).2.free i name)
          | field j name' =>
              obtain ⟨rfl, rfl⟩ := hevolves.once i j name name' n hn hna hnb
              rfl
    · have hold : ∀ {a}, m'.Owner receivers' a → m'.struct? a = some n →
          m.Owner receivers a ∧ m.struct? a = some n := by
        intro a ha hna
        cases a with
        | «variable» scope name =>
            exact (hvariables scope name n ha hna).resolve_right fun hnew => hn hnew.2.new
        | field i name =>
            exact ⟨trivial, (hevolves.fields i name n hna).resolve_right hn⟩
      obtain ⟨ha, hna⟩ := hold ha hna
      obtain ⟨hb, hnb⟩ := hold hb hnb
      exact h.once a b n ha hb hna hnb

/-- A variable is bound to a struct value that is new and in no field, or becomes a receiver. -/
theorem bind (h : Apart receivers m) {scope : ScopeId} {name : String} {w : Value} {k : Memory}
    (hscope : scope.index < m.state.scopes.frames.size)
    (hevolves : m.state.memory.Evolves k)
    (hmore : ∀ x ∈ receivers, m.state.scopes.FrameInUse x.1 → x ∈ receivers')
    (hw : ∀ n, w.struct? = some n →
      (scope, name) ∈ receivers' ∨ m.state.memory.Loose k n) :
    Apart receivers' (m.withState { m.state with
      memory := k, scopes := m.state.scopes.bind scope name w }) := by
  refine h.evolve hevolves (some (scope, name)) fun r other n hr hn => ?_
  have hin : m.state.scopes.FrameInUse r := (Arena.frameInUse_bind scope name w r).mp hr.1
  have hvalue : (((m.state.scopes.bind scope name w).frame r).values.get? other).bind
      Value.struct? = some n := hn
  have hold : m.Owner receivers (.variable r other) :=
    ⟨hin, fun hmem => hr.2 (hmore _ hmem hin)⟩
  rw [Arena.values_bind hscope] at hvalue
  split at hvalue
  · rename_i he
    subst he
    by_cases hname : name = other
    · subst hname
      rw [Bindings.get?_insert_self] at hvalue
      exact .inr ⟨rfl, (hw n hvalue).resolve_left hr.2⟩
    · rw [Bindings.get?_insert_of_ne _ _ hname] at hvalue
      exact .inl ⟨hold, hvalue⟩
  · exact .inl ⟨hold, hvalue⟩

theorem bindCopy (h : Apart receivers m) {scope : ScopeId}
    (hscope : scope.index < m.state.scopes.frames.size) (name : String) (v : Value)
    (hmore : ∀ x ∈ receivers, m.state.scopes.FrameInUse x.1 → x ∈ receivers') :
    Apart receivers' (m.withState { m.state with
      toStore := m.state.toStore.bindCopy scope name v }) := by
  have hgrows := Memory.grows_copyForBinding h.nests v
  refine h.bind hscope (.of_grows hgrows h.nests) hmore fun n hn => .inr ?_
  exact hgrows.isLoose h.nests (Option.mem_toList.mpr hn)

end Apart

/-! ### Steps -/

theorem mem_receiversAfter {x : Variable} (hx : x ∈ receivers)
    (hin : m'.state.scopes.FrameInUse x.1) : x ∈ m.receiversAfter m' receivers :=
  .inl ⟨hx, hin⟩

/-- A rule finds the scope in which a variable is bound, or nothing changes. -/
theorem Apart.bindAt {place : Store → Except BindFault ScopeId} {f : Store → ScopeId → Store}
    (h : Apart receivers m) (he : m' = m.withState (bindAt place f m.state).2)
    (hf : ∀ scope, place m.state.toStore = .ok scope →
      m' = m.withState { m.state with toStore := f m.state.toStore scope } →
      Apart (m.receiversAfter m' receivers) m') : Apart (m.receiversAfter m' receivers) m' := by
  rcases bindAt_cases place f m.state with hsame | ⟨scope, hplace, hbind⟩
  · obtain rfl : m' = m := by rw [he, hsame, withState]
    exact h.mono fun x => mem_receiversAfter
  · exact hf scope hplace (by rw [he, hbind])

theorem Apart.bindAt_copy {place : Store → Except BindFault ScopeId} {name : String} {v : Value}
    (h : Apart receivers m)
    (hplace : ∀ scope, place m.state.toStore = .ok scope →
      scope.index < m.state.scopes.frames.size)
    (he : m' = m.withState (Eval.bindAt place (fun t r => t.bindCopy r name v) m.state).2) :
    Apart (m.receiversAfter m' receivers) m' := by
  refine h.bindAt he fun scope hscope hm' => ?_
  subst hm'
  exact h.bindCopy (hplace scope hscope) name v fun x hx hin =>
    mem_receiversAfter hx ((Arena.frameInUse_bind _ _ _ _).mpr hin)

theorem Apart.bindNew (h : Apart receivers m) (hm : m.Fit) {c : ContextId} {shared : Bool}
    {name : String} {v : Value} (hcall : shared → ∃ rest, m.pending = .call c :: rest)
    (he : m' = m.withState (Eval.bindNew c shared name v m.state).2) :
    Apart (m.receiversAfter m' receivers) m' := by
  have hplace : ∀ scope, m.state.toStore.newPlace c name = .ok scope →
      m.state.scopes.innermost c = .ok scope ∧ scope.index < m.state.scopes.frames.size := by
    intro scope hscope
    have htop := Store.innermost_of_newPlace hscope
    exact ⟨htop, hm.sound.exact.scope_lt c scope (Arena.mem_of_innermost htop)⟩
  cases shared with
  | false =>
      have hdefine : m' = m.withState (Eval.bindAt (fun t => t.newPlace c name)
        (fun t r => t.bindCopy r name v) m.state).2 := he
      exact h.bindAt_copy (fun scope hscope => (hplace scope hscope).2) hdefine
  | true =>
      have hdefine : m' = m.withState (Eval.bindAt (fun t => t.newPlace c name)
        (fun t r => t.bindShared r name v) m.state).2 := he
      refine h.bindAt hdefine fun scope hscope hm' => ?_
      obtain ⟨rest, hpending⟩ := hcall rfl
      obtain ⟨htop, hlt⟩ := hplace scope hscope
      have hreceives : v.isStruct → m.Receives m' (scope, name) :=
        fun hv => ⟨c, rest, v, hpending, htop, hv, he⟩
      clear he hdefine
      subst hm'
      refine h.bind hlt (.of_instances h.nests rfl) ?_ fun n hn => .inl (.inr (hreceives ?_))
      · exact fun x hx hin => mem_receiversAfter hx ((Arena.frameInUse_bind _ _ _ _).mpr hin)
      · by_contra hv
        rw [Value.struct?_eq_none (eq_false_of_ne_true hv)] at hn
        cases hn

theorem evolves_bindAt {place : Store → Except BindFault ScopeId} {f : Store → ScopeId → Store}
    (hf : ∀ (t : Store) (r : ScopeId), t.memory.Nests → t.memory.Evolves (f t r).memory)
    {s : State} (hk : s.memory.Nests) : s.memory.Evolves (Eval.bindAt place f s).2.memory := by
  rcases bindAt_cases place f s with hsame | ⟨scope, -, hbind⟩
  · rw [hsame]
    exact .of_instances hk rfl
  · rw [hbind]
    exact hf s.toStore scope hk

theorem evolves_bindCopy (t : Store) (r : ScopeId) (name : String) (v : Value)
    (hk : t.memory.Nests) : t.memory.Evolves (t.bindCopy r name v).memory :=
  .of_grows (Memory.grows_copyForBinding hk v) hk

/-- Every step lets the struct values in fields evolve. -/
theorem Step.evolves (h : m.Step m') (hk : m.state.memory.Nests) :
    m.state.memory.Evolves m'.state.memory := by
  cases h with
  | worked hworks => exact hworks.objects hk
  | collected hcollects => exact .of_instances hk (by rw [← hcollects.trims.memory]; rfl)
  | captured decl returns _ => exact .of_instances hk rfl
  | assigned name v => exact evolves_bindAt (fun t r => evolves_bindCopy t r name v) hk
  | bound c shared name v _ _ =>
      unfold Eval.bindNew Eval.defineShared Eval.define
      split
      · exact evolves_bindAt (f := fun t r => t.bindShared r name v)
          (fun _ _ hk => .of_instances hk rfl) hk
      · exact evolves_bindAt (fun t r => evolves_bindCopy t r name v) hk
  | opened => exact .of_instances hk rfl
  | closed _ _ => exact .of_instances hk rfl
  | called _ henter =>
      rw [(openCall_eq_ok henter).2]
      exact .of_instances hk rfl
  | began _ _ _ => exact .of_instances hk rfl
  | ended _ => exact .of_instances hk rfl
  | returned _ _ _ _ _ => exact .of_instances hk rfl
  | module hstep =>
      cases hstep with
      | imported _ _ _ hnew =>
          exact .of_instances hk (congrArg (fun r => r.2.memory.instances) hnew).symm
      | evaluated _ hnew =>
          exact .of_instances hk (congrArg (fun r => r.2.memory.instances) hnew).symm
      | completed exports _ => exact .of_instances hk rfl
      | failed trace _ => exact .of_instances hk rfl

/-- **One step keeps struct values apart.** -/
theorem Step.apart (h : m.Step m') (hm : m.Fit) (hm' : m'.Fit) (hapart : Apart receivers m) :
    Apart (m.receiversAfter m' receivers) m' := by
  by_cases hassigned : ∃ name v,
      m' = m.withState (Eval.assign m.state.activation.context name v m.state).2
  · obtain ⟨name, v, he⟩ := hassigned
    refine hapart.bindAt_copy (fun scope hscope => ?_) he
    have hmem := (Store.place_spec (hm.sound.stack_ne _ hm.sound.here.1)).1 scope hscope
    exact hm.sound.exact.scope_lt _ scope hmem
  by_cases hbound : ∃ c shared name v, m' = m.withState (Eval.bindNew c shared name v m.state).2 ∧
      (shared → ∃ rest, m.pending = .call c :: rest)
  · obtain ⟨c, shared, name, v, he, hcall⟩ := hbound
    exact hapart.bindNew hm hcall he
  refine hapart.evolve (h.evolves hapart.nests) none fun scope name n howner hn => .inl ?_
  obtain ⟨hin, hnot⟩ := howner
  rcases h.frames hm hm' hin with
    (⟨hold, hvalues⟩ | ⟨hempty, -⟩) | hassign | ⟨c, shared, other, v, he, -, hcall⟩
  · refine ⟨⟨hold, fun hmem => hnot (mem_receiversAfter hmem hin)⟩, ?_⟩
    rw [struct?, value?, ← hvalues]
    exact hn
  · rw [struct?, value?, hempty] at hn
    cases hn
  · exact absurd hassign hassigned
  · exact absurd ⟨c, shared, other, v, he, hcall⟩ hbound

/-! ### Runs -/

theorem apart_start : Apart ∅ start := by
  obtain ⟨hinstances, hvalues⟩ : start.state.memory.instances = #[] ∧
      ∀ f ∈ start.state.scopes.frames, ∀ p ∈ f.values, p.2.isStruct = false := by
    decide +kernel
  have hat : ∀ i, start.state.memory.fieldsAt i = [] := by
    intro i
    rw [Memory.fieldsAt, hinstances]
    rfl
  have hnone : ∀ a, start.struct? a = none := by
    intro a
    cases a with
    | «variable» scope name =>
        cases hv : start.value? scope name with
        | none => rw [struct?, hv, Option.bind_none]
        | some v =>
            rw [struct?, hv, Option.bind_some]
            rw [value?, Arena.frame] at hv
            cases hf : start.state.scopes.frames[scope.index]? with
            | none =>
                rw [hf] at hv
                cases hv
            | some f =>
                rw [hf, Option.getD_some] at hv
                have hmem := Array.mem_of_getElem? hf
                exact Value.struct?_eq_none (hvalues f hmem _ (Bindings.mem_of_get? hv))
    | field i name =>
        rw [struct?, Memory.heldIn?, hat]
        rfl
  refine ⟨⟨fun _ => 0, fun i n hn => ?_⟩, fun a n _ ha => ?_, fun a b n _ _ ha => ?_⟩
  · rw [hat] at hn
    cases hn
  · cases (hnone a).symm.trans ha
  · cases (hnone a).symm.trans ha

/-- On the way to a later moment no instance is given up, and struct values still nest. -/
theorem Leads.nests (h : m.Leads m') (hk : m.state.memory.Nests) :
    m'.state.memory.Nests ∧
      m.state.memory.instances.size ≤ m'.state.memory.instances.size := by
  induction h with
  | refl _ => exact ⟨hk, le_rfl⟩
  | step _ hstep _ ih =>
      have hevolves := hstep.evolves ih.1
      exact ⟨hevolves.nests, ih.2.trans hevolves.size_le⟩

/-- An instance that no field holds is never held by one: fields only get copies. -/
theorem Leads.free (h : m.Leads m') (hk : m.state.memory.Nests) {n : Nat}
    (hn : m.state.memory.Free n) : m'.state.memory.Free n := by
  induction h with
  | refl _ => exact hn
  | step hleads hstep _ ih => exact (hstep.evolves (Leads.nests hleads hk).1).free ih

/-- Struct values are apart at every moment. -/
theorem Receivers.apart (h : Receivers receivers m) : Apart receivers m := by
  induction h with
  | start => exact apart_start
  | step hm hstep hm' ih => exact hstep.apart hm.fit hm' ih

/-- At every moment the struct value in a cell is there, and so are those in fields, and no instance
in its tree holds itself.  So all copies that a run makes come to an end. -/
theorem Receivers.treelike (h : Receivers receivers m) {a : Cell} (ha : m.Owner receivers a)
    {v : Value} (hv : m.struct? a = v.struct?) :
    m.state.memory.Backed v ∧ m.state.memory.Treelike v := by
  have hapart := h.apart
  have hknows : m.state.memory.Knows v := fun l hl => hapart.known a l ha (hv.trans hl)
  obtain ⟨x, hx⟩ := hapart.nests.exists_shows hknows
  exact ⟨hapart.nests.backed hknows, hx.treelike⟩

/-- **Struct values are held once.**  Take any moment of a run, and the variables that are bound to
receivers there.  Whatever is run next takes steps.  Two different cells among the fields and the
other variables hold different struct values, so that what is written to a field of the one leaves
the fields of the other as they are. -/
theorem structs_held_once (h : Receivers receivers m) :
    (∀ (settings : Settings) (loader : Loader) (fuel : Nat) (task : Task), task.Allowed m →
      ∃ hosted receivers', Receivers receivers'
        { m with state := (task.run (engine settings loader fuel) m.state).2, hosted := hosted }) ∧
    ∀ a b i j, m.Owner receivers a → m.Owner receivers b → a ≠ b →
      m.struct? a = some i → m.struct? b = some j →
      i ≠ j ∧ ∀ (r : InstanceRef) (name : String) (v : Value), r.index = i →
        (m.state.memory.bindField r name v).fieldsAt j = m.state.memory.fieldsAt j := by
  refine ⟨fun settings loader fuel task hallowed => ?_, fun a b i j ha hb hne hi hj => ?_⟩
  · obtain ⟨hosted, hleads⟩ := task.leads settings loader fuel h.fit hallowed
    exact ⟨hosted, h.leads hleads⟩
  · have hapart := h.apart
    have hij : i ≠ j := by
      rintro rfl
      exact hne (hapart.once a b i ha hb hi hj)
    refine ⟨hij, fun r name v hr => ?_⟩
    subst hr
    exact Memory.fieldsAt_bindField hapart.nests (hapart.known b j hb hj) hij.symm name v

/-- Two variables that a struct value is assigned to. -/
theorem structs_held_once_two_variables : ∃ (m : Moment) (receivers : Set Variable),
    Receivers receivers m ∧
    m.struct? (.variable ⟨0⟩ "p") = some 1 ∧ m.struct? (.variable ⟨0⟩ "q") = some 2 ∧
    ∀ (r : InstanceRef) (name : String) (v : Value), r.index = 1 →
      (m.state.memory.bindField r name v).fieldsAt 2 = m.state.memory.fieldsAt 2 := by
  let v : Value := .instance ⟨0, .nil, true⟩
  let m₁ := start.after (remember fun k => k.newInstance .nil [])
  let m₂ := m₁.after (context >>= fun c => assign c "p" v)
  let m₃ := m₂.after (context >>= fun c => assign c "q" v)
  have hmade : ∀ k : Moment,
      k.state.Works (k.after (remember fun k => k.newInstance .nil [])).state :=
    fun k => k.state.works_newInstance .nil fun _ hp => by cases hp
  have hassigned : ∀ (k : Moment) (name : String),
      k.Step (k.after (context >>= fun c => assign c name v)) := fun _ name => .assigned name v
  have hfit₁ : m₁.Fit := State.Fit.works fit_start (hmade start)
  have hfit₂ : m₂.Fit := (traced_assign "p" v m₁ hfit₁).last
  have hfit₃ : m₃.Fit := (traced_assign "q" v m₂ hfit₂).last
  have h₁ : Receivers ∅ m₁ := .idle .start rfl (.worked (hmade start)) hfit₁
  have h₂ : Receivers ∅ m₂ := .idle h₁ rfl (hassigned m₁ "p") hfit₂
  have h₃ : Receivers ∅ m₃ := .idle h₂ rfl (hassigned m₂ "q") hfit₃
  obtain ⟨hp, hq, hlt, hfree⟩ : m₃.struct? (.variable ⟨0⟩ "p") = some 1 ∧
      m₃.struct? (.variable ⟨0⟩ "q") = some 2 ∧
      0 < m₃.state.scopes.frames.size ∧ ⟨0⟩ ∉ m₃.state.scopes.freeFrames := by
    decide +kernel
  have howner : ∀ name, m₃.Owner ∅ (.variable ⟨0⟩ name) :=
    fun name => ⟨⟨hlt, hfree⟩, Set.notMem_empty _⟩
  have hne : Cell.variable ⟨0⟩ "p" ≠ .variable ⟨0⟩ "q" := fun h => by simp at h
  exact ⟨m₃, ∅, h₃, hp, hq,
    ((structs_held_once h₃).2 _ _ 1 2 (howner "p") (howner "q") hne hp hq).2⟩

end Moment

/-! ### Elements of tuples -/

/-- What a program prints that makes a tuple of a struct value and another value, and then writes to
the struct value. -/
def printedAfterTuple (tuple : String) : String :=
  (evaluateSource (engine {} (fun _ => .unknown) 8) ⟨"main"⟩
    ("struct P \x7b fun init(self, v) \x7b self.v = v; \x7d \x7d p = P(1); t = " ++ tuple ++
      "; p.v = 5; print(t[0].v);") none .initial).2.output

/-- A tuple that is packed shares the struct value with the variable, where a display copies it. -/
theorem packed_struct_is_shared :
    printedAfterTuple "p, 0" = "5\n" ∧ printedAfterTuple "(p, 0)" = "1\n" := by
  decide +kernel

end Classlet
