import Classlet.Proofs.Call.Arrangement
import Classlet.Proofs.Error.Handlers
import Classlet.Proofs.Memory.Content
import Classlet.Proofs.Run.Calls

/-! # The arguments of a call

A user function takes the arguments of a call if each of them has a parameter, each parameter has
an argument, and the class of every argument is accepted (`Function.Takes`).  Then the parameters
are bound to their arguments in the context of the call, and nothing else is
(`Function.ArgumentsBound`).  Otherwise that is a `TypeError` (`decides_bindArguments`).

Each part of the binding is decided by what it checks (`Decides`): checks that come one after the
other are decided by all of them together.  What has been bound in between are new names in one
scope, and copies (`Gains`), neither of which a later check looks at. -/

namespace Classlet

open Eval

variable {s t u : State} {c : ContextId} {base : ScopeId} {f : Function}

/-! ### Decided computations -/

/-- If `P` holds, a computation ends in a state with the property `Q`, and otherwise it raises a
`TypeError`. -/
def Decides (P : Prop) (x : Eval Unit) (s : State) (Q : State → Prop) : Prop :=
  (P ∧ ∃ t, x s = (.ok (), t) ∧ Q t) ∨
    (¬ P ∧ ∃ c t, x s = (.raised (.ofCause c), t) ∧ c.kind = .type)

namespace Decides

variable {P P' : Prop} {Q Q' : State → Prop} {x y : Eval Unit}

theorem mono (h : Decides P x s Q) (hP : P ↔ P') (hQ : ∀ t, Q t → Q' t) : Decides P' x s Q' := by
  rw [← propext hP]
  exact h.imp_left fun ⟨hP, t, hx, ht⟩ => ⟨hP, t, hx, hQ t ht⟩

/-- What comes after a check is decided where the check has succeeded. -/
theorem bind (hx : Decides P x s Q) (hy : ∀ t, Q t → Decides P' y t Q') :
    Decides (P ∧ P') (x >>= fun _ => y) s Q' := by
  rcases hx with ⟨hP, t, hx, ht⟩ | ⟨hP, c, t, hx, hkind⟩
  · have hbind : (x >>= fun _ => y) s = y t := by rw [bind_apply, hx]
    rcases hy t ht with ⟨hP', u, hy, hu⟩ | ⟨hP', c, u, hy, hkind⟩
    · exact .inl ⟨⟨hP, hP'⟩, u, hbind.trans hy, hu⟩
    · exact .inr ⟨fun h => hP' h.2, c, u, hbind.trans hy, hkind⟩
  · exact .inr ⟨fun h => hP h.1, c, t, by rw [bind_apply, hx], hkind⟩

theorem done (hP : P) (hQ : Q s) : Decides P (pure ()) s Q := .inl ⟨hP, s, rfl, hQ⟩

end Decides

/-! ### What has been bound -/

/-- New names have been bound in a scope, and copies have been added to memory. -/
structure Gains (s : State) (base : ScopeId) (new : Bindings Value) (t : State) : Prop where
  values : (t.scopes.frame base).values = (s.scopes.frame base).values ++ new
  contexts : t.scopes.contexts = s.scopes.contexts
  size : t.scopes.frames.size = s.scopes.frames.size
  adds : s.memory.Adds t.memory
  alters : s.memory.Alters t.memory
  nests : s.memory.Nests → t.memory.Nests

namespace Gains

variable {new more : Bindings Value}

theorem refl (s : State) (base : ScopeId) : Gains s base [] s where
  values := (List.append_nil _).symm
  contexts := rfl
  size := rfl
  adds := .refl _
  alters := .refl _
  nests := id

theorem trans (h₁ : Gains s base new t) (h₂ : Gains t base more u) :
    Gains s base (new ++ more) u where
  values := by rw [h₂.values, h₁.values, List.append_assoc]
  contexts := h₂.contexts.trans h₁.contexts
  size := h₂.size.trans h₁.size
  adds := h₁.adds.trans h₂.adds
  alters := h₁.alters.trans h₂.alters
  nests := h₂.nests ∘ h₁.nests

/-- Classes are as they were, and with them what annotations accept. -/
theorem accepts (h : Gains s base new t) (spec : TypeSpec) (owner : Option ClassRef)
    (c : ClassRef) : t.memory.accepts spec owner c = s.memory.accepts spec owner c := by
  unfold Memory.accepts Memory.isA
  simp only [Memory.chain_congr h.alters.classes]

end Gains

/-- A context expects bindings of some names: it has one scope, and the names are none of those that
the scope has. -/
structure Expects (c : ContextId) (base : ScopeId) (names : List String) (s : State) : Prop where
  stack : (s.scopes.context c).scopes = [base]
  lt : base.index < s.scopes.frames.size
  nodup : names.Nodup
  allowed : ∀ name ∈ names, isReserved name = false
  unbound : ∀ name ∈ names, (s.scopes.frame base).values.get? name = none

theorem Expects.left {names others : List String} (h : Expects c base (names ++ others) s) :
    Expects c base names s where
  stack := h.stack
  lt := h.lt
  nodup := (List.nodup_append.mp h.nodup).1
  allowed name hname := h.allowed name (List.mem_append_left _ hname)
  unbound name hname := h.unbound name (List.mem_append_left _ hname)

/-- After some names have been bound, the others are expected. -/
theorem Expects.after {names : List String} {new : Bindings Value}
    (h : Expects c base (new.map (·.1) ++ names) s) (hgains : Gains s base new t) :
    Expects c base names t where
  stack := by
    rw [Arena.context, hgains.contexts]
    exact h.stack
  lt := hgains.size.symm ▸ h.lt
  nodup := (List.nodup_append.mp h.nodup).2.1
  allowed name hname := h.allowed name (List.mem_append_right _ hname)
  unbound name hname := by
    have hnew : new.get? name = none := Bindings.get?_eq_none fun hm =>
      (List.nodup_append.mp h.nodup).2.2 name hm name hname rfl
    rw [hgains.values, Bindings.get?_append, hnew,
      h.unbound name (List.mem_append_right _ hname), Option.or_none]

/-- What is bound for a value: for a receiver the value itself, and otherwise a copy if it is a
struct value. -/
def Received (shared : Bool) (m : Memory) (v : Value) (n : Memory) (w : Value) : Prop :=
  if shared then w = v else m.Copied v n w

theorem Received.mono {shared : Bool} {k m n l : Memory} {v w : Value}
    (h : Received shared m v n w) (hm : k.Adds m) (hn : n.Adds l) : Received shared k v l w := by
  cases shared with
  | true => exact h
  | false => exact Memory.Copied.mono h hm hn

theorem decides_bindNew {name : String} {names : List String}
    (h : Expects c base (name :: names) s) (shared : Bool) (v : Value) :
    Decides True (if shared then defineShared c name v else define c name v) s fun t =>
      ∃ w, Gains s base [(name, w)] t ∧ Received shared s.memory v t.memory w := by
  have hname := h.allowed name List.mem_cons_self
  have hnew := h.unbound name List.mem_cons_self
  refine .inl ⟨trivial, ?_⟩
  cases shared with
  | true =>
    refine ⟨_, defineShared_of_stack v h.stack hname, v, ?_, rfl⟩
    refine ⟨?_, rfl, by simp [Store.bindShared, Arena.bind], .refl _, .refl _, id⟩
    rw [Store.bindShared, Arena.values_bind h.lt, if_pos rfl, Bindings.insert_of_new hnew]
  | false =>
    refine ⟨_, define_of_stack v h.stack hname, _, ?_, s.memory.copied_copyForBinding v⟩
    refine ⟨?_, rfl, by simp [Store.bindCopy, Arena.bind], s.memory.adds_copyForBinding v,
      s.memory.alters_copyForBinding v, fun hm => ?nests⟩
    case nests => exact (Memory.Evolves.of_grows (Memory.grows_copyForBinding hm v) hm).nests
    rw [Store.bindCopy, Arena.values_bind h.lt, if_pos rfl, Bindings.insert_of_new hnew]

/-! ### The parts of the binding -/

/-- A slot holds a value of a class that its parameter accepts. -/
def Function.Accepts (f : Function) (m : Memory) (slot : Slot) : Prop :=
  ∃ v, slot.2 = some v ∧ m.accepts slot.1.spec f.owner v.classRef = true

theorem Function.accepts_some {m : Memory} {p : ParamSpec} {v : Value} :
    f.Accepts m (p, some v) ↔ m.accepts p.spec f.owner v.classRef = true :=
  ⟨fun ⟨_, hw, h⟩ => Option.some.inj hw ▸ h, fun h => ⟨v, rfl, h⟩⟩

theorem Gains.accepts_slot {new : Bindings Value} (h : Gains s base new t) (slot : Slot) :
    f.Accepts t.memory slot ↔ f.Accepts s.memory slot := by
  simp only [Function.Accepts, h.accepts]

theorem decides_checkArgument (p : ParamSpec) (v : Value) :
    Decides (s.memory.accepts p.spec f.owner v.classRef = true)
      (checkArgument f p v) s (· = s) := by
  unfold checkArgument
  by_cases h : s.memory.accepts p.spec f.owner v.classRef = true
  · exact .inl ⟨h, s, if_pos h, rfl⟩
  · exact .inr ⟨h, _, s, if_neg h, rfl⟩

theorem decides_checkArguments (p : ParamSpec) : ∀ vs : List Value,
    Decides (∀ v ∈ vs, s.memory.accepts p.spec f.owner v.classRef = true)
      (checkArguments f p vs) s (· = s)
  | [] => .done (fun _ hv => nomatch hv) rfl
  | v :: vs => by
      rw [List.forall_mem_cons]
      refine (decides_checkArgument p v).bind fun t ht => ?_
      rw [ht]
      exact decides_checkArguments p vs

/-- What has been bound for slots: each parameter to what was received for its value, in order. -/
structure SlotsBound (shared : Bool) (slots : List Slot) (s : State) (base : ScopeId)
    (new : Bindings Value) (t : State) : Prop where
  gains : Gains s base new t
  names : new.map (·.1) = slots.map (·.1.name)
  received : ∀ i p v, slots[i]? = some (p, some v) → ∃ w, new[i]? = some (p.name, w) ∧
    Received (shared && i == 0) s.memory v t.memory w

theorem SlotsBound.cons {shared : Bool} {p : ParamSpec} {v w : Value} {slots : List Slot}
    {new : Bindings Value} (h₁ : Gains s base [(p.name, w)] t)
    (hw : Received shared s.memory v t.memory w) (h₂ : SlotsBound false slots t base new u) :
    SlotsBound shared ((p, some v) :: slots) s base ((p.name, w) :: new) u where
  gains := h₁.trans h₂.gains
  names := congrArg (p.name :: ·) h₂.names
  received
    | 0, q, x, hx => by
        have hslot : (p, some v) = (q, some x) := Option.some.inj hx
        cases hslot
        rw [BEq.rfl, Bool.and_true]
        exact ⟨w, rfl, hw.mono (.refl _) h₂.gains.adds⟩
    | i + 1, q, x, hx => by
        obtain ⟨y, hy, hreceived⟩ := h₂.received i q x hx
        refine ⟨y, hy, ?_⟩
        rw [Bool.false_and] at hreceived
        rw [show (i + 1 == 0) = false from rfl, Bool.and_false]
        exact hreceived.mono h₁.adds (.refl _)

theorem bindSlots_cons (shared : Bool) (p : ParamSpec) (v : Value) (slots : List Slot) :
    bindSlots f c shared ((p, some v) :: slots) = checkArgument f p v >>= fun _ =>
      (if shared then defineShared c p.name v else define c p.name v) >>= fun _ =>
        bindSlots f c false slots := by
  cases shared <;> rfl

/-- Parameters that take one argument are bound if all their slots are accepted. -/
theorem decides_bindSlots : ∀ (slots : List Slot) (shared : Bool) {s : State},
    Expects c base (slots.map (·.1.name)) s →
      Decides (∀ slot ∈ slots, f.Accepts s.memory slot) (bindSlots f c shared slots) s fun t =>
        ∃ new, SlotsBound shared slots s base new t
  | [], _, s, _ => .done (fun _ h => nomatch h) ⟨[], .refl s base, rfl, fun _ _ _ h => nomatch h⟩
  | (p, none) :: _, _, s, _ => by
      refine .inr ⟨fun h => ?_, _, s, rfl, rfl⟩
      obtain ⟨v, hv, -⟩ := h _ List.mem_cons_self
      cases hv
  | (p, some v) :: slots, shared, s, h => by
      rw [List.forall_mem_cons, Function.accepts_some, bindSlots_cons]
      refine (decides_checkArgument p v).bind fun t ht => ?_
      subst ht
      refine ((decides_bindNew h shared v).bind fun u hu => ?_).mono (.of_eq (true_and _))
        fun _ h => h
      obtain ⟨w, hgains, hw⟩ := hu
      refine (decides_bindSlots slots false (h.after hgains)).mono
        (forall₂_congr fun slot _ => hgains.accepts_slot slot) ?_
      rintro t ⟨new, hnew⟩
      exact ⟨_, .cons hgains hw hnew⟩

/-- A variadic parameter is bound to the tuple of its arguments if all of them are accepted. -/
theorem decides_bindRest : ∀ {rest : Option (ParamSpec × List Value)},
    Expects c base (rest.map fun r => r.1.name).toList s →
      Decides (∀ p vs, rest = some (p, vs) → ∀ v ∈ vs,
          s.memory.accepts p.spec f.owner v.classRef = true)
        (bindRest f c rest) s
        (Gains s base (rest.map fun r => (r.1.name, Value.tuple r.2)).toList)
  | none, _ => .done (fun _ _ h => nomatch h) (.refl s base)
  | some (p, vs), h => by
      have hbind : Decides True (define c p.name (.tuple vs)) s
          (Gains s base [(p.name, .tuple vs)]) := by
        refine (decides_bindNew h false (.tuple vs)).mono .rfl ?_
        rintro t ⟨w, hgains, hw⟩
        rwa [hw.same rfl] at hgains
      refine ((decides_checkArguments p vs).bind fun t ht => by rw [ht]; exact hbind).mono
        ?_ fun _ h => h
      rw [and_true]
      constructor
      · intro hall q ws hrest
        cases hrest
        exact hall
      · exact fun hall => hall p vs rfl

/-! ### All arguments -/

/-- A function takes the arguments of a call: each has a parameter, each parameter has one, and
their classes are accepted. -/
structure Function.Takes (f : Function) (m : Memory) (arguments : List Value)
    (keywords : KeywordValues) : Prop extends f.Places arguments keywords where
  filled : ∀ i p, f.fixed[i]? = some p → (givenFor? arguments keywords i p).isSome
  accepted : ∀ i p v, f.fixed[i]? = some p → givenFor? arguments keywords i p = some v →
    m.accepts p.spec f.owner v.classRef = true
  /-- The variadic parameter accepts each of the arguments that it collects. -/
  collected : ∀ p, f.variadic? = some p → ∀ v ∈ arguments.drop f.fixed.length,
    m.accepts p.spec f.owner v.classRef = true

/-- Arguments that have parameters are taken if each part of the binding accepts its own. -/
theorem Function.takes_iff {m : Memory} {arguments : List Value} {keywords : KeywordValues}
    (h : f.Places arguments keywords) : f.Takes m arguments keywords ↔
      (∀ slot ∈ f.slots arguments keywords, f.Accepts m slot) ∧
        ∀ p vs, (f.variadic?.map fun p => (p, arguments.drop f.fixed.length)) = some (p, vs) →
          ∀ v ∈ vs, m.accepts p.spec f.owner v.classRef = true := by
  rw [Function.forall_mem_slots]
  constructor
  · rintro ⟨-, hfilled, haccepted, hcollected⟩
    refine ⟨fun i p hp => ?_, fun p vs hrest => ?_⟩
    · obtain ⟨v, hv⟩ := Option.isSome_iff_exists.mp (hfilled i p hp)
      exact ⟨v, hv, haccepted i p v hp hv⟩
    · obtain ⟨q, hq, he⟩ := Option.map_eq_some_iff.mp hrest
      cases he
      exact hcollected p hq
  · rintro ⟨hslots, hrest⟩
    refine ⟨h, fun i p hp => ?_, fun i p v hp hv => ?_, fun p hp => hrest p _ (by rw [hp]; rfl)⟩
    · obtain ⟨v, hv, -⟩ := hslots i p hp
      exact Option.isSome_of_mem hv
    · exact Function.accepts_some.mp (hv ▸ hslots i p hp)

/-- What has been bound for the arguments of a call. -/
structure Function.ArgumentsBound (f : Function) (hasReceiver : Bool) (arguments : List Value)
    (keywords : KeywordValues) (s : State) (base : ScopeId) (new : Bindings Value) (t : State) :
    Prop where
  gains : Gains s base new t
  names : new.map (·.1) = f.params.map ParamSpec.name
  single : ∀ i p v, f.fixed[i]? = some p → givenFor? arguments keywords i p = some v →
    ∃ w, (p.name, w) ∈ new ∧ Received (hasReceiver && i == 0) s.memory v t.memory w
  collected : ∀ p, f.variadic? = some p →
    (p.name, .tuple (arguments.drop f.fixed.length)) ∈ new

theorem Function.params_names (f : Function) : f.params.map ParamSpec.name =
    f.fixed.map ParamSpec.name ++ (f.variadic?.map ParamSpec.name).toList := by
  rw [← f.fixed_append_variadic, List.map_append]
  cases f.variadic? <;> rfl

theorem Function.ArgumentsBound.of_parts {hasReceiver : Bool} {arguments : List Value}
    {keywords : KeywordValues} {new : Bindings Value}
    (h₁ : SlotsBound hasReceiver (f.slots arguments keywords) s base new t)
    (h₂ : Gains t base (f.variadic?.map fun p =>
      (p.name, Value.tuple (arguments.drop f.fixed.length))).toList u) :
    f.ArgumentsBound hasReceiver arguments keywords s base (new ++ (f.variadic?.map fun p =>
      (p.name, Value.tuple (arguments.drop f.fixed.length))).toList) u where
  gains := h₁.gains.trans h₂
  names := by
    rw [List.map_append, h₁.names, Function.names_slots, f.params_names]
    cases f.variadic? <;> rfl
  single i p v hp hv := by
    obtain ⟨w, hw, hreceived⟩ := h₁.received i p v (by rw [Function.getElem?_slots, hp, ← hv]; rfl)
    exact ⟨w, List.mem_append_left _ (List.mem_of_getElem? hw), hreceived.mono (.refl _) h₂.adds⟩
  collected p hp := by
    rw [hp]
    exact List.mem_append_right _ (List.mem_singleton_self _)

/-- **The arguments are bound if the function takes them.** -/
theorem decides_bindArguments (h : Expects c base (f.params.map ParamSpec.name) s)
    (hasReceiver : Bool) (arguments : List Value) (keywords : KeywordValues) :
    Decides (f.Takes s.memory arguments keywords)
      (bindArguments f c hasReceiver arguments keywords) s fun t =>
        ∃ new, f.ArgumentsBound hasReceiver arguments keywords s base new t := by
  rw [f.params_names, ← f.names_slots arguments keywords] at h
  have hnodup := (List.nodup_append.mp h.nodup).1
  rw [Function.names_slots] at hnodup
  unfold bindArguments
  rcases f.arrange_checks hnodup arguments keywords with ⟨hplaces, hok⟩ | ⟨hnot, c, herror, hkind⟩
  · rw [hok]
    rw [Function.takes_iff hplaces]
    refine (decides_bindSlots _ hasReceiver h.left).bind fun t ⟨new, hnew⟩ => ?_
    have hrest : Expects c base ((f.variadic?.map fun p =>
        (p, arguments.drop f.fixed.length)).map fun r => r.1.name).toList t := by
      rw [← hnew.names] at h
      rw [Option.map_map]
      exact h.after hnew.gains
    refine (decides_bindRest hrest).mono ?_ fun u hu => ?_
    · simp only [hnew.gains.accepts]
    · rw [Option.map_map] at hu
      exact ⟨_, .of_parts hnew hu⟩
  · rw [herror]
    exact .inr ⟨fun h => hnot h.toPlaces, c, s, rfl, hkind⟩

end Classlet
