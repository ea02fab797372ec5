import Classlet.Proofs.Assignment.Place
import Classlet.Proofs.Memory.Content

/-! # Passages of a place

A passage is a step of a place with the container that it is taken from and the value that lies
there.  An element of a list and an attribute of an instance are passed without any user code
(`Passage.Plain`): what has been stored there is held (`Plain.holds_store`), in copies of the
container as well, and what is stored in another spot, an element of a list or a field of an
instance, does not touch it (`Plain.read?_store`). -/

namespace Classlet

open Eval

/-! ### Reading and storing without user code -/

namespace Memory

variable {m n : Memory} {i j : InstanceRef} {l : ListRef} {name : String} {v w : Value}
  {x y : Content}

/-- Whether a value is bound to an instance when it is read from its class. -/
def isBound : Value → Bool
  | .function _ | .builtin _ => true
  | _ => false

/-- An attribute of an instance that is read as it is: a field, or an attribute of the class that is
no function. -/
def attribute? (m : Memory) (i : InstanceRef) (name : String) : Option Value :=
  (m.field? i name).or ((m.findAttribute? i.ofClass name).filter fun v => !isBound v)

/-- The position that an index value means in a list. -/
def position? (m : Memory) (l : ListRef) : Value → Option Nat
  | .int k => (position .list (m.elements l).size k).toOption
  | _ => none

/-- The element of a list at an index. -/
def element? (m : Memory) (l : ListRef) (index : Value) : Option Value :=
  match index with
  | .int k => (position .list (m.elements l).size k).toOption.map fun k =>
      (m.elements l)[k]?.getD .nil
  | _ => none

theorem element?_eq (m : Memory) (l : ListRef) (index : Value) :
    m.element? l index = (m.position? l index).map fun p => (m.elements l)[p]?.getD .nil := by
  cases index <;> rfl

theorem position?_congr {l : ListRef} (h : (n.elements l).size = (m.elements l).size)
    (index : Value) : n.position? l index = m.position? l index := by
  unfold position?
  rw [h]

theorem element?_congr {l : ListRef} (h : n.elements l = m.elements l) (index : Value) :
    n.element? l index = m.element? l index := by
  unfold element?
  rw [h]

end Memory

def Value.isMethod : Value → Bool
  | method _ => true
  | _ => false

variable {e : Engine} {s t u : State} {i : InstanceRef} {l : ListRef} {name : String} {v w : Value}
  {x y : Content}

theorem getAttribute_instance (s : State) : getAttribute (.instance i) name s =
    match s.memory.field? i name, s.memory.findAttribute? i.ofClass name with
    | some v, _ => (.ok v, s)
    | none, some (.function f) => getAttribute.bound i (.function f) s
    | none, some (.builtin f) => getAttribute.bound i (.builtin f) s
    | none, some v => (.ok v, s)
    | none, none => failWithType (.instance i) (fun typeName => .noAttribute typeName name) s := by
  unfold getAttribute
  dsimp only
  rw [bind_apply, readMemory]
  dsimp only
  cases hfield : s.memory.field? i name with
  | some v => rfl
  | none =>
    dsimp only
    rw [bind_apply, classAttribute?, readMemory]
    dsimp only
    cases hfind : s.memory.findAttribute? i.ofClass name with
    | some v => cases v <;> rfl
    | none => rfl

theorem getAttribute_of_attribute? (h : s.memory.attribute? i name = some w) :
    getAttribute (.instance i) name s = (.ok w, s) := by
  rw [getAttribute_instance]
  unfold Memory.attribute? at h
  cases hfield : s.memory.field? i name with
  | some v =>
    rw [hfield] at h
    cases h
    rfl
  | none =>
    rw [hfield, Option.none_or] at h
    obtain ⟨hfind, hbound⟩ := Option.filter_eq_some_iff.mp h
    rw [hfind]
    cases w <;> first | rfl | cases hbound

/-- What is read from an instance is a bound method, or it is read as it is. -/
theorem attribute?_of_getAttribute (h : getAttribute (.instance i) name s = (.ok w, u))
    (hw : w.isMethod = false) : s.memory.attribute? i name = some w ∧ u = s := by
  have hread : s.memory.attribute? i name = some w := by
    rw [getAttribute_instance] at h
    unfold Memory.attribute?
    cases hfield : s.memory.field? i name with
    | some v =>
      rw [hfield] at h
      cases h
      rfl
    | none =>
      rw [hfield] at h
      rw [Option.none_or]
      cases hfind : s.memory.findAttribute? i.ofClass name with
      | none =>
        rw [hfind] at h
        cases h
      | some v =>
        rw [hfind] at h
        cases v <;> cases h <;> first | rfl | cases hw
  rw [getAttribute_of_attribute? hread] at h
  cases h
  exact ⟨hread, rfl⟩

theorem indexOperation_list (e : Engine) (index : Value) :
    indexOperation e (.list l) index s = (.ok w, u) ↔
      s.memory.element? l index = some w ∧ u = s := by
  unfold indexOperation positionOf Memory.element?
  simp only [bind_apply, readMemory]
  cases index <;> try simp [failWithType, fail]
  rename_i k
  cases position .list (s.memory.elements l).size k <;>
    simp [Eval.ofExcept, fail, Except.toOption, eq_comm]

/-- The state after a value has been put into a list. -/
def State.withElement (s : State) (l : ListRef) (p : Nat) (v : Value) : State :=
  let (w, memory) := s.memory.copyForBinding v
  { s with memory := memory.modifyList l fun vs => vs.setIfInBounds p w }

theorem position_lt {kind : SequenceKind} {length p : Nat} {k : Int64}
    (h : position kind length k = .ok p) : p < length := by
  unfold position at h
  dsimp only at h
  generalize (if k.toInt < 0 then k.toInt + length else k.toInt) = n at h
  split at h
  · cases h
  · rename_i hrange
    cases h
    simp only [Bool.or_eq_true, decide_eq_true_eq, not_or] at hrange
    omega

/-- A value that is stored in a list is put where the index means. -/
theorem setIndexOperation_list (e : Engine) {index : Value}
    (h : setIndexOperation e (.list l) index v s = (.ok (), t)) :
    ∃ p, s.memory.position? l index = some p ∧ p < (s.memory.elements l).size ∧
      t = s.withElement l p v := by
  unfold setIndexOperation positionOf at h
  simp only [bind_apply, readMemory] at h
  cases index <;> try simp [failWithType, fail] at h
  rename_i k
  cases hp : position .list (s.memory.elements l).size k with
  | error c => simp [hp, Eval.ofExcept, fail] at h
  | ok p =>
    rw [hp] at h
    exact ⟨p, congrArg Except.toOption hp, position_lt hp, (congrArg Prod.snd h).symm⟩

/-! ### Passages -/

/-- A step of a place, with the container that it is taken from and the value that lies there: the
next container, or the value that is assigned. -/
structure Passage where
  container : Value
  step : PlaceStep
  value : Value

/-- Whether an object is not another one. -/
def Value.Apart : Value → Value → Prop
  | .list l, .list k => l ≠ k
  | .instance i, .instance j => i.index ≠ j.index
  | _, _ => True

/-- What a step leads to from a container without any user code. -/
def Memory.read? (m : Memory) : PlaceStep → Value → Option Value
  | .index k, .list l => m.element? l k.value
  | .attr name, .instance i => m.attribute? i name
  | _, _ => none

/-- Where a value lies: an element of a list, or a field of an instance. -/
inductive Spot where
  | element (l : ListRef) (p : Nat)
  | field (index : Nat) (name : String)

namespace Memory

/-- The spot that a step leads through without any user code. -/
def spot? (m : Memory) : PlaceStep → Value → Option Spot
  | .index k, .list l => (m.position? l k.value).map (.element l)
  | .attr name, .instance i => some (.field i.index name)
  | _, _ => none

theorem spot?_congr {m n : Memory} (h : ∀ l, (n.elements l).size = (m.elements l).size) :
    n.spot? = m.spot? := by
  funext st c
  unfold spot?
  split
  · rw [position?_congr (h _)]
  · rfl
  · rfl

/-- A spot belongs to the list or the instance that it is reached from. -/
theorem container_of_spot? {m : Memory} {st : PlaceStep} {c : Value} {spot : Spot}
    (h : m.spot? st c = some spot) :
    (∃ l p, c = .list l ∧ spot = .element l p) ∨
      ∃ i name, c = .instance i ∧ spot = .field i.index name := by
  unfold spot? at h
  split at h
  · obtain ⟨p, -, rfl⟩ := Option.map_eq_some_iff.mp h
    exact .inl ⟨_, p, rfl, rfl⟩
  · cases h
    exact .inr ⟨_, _, rfl, rfl⟩
  · cases h

end Memory

namespace Passage

variable {a b : Passage}

/-- What is stored at a passage lies in another spot than what is read at another one. -/
def Misses (m : Memory) (b a : Passage) : Prop :=
  ∀ spot, m.spot? b.step b.container = some spot → m.spot? a.step a.container ≠ some spot

theorem Misses.symm {m : Memory} (h : b.Misses m a) : a.Misses m b :=
  fun spot ha hb => h spot hb ha

theorem Misses.congr {m n : Memory} (h : n.spot? = m.spot?) (hmiss : b.Misses m a) :
    b.Misses n a := by
  unfold Misses at hmiss ⊢
  rwa [h]

/-- Different objects have different spots. -/
theorem misses_of_apart (m : Memory) (h : a.container.Apart b.container) : b.Misses m a := by
  intro spot hb ha
  rcases Memory.container_of_spot? ha with ⟨l, p, hc, rfl⟩ | ⟨i, name, hc, rfl⟩ <;>
    rcases Memory.container_of_spot? hb with ⟨k, q, hd, heq⟩ | ⟨j, other, hd, heq⟩ <;>
    rw [hc, hd] at h
  · exact h (Spot.element.inj heq).1
  · cases heq
  · cases heq
  · exact h (Spot.field.inj heq).1

/-- What is stored at a passage leaves what an earlier one leads to: it lies in another spot, or
both lead to the same value, which is no struct value. -/
def Spares (m : Memory) (b a : Passage) : Prop :=
  b.Misses m a ∨ a.value = b.value ∧ a.value.isStruct = false

theorem Spares.congr {m n : Memory} (h : n.spot? = m.spot?) (hspares : b.Spares m a) :
    b.Spares n a := hspares.imp_left (Misses.congr h)

/-- A passage through an element of a list or an attribute of an instance. -/
inductive Plain : Passage → Prop
  | element (l : ListRef) (k : Literal) (v : Value) : Plain ⟨.list l, .index k, v⟩
  | field (i : InstanceRef) (name : String) (v : Value) : Plain ⟨.instance i, .attr name, v⟩

/-- A passage through the operator `[]` of an instance. -/
def Operator (a : Passage) : Prop := (∃ i, a.container = .instance i) ∧ a.step.isIndex

variable (e : Engine)

/-- Store the value of a passage where it lies. -/
def store (a : Passage) : Eval Unit := a.step.store e a.container a.value

/-- The container gives the value itself. -/
def Returns (s : State) (a : Passage) : Prop :=
  ∃ u, a.step.read e a.container s = (.ok a.value, u)

/-- The container, and every copy of it, gives a value with a certain content. -/
def Holds (s : State) (a : Passage) (x : Content) : Prop :=
  ∀ c y, s.memory.Shows a.container y → s.memory.Shows c y →
    ∃ w u, a.step.read e c s = (.ok w, u) ∧ u.memory.Shows w x ∧
      (a.Plain → s.memory.read? a.step c = some w)

end Passage

theorem read_of_read? (e : Engine) {st : PlaceStep} {c : Value} (h : s.memory.read? st c = some w) :
    st.read e c s = (.ok w, s) := by
  unfold Memory.read? at h
  split at h
  · exact (indexOperation_list e _).mpr ⟨h, rfl⟩
  · exact getAttribute_of_attribute? h
  · cases h

namespace Passage

variable {a b : Passage}

theorem Plain.read? (h : a.Plain) {c : Value} {y : Content}
    (hc : s.memory.Shows a.container y) (hc' : s.memory.Shows c y)
    (hread : a.step.read e c s = (.ok w, u)) (hw : w.isMethod = false) :
    s.memory.read? a.step c = some w ∧ u = s := by
  cases h with
  | element l k v =>
    cases hc
    cases hc'
    exact (indexOperation_list e _).mp hread
  | field i name v =>
    rcases hc.copy_of_instance hc' with rfl | ⟨j, -, rfl, -⟩ <;>
      exact attribute?_of_getAttribute hread hw

end Passage

/-! ### What a plain passage stores -/

section stores
variable {p : Nat}

theorem elements_withElement (k : ListRef) : (s.withElement l p v).memory.elements k =
    if k = l then (s.memory.elements k).setIfInBounds p (s.memory.copyForBinding v).1
    else s.memory.elements k := by
  have hlists := s.memory.lists_copyForBinding v
  unfold State.withElement Memory.modifyList Memory.elements
  dsimp only
  rw [hlists, Array.getElem?_modify]
  by_cases hk : k = l
  · subst hk
    rw [if_pos rfl, if_pos rfl]
    cases s.memory.lists[k.index]? with
    | none => simp
    | some vs => rfl
  · have hne : l.index ≠ k.index := fun h => hk (by cases k; cases l; simp_all)
    rw [if_neg hne, if_neg hk]

theorem size_withElement (k : ListRef) :
    ((s.withElement l p v).memory.elements k).size = (s.memory.elements k).size := by
  rw [elements_withElement]
  split
  · exact Array.size_setIfInBounds
  · rfl

/-- The element that has been put into a list is read at its position, and at the others what was
there before. -/
theorem element?_withElement (hp : p < (s.memory.elements l).size) (index : Value) :
    (s.withElement l p v).memory.element? l index =
      if s.memory.position? l index = some p then some (s.memory.copyForBinding v).1
      else s.memory.element? l index := by
  rw [Memory.element?_eq, Memory.element?_eq, Memory.position?_congr (size_withElement l),
    elements_withElement, if_pos rfl]
  cases s.memory.position? l index with
  | none => rfl
  | some q =>
    rw [Option.map_some, Option.map_some]
    by_cases hq : q = p
    · subst hq
      rw [if_pos rfl, Array.getElem?_setIfInBounds_self_of_lt hp, Option.getD_some]
    · rw [if_neg fun h => hq (Option.some.inj h), Array.getElem?_setIfInBounds_ne (Ne.symm hq)]

theorem adds_withElement : s.memory.Adds (s.withElement l p v).memory :=
  (s.memory.adds_copyForBinding v).trans ⟨List.prefix_rfl, List.prefix_rfl⟩

theorem shows_withElement (h : s.memory.Shows v x) :
    (s.withElement l p v).memory.Shows (s.memory.copyForBinding v).1 x := by
  have hmodify : (s.memory.copyForBinding v).2.Adds (s.withElement l p v).memory :=
    ⟨List.prefix_rfl, List.prefix_rfl⟩
  exact hmodify.shows (Memory.shows_copyForBinding h)

theorem classes_withElement : (s.withElement l p v).memory.classes = s.memory.classes :=
  (s.memory.alters_copyForBinding v).classes

end stores

namespace Memory

theorem attribute?_congr {m n : Memory} {i : InstanceRef} (hfields : n.fields i = m.fields i)
    (hclasses : n.classes = m.classes) (name : String) :
    n.attribute? i name = m.attribute? i name := by
  rw [attribute?, attribute?, field?, field?, hfields, findAttribute?_congr hclasses]

theorem elements_bindField (m : Memory) (i : InstanceRef) (name : String) (v : Value)
    (l : ListRef) : (m.bindField i name v).elements l = m.elements l := by
  rw [elements, lists_bindField, elements]

/-- The field that has been bound is read by its name, and by the others what was there before. -/
theorem attribute?_bindField {m : Memory} {i j : InstanceRef} {name : String} {v : Value}
    (hm : m.Nests) (hi : i.index < m.instances.size) (hj : j.index = i.index) (other : String) :
    (m.bindField i name v).attribute? j other =
      if name = other then some (m.copyForBinding v).1 else m.attribute? j other := by
  have hfields : (m.bindField i name v).fields j = (m.fields j).insert name
      (m.copyForBinding v).1 := by
    rw [fields, fields, hj]
    exact fields_bindField hm hi name v
  rw [attribute?, attribute?, field?, field?, hfields,
    findAttribute?_congr (m.alters_bindField i name v).classes]
  by_cases hname : name = other
  · subst hname
    rw [if_pos rfl, Bindings.get?_insert_self, Option.some_or]
  · rw [if_neg hname, Bindings.get?_insert_of_ne _ _ hname]

theorem attribute?_of_copy {m : Memory} {i j : InstanceRef} {name : String} {v : Value}
    {x y : Content} (hi : m.Shows (.instance i) y) (hj : m.Shows (.instance j) y)
    (hv : m.attribute? i name = some v) (hx : m.Shows v x) :
    ∃ w, m.attribute? j name = some w ∧ m.Shows w x := by
  rcases hi.copy_of_instance hj with hji | ⟨j', xs, hji, hclass, hb, hb'⟩
  · cases hji
    exact ⟨v, hv, hx⟩
  · cases hji
    unfold attribute? field? at hv ⊢
    rw [hclass]
    rcases hb.get? name with ⟨hnone, hxs⟩ | ⟨u, z, hu, hz, hshows⟩
    · rw [hnone] at hv
      rcases hb'.get? name with ⟨hnone', -⟩ | ⟨u', z', -, hz', -⟩
      · rw [hnone']
        exact ⟨v, hv, hx⟩
      · rw [hxs] at hz'
        cases hz'
    · rw [hu] at hv
      cases hv
      rcases hb'.get? name with ⟨-, hnone'⟩ | ⟨u', z', hu', hz', hshows'⟩
      · rw [hz] at hnone'
        cases hnone'
      · rw [hz] at hz'
        cases hz'
        obtain rfl := hshows.unique hx
        rw [hu']
        exact ⟨u', rfl, hshows'⟩

def Has (m : Memory) (v : Value) : Prop := ∀ i, v = .instance i → i.index < m.instances.size

theorem Has.knows {m : Memory} {v : Value} (h : m.Has v) : m.Knows v := by
  intro l hl
  obtain ⟨i, rfl, -, rfl⟩ := Value.struct?_eq_some hl
  exact h i rfl

theorem Has.mono {m n : Memory} {v : Value} (h : m.Has v)
    (hle : m.instances.size ≤ n.instances.size) : n.Has v :=
  fun i hi => (h i hi).trans_le hle

end Memory

namespace Passage

variable {a b : Passage}

/-- A plain passage holds what is read from its container. -/
theorem Plain.holds (h : a.Plain) (hread : s.memory.read? a.step a.container = some w)
    (hx : s.memory.Shows w x) : a.Holds e s x := by
  intro c y hc hc'
  cases h with
  | element l k v =>
    cases hc
    cases hc'
    exact ⟨w, s, read_of_read? e hread, hx, fun _ => hread⟩
  | field i name v =>
    obtain ⟨j, rfl⟩ : ∃ j, c = .instance j := by
      rcases hc.copy_of_instance hc' with rfl | ⟨j, -, rfl, -⟩ <;> exact ⟨_, rfl⟩
    obtain ⟨w', hread', hw'⟩ := Memory.attribute?_of_copy hc hc' hread hx
    exact ⟨w', s, getAttribute_of_attribute? hread', hw', fun _ => hread'⟩

theorem Plain.read?_of_holds (h : a.Plain) (hhold : a.Holds e s x) {y : Content}
    (hc : s.memory.Shows a.container y) :
    ∃ w, s.memory.read? a.step a.container = some w ∧ s.memory.Shows w x := by
  obtain ⟨w, u, hread, hx, hplain⟩ := hhold a.container y hc hc
  have hread' := read_of_read? e (hplain h)
  rw [hread] at hread'
  cases hread'
  exact ⟨w, hplain h, hx⟩

theorem Plain.size_store (h : a.Plain) (hstore : a.store e s = (.ok (), t)) (l : ListRef) :
    (t.memory.elements l).size = (s.memory.elements l).size := by
  cases h with
  | element k index v =>
    obtain ⟨p, -, -, rfl⟩ := setIndexOperation_list e hstore
    exact size_withElement l
  | field i name v =>
    obtain rfl : t = { s with memory := s.memory.bindField i name v } :=
      (congrArg Prod.snd hstore).symm
    rw [Memory.elements_bindField]

theorem Plain.read?_store_self (ha : a.Plain) (hb : b.Plain) (hm : s.memory.Nests)
    (hin : s.memory.Has a.container) {spot : Spot}
    (ha' : s.memory.spot? a.step a.container = some spot)
    (hb' : s.memory.spot? b.step b.container = some spot) (hstore : b.store e s = (.ok (), t)) :
    t.memory.read? a.step a.container = some (s.memory.copyForBinding b.value).1 := by
  cases hb with
  | element l' k' v' =>
    obtain ⟨p, hp, hlt, rfl⟩ := setIndexOperation_list e hstore
    cases (congrArg (Option.map (Spot.element l')) hp).symm.trans hb'
    cases ha with
    | element l k v =>
      obtain ⟨q, hq, hspot⟩ := Option.map_eq_some_iff.mp ha'
      cases hspot
      exact (element?_withElement hlt _).trans (if_pos hq)
    | field i name v => cases ha'
  | field i' name' v' =>
    obtain rfl : t = { s with memory := s.memory.bindField i' name' v' } :=
      (congrArg Prod.snd hstore).symm
    cases hb'
    cases ha with
    | element l k v =>
      obtain ⟨q, -, hspot⟩ := Option.map_eq_some_iff.mp ha'
      cases hspot
    | field i name v =>
      obtain ⟨hi, rfl⟩ := Spot.field.inj (Option.some.inj ha')
      exact (Memory.attribute?_bindField hm (hi ▸ hin i rfl) hi name).trans (if_pos rfl)

theorem Plain.read?_store (ha : a.Plain) (hb : b.Plain) (hm : s.memory.Nests)
    (hin : s.memory.Has a.container) (hmiss : b.Misses s.memory a)
    (hstore : b.store e s = (.ok (), t)) :
    t.memory.read? a.step a.container = s.memory.read? a.step a.container := by
  cases hb with
  | element l' k' v' =>
    obtain ⟨p, hp, hlt, rfl⟩ := setIndexOperation_list e hstore
    have hb' := congrArg (Option.map (Spot.element l')) hp
    cases ha with
    | element l k v =>
      by_cases hl : l = l'
      · subst hl
        refine (element?_withElement hlt _).trans (if_neg fun hq => ?_)
        exact hmiss _ hb' (congrArg (Option.map (Spot.element l)) hq)
      · refine Memory.element?_congr ?_ _
        rw [elements_withElement, if_neg hl]
    | field i name v =>
      exact Memory.attribute?_congr (adds_withElement.fieldsAt (hin i rfl))
        classes_withElement _
  | field i' name' v' =>
    obtain rfl : t = { s with memory := s.memory.bindField i' name' v' } :=
      (congrArg Prod.snd hstore).symm
    cases ha with
    | element l k v =>
      exact Memory.element?_congr (s.memory.elements_bindField i' name' v' l) _
    | field i name v =>
      by_cases hi : i.index = i'.index
      · refine (Memory.attribute?_bindField hm (hi ▸ hin i rfl) hi name).trans
          (if_neg ?_)
        rintro rfl
        exact hmiss _ rfl (congrArg (fun k => some (Spot.field k name')) hi)
      · exact Memory.attribute?_congr
          (Memory.fieldsAt_bindField hm (hin i rfl) hi name' v')
          (s.memory.alters_bindField i' name' v').classes _

theorem Plain.holds_store (h : a.Plain) (hm : s.memory.Nests) (hin : s.memory.Has a.container)
    (hx : s.memory.Shows a.value x) (hstore : a.store e s = (.ok (), t)) : a.Holds e t x := by
  cases h with
  | element l k v =>
    obtain ⟨p, hp, hlt, rfl⟩ := setIndexOperation_list e hstore
    exact (Plain.element l k v).holds ((element?_withElement hlt _).trans (if_pos hp))
      (shows_withElement hx)
  | field i name v =>
    obtain rfl : t = { s with memory := s.memory.bindField i name v } :=
      (congrArg Prod.snd hstore).symm
    obtain ⟨w, hw, hfields⟩ := Memory.shows_bindField hm (hin i rfl) hx name
    refine (Plain.field i name v).holds (w := w) ?_ hw
    change (s.memory.bindField i name v).attribute? i name = _
    rw [Memory.attribute?, Memory.field?, hfields, Bindings.get?_insert_self]
    rfl

/-- What is stored in a list does not change what another plain passage holds. -/
theorem Plain.holds_missed (ha : a.Plain) (hindex : a.step.isIndex) (hb : b.Plain)
    (hm : s.memory.Nests) (hin : s.memory.Has b.container) (hmiss : a.Misses s.memory b)
    (hstore : a.store e s = (.ok (), t)) :
    (∀ y, s.memory.Shows b.container y → t.memory.Shows b.container y) ∧
      ∀ y, b.Holds e s y → b.Holds e t y := by
  have hadds : s.memory.Adds t.memory := by
    cases ha with
    | element l k v =>
      obtain ⟨p, -, -, rfl⟩ := setIndexOperation_list e hstore
      exact adds_withElement
    | field i name v => cases hindex
  refine ⟨fun y hy => hadds.shows hy, fun y hy => ?_⟩
  obtain ⟨z, hz⟩ := hm.exists_shows hin.knows
  obtain ⟨w, hread, hw⟩ := hb.read?_of_holds hy hz
  rw [← hb.read?_store ha hm hin hmiss hstore] at hread
  exact hb.holds hread (hadds.shows hw)

end Passage

end Classlet
