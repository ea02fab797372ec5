import Classlet.Proofs.Evaluator.Calls
import Classlet.Proofs.Memory.Structs
import Classlet.Proofs.Termination.Calm

/-! # Older objects only

Values that a calm program can get hold of lead to older objects only: a list holds lists that came
before it, the attributes and the base of a class are classes that came before it, and a module was
imported by an older one.  So walks along lists, along the members `init` of classes and along the
chain of importers come to an end.  `Value.Within` bounds the lists and classes that a value
mentions, and `Memory.Tame` says it of all that is in memory.

An index assignment or a call of `append` would put a younger list into an older one.  Here
lists change in place only where instances are put back (`Memory.Tame.setElement`), and the
built-in function `append` is no tame value. -/

namespace Classlet

open Fragment

/-! ### Values -/

namespace Value

mutual

/-- A value mentions only the first `lists` lists and the first `classes` classes, and it is not
`append`. -/
@[simp] def Within (lists classes : Nat) : Value → Prop
  | .list l => l.index < lists
  | .ofClass c => c.index < classes
  | .«instance» i => i.ofClass.index < classes
  | .builtin f => f ≠ .append
  | .tuple vs => AllWithin lists classes vs
  | _ => True
termination_by structural v => v

/-- The same of all values of a list. -/
def AllWithin (lists classes : Nat) : List Value → Prop
  | [] => True
  | v :: vs => Within lists classes v ∧ AllWithin lists classes vs
termination_by structural vs => vs

end

variable {lists classes lists' classes' : Nat}

@[simp] theorem allWithin_iff : ∀ {vs : List Value},
    AllWithin lists classes vs ↔ ∀ v ∈ vs, v.Within lists classes
  | [] => by simp [AllWithin]
  | v :: vs => by rw [AllWithin, allWithin_iff, List.forall_mem_cons]

mutual

theorem Within.mono (hl : lists ≤ lists') (hc : classes ≤ classes') :
    ∀ {v : Value}, v.Within lists classes → v.Within lists' classes'
  | .tuple _, h => AllWithin.mono hl hc h
  | .list _, h => Nat.lt_of_lt_of_le h hl
  | .ofClass _, h | .«instance» _, h => Nat.lt_of_lt_of_le h hc
  | .builtin _, h => h
  | .nil, _ | .bool _, _ | .int _, _ | .real _, _ | .str _, _ | .function _, _ | .method _, _
  | .module _, _ => trivial

theorem AllWithin.mono (hl : lists ≤ lists') (hc : classes ≤ classes') :
    ∀ {vs : List Value}, AllWithin lists classes vs → AllWithin lists' classes' vs
  | [], _ => trivial
  | _ :: _, h => ⟨Within.mono hl hc h.1, AllWithin.mono hl hc h.2⟩

end

end Value

/-! ### Arrays of objects -/

/-- Every entry of an array has a property, which may depend on its place. -/
def Entries {α : Type} (R : Nat → α → Prop) (xs : Array α) : Prop := ∀ i x, xs[i]? = some x → R i x

namespace Entries

variable {α : Type} {R S : Nat → α → Prop} {xs : Array α}

theorem mono (h : Entries R xs) (hRS : ∀ i x, R i x → S i x) : Entries S xs :=
  fun i x hx => hRS i x (h i x hx)

theorem push (h : Entries R xs) {x : α} (hx : R xs.size x) : Entries R (xs.push x) := by
  intro i y hy
  rw [Array.getElem?_push] at hy
  split at hy
  · rename_i hi
    cases hy
    exact hi ▸ hx
  · exact h i y hy

theorem modify (h : Entries R xs) {i : Nat} {f : α → α}
    (hf : ∀ x, xs[i]? = some x → R i x → R i (f x)) : Entries R (xs.modify i f) := by
  intro j y hy
  rw [Array.getElem?_modify] at hy
  split at hy
  · rename_i hij
    subst hij
    obtain ⟨x, hx, rfl⟩ := Option.map_eq_some_iff.mp hy
    exact hf x hx (h i x hx)
  · exact h j y hy

/-- What holds of an entry holds of what is looked up, given the default. -/
theorem getD (h : Entries R xs) (i : Nat) {d : α} (hd : R i d) : R i (xs[i]?.getD d) := by
  cases hx : xs[i]? with
  | none => exact hd
  | some x => exact h i x hx

end Entries

/-! ### Objects -/

/-- Values that are bound mention older objects only. -/
def BoundWithin (lists classes : Nat) (b : Bindings Value) : Prop :=
  ∀ p ∈ b, p.2.Within lists classes

/-- The attribute of an operator is a function. -/
def OperatorsDefined (b : Bindings Value) : Prop :=
  ∀ p ∈ b, ∀ symbol, p.1 = operatorKey symbol → ∃ f, p.2 = .function f

/-- A class has older attributes and an older base. -/
structure ClassInfo.Tame (lists : Nat) (i : Nat) (d : ClassInfo) : Prop where
  attributes : BoundWithin lists i d.attributes
  operators : OperatorsDefined d.attributes
  base : ∀ b, d.base = some b → b.index < i

/-- A module has an older importer and one of the paths of its program. -/
structure Module.Tame (P : Program) (lists classes : Nat) (i : Nat) (d : Module) : Prop where
  exports : BoundWithin lists classes d.exports
  parent : ∀ q, d.parent = some q → q.index < i
  path : P.Home d.path

/-- Whatever is in memory mentions the first lists and classes only, and lists and classes mention
older ones. -/
structure Memory.Bounded (P : Program) (lists classes : Nat) (m : Memory) : Prop where
  builtins : Memory.initial.classes.size ≤ classes
  elements : Entries (fun i vs => ∀ v ∈ vs, v.Within i classes) m.lists
  fields : Entries (fun _ b => BoundWithin lists classes b) m.instances
  classInfos : Entries (ClassInfo.Tame lists) m.classes
  methods : Entries (fun _ b => b.receiver.Within lists classes ∧
    b.method.toValue.Within lists classes) m.methods
  functions : Entries (fun _ f => (Fragment.function f.decl).Everywhere P.Allows) m.functions
  modules : Entries (Module.Tame P lists classes) m.modules

def Memory.Tame (P : Program) (m : Memory) : Prop := m.Bounded P m.lists.size m.classes.size

/-- A value mentions what is in memory. -/
def Value.FitsIn (v : Value) (m : Memory) : Prop := v.Within m.lists.size m.classes.size

theorem BoundWithin.mono {lists classes lists' classes' : Nat} {b : Bindings Value}
    (h : BoundWithin lists classes b) (hl : lists ≤ lists') (hc : classes ≤ classes') :
    BoundWithin lists' classes' b := fun p hp => (h p hp).mono hl hc

theorem BoundWithin.insert {lists classes : Nat} {b : Bindings Value} {name : String} {v : Value}
    (h : BoundWithin lists classes b) (hv : v.Within lists classes) :
    BoundWithin lists classes (b.insert name v) := by
  intro p hp
  rcases Bindings.mem_insert hp with rfl | hp
  · exact hv
  · exact h p hp

theorem BoundWithin.get? {lists classes : Nat} {b : Bindings Value} {name : String} {v : Value}
    (h : BoundWithin lists classes b) (hv : b.get? name = some v) : v.Within lists classes :=
  h _ (Bindings.mem_of_get? hv)

namespace Memory

variable {P : Program} {lists classes lists' classes' : Nat} {m : Memory}

theorem Bounded.mono (h : m.Bounded P lists classes) (hl : lists ≤ lists')
    (hc : classes ≤ classes') : m.Bounded P lists' classes' where
  builtins := h.builtins.trans hc
  elements := h.elements.mono fun _ _ hvs v hv => (hvs v hv).mono le_rfl hc
  fields := h.fields.mono fun _ _ hb => hb.mono hl hc
  classInfos := h.classInfos.mono fun _ _ hd =>
    { hd with attributes := hd.attributes.mono hl le_rfl }
  methods := h.methods.mono fun _ _ hb => ⟨hb.1.mono hl hc, hb.2.mono hl hc⟩
  functions := h.functions
  modules := h.modules.mono fun _ _ hd => { hd with exports := hd.exports.mono hl hc }

/-- To tell functions their class changes neither lists nor classes. -/
theorem objects_foldl_setOwner (c : ClassRef) : ∀ (fs : List FunctionRef) (m : Memory),
    (fs.foldl (fun m f => m.setOwner c f) m).lists = m.lists ∧
      (fs.foldl (fun m f => m.setOwner c f) m).classes = m.classes
  | [], _ => ⟨rfl, rfl⟩
  | f :: fs, m => objects_foldl_setOwner c fs (m.setOwner c f)

namespace Tame

variable (h : m.Tame P)
include h

/-! ### Looking up -/

theorem elements_within (l : ListRef) {v : Value} (hv : v ∈ m.elements l) :
    v.Within l.index m.classes.size :=
  h.elements.getD (R := fun i vs => ∀ v ∈ vs, v.Within i m.classes.size) l.index
    (fun _ hv => by simp at hv) v hv

theorem elements_fit {l : ListRef} (hl : l.index < m.lists.size) {v : Value}
    (hv : v ∈ m.elements l) : v.FitsIn m :=
  (h.elements_within l hv).mono hl.le le_rfl

theorem field_fits {i : InstanceRef} {name : String} {v : Value} (hv : m.field? i name = some v) :
    v.FitsIn m :=
  BoundWithin.get? (h.fields.getD (R := fun _ b => BoundWithin m.lists.size m.classes.size b)
    i.index (d := []) fun _ hp => by cases hp) hv

theorem classInfo_tame (c : ClassRef) : (m.classInfo c).Tame m.lists.size c.index :=
  h.classInfos.getD c.index
    { attributes := fun _ hp => (by cases hp)
      operators := fun _ hp => (by cases hp)
      base := fun _ hb => (by cases hb) }

theorem descends : m.Descends := fun c b hb => (h.classInfo_tame c).base b hb

/-- Attributes are older than their class. -/
theorem attribute_within {c : ClassRef} {name : String} {v : Value}
    (hv : m.findAttribute? c name = some v) : v.Within m.lists.size c.index := by
  obtain ⟨d, hd, hv⟩ := List.exists_of_findSome?_eq_some hv
  have hle := h.descends.index_le_of_mem_chainFrom _ hd
  exact ((h.classInfo_tame d).attributes.get? hv).mono le_rfl hle

theorem operator_function {c : ClassRef} {symbol : String} {v : Value}
    (hv : m.findAttribute? c (operatorKey symbol) = some v) : ∃ f, v = .function f := by
  obtain ⟨d, -, hv⟩ := List.exists_of_findSome?_eq_some hv
  exact (h.classInfo_tame d).operators _ (Bindings.mem_of_get? hv) symbol rfl

theorem classRef_lt {v : Value} (hv : v.FitsIn m) : v.classRef.index < m.classes.size := by
  cases v
  case «instance» i => exact hv
  all_goals
    refine lt_of_lt_of_le ?_ h.builtins
    simp only [Value.classRef]
    decide

theorem kind_lt (k : ErrorKind) : k.classRef.index < m.classes.size := by
  refine lt_of_lt_of_le ?_ h.builtins
  cases k <;> decide

/-! ### New objects -/

theorem newList {vs : Array Value} (hvs : ∀ v ∈ vs, v.FitsIn m) : (m.newList vs).2.Tame P := by
  unfold Tame Memory.newList
  dsimp only
  rw [Array.size_push]
  exact { h.mono (Nat.le_succ _) le_rfl with elements := h.elements.push hvs }

theorem newInstance {c : ClassRef} {fields : Bindings Value}
    (hfields : BoundWithin m.lists.size m.classes.size fields) :
    (m.newInstance c fields).2.Tame P :=
  { h with fields := h.fields.push hfields }

theorem newMethod {b : BoundMethod} (hr : b.receiver.FitsIn m) (hm : b.method.toValue.FitsIn m) :
    (m.newMethod b).2.Tame P :=
  { h with methods := h.methods.push ⟨hr, hm⟩ }

theorem newFunction {f : Function} (hf : (Fragment.function f.decl).Everywhere P.Allows) :
    (m.newFunction f).2.Tame P :=
  { h with functions := h.functions.push hf }

theorem newModule {d : Module} (hd : d.Tame P m.lists.size m.classes.size m.modules.size) :
    (m.newModule d).2.Tame P :=
  { h with modules := h.modules.push hd }

theorem newClass {name : String} {attributes : Bindings Value} {isStruct : Bool}
    {base : Option ClassRef} {c : ClassRef} {n : Memory}
    (hattributes : BoundWithin m.lists.size m.classes.size attributes)
    (hoperators : OperatorsDefined attributes)
    (hbase : ∀ b, base = some b → b.index < m.classes.size)
    (hnew : m.newClass name attributes isStruct base = .ok (c, n)) :
    n.Tame P ∧ c.index < n.classes.size ∧ n.lists.size = m.lists.size ∧
      m.classes.size ≤ n.classes.size := by
  have hadd : newClass.add m name attributes isStruct base = (c, n) := by
    unfold Memory.newClass at hnew
    split at hnew
    · split at hnew
      · cases hnew
      · exact Except.ok.inj hnew
    · exact Except.ok.inj hnew
  cases hadd
  refine ⟨?_, ?_, rfl, ?_⟩
  · unfold Tame
    dsimp only
    rw [Array.size_push]
    exact { h.mono le_rfl (Nat.le_succ _) with
      classInfos := h.classInfos.push ⟨hattributes, hoperators, hbase⟩ }
  · simp
  · simp

/-! ### Changes in place -/

theorem setOwner (c : ClassRef) (f : FunctionRef) : (m.setOwner c f).Tame P :=
  { h with functions := h.functions.modify fun _ _ hg => hg }

omit h in
theorem foldl_setOwner (c : ClassRef) : ∀ (fs : List FunctionRef) {m : Memory}, m.Tame P →
    (fs.foldl (fun m f => m.setOwner c f) m).Tame P
  | [], _, h => h
  | f :: fs, _, h => by
      rw [List.foldl_cons]
      exact foldl_setOwner c fs (h.setOwner c f)

theorem setExports (r : ModuleRef) {exports : Bindings Value}
    (hexports : BoundWithin m.lists.size m.classes.size exports) :
    (m.setExports r exports).Tame P :=
  { h with modules := h.modules.modify fun _ _ hd => { hd with exports := hexports } }

theorem setElement (l : ListRef) (k : Nat) {i : InstanceRef} (hi : (Value.instance i).FitsIn m) :
    (m.modifyList l fun vs => vs.setIfInBounds k (.instance i)).Tame P := by
  unfold Tame Memory.modifyList
  dsimp only
  rw [Array.size_modify]
  refine { h with elements := h.elements.modify fun vs _ hvs w hw => ?_ }
  rcases Array.mem_or_eq_of_mem_setIfInBounds hw with hw | rfl
  · exact hvs w hw
  · exact hi

end Tame

/-! ### Copies -/

namespace Bounded

variable {L C : Nat}

theorem copyFields {copy : Memory → Value → Value × Memory}
    (hcopy : ∀ {m : Memory} {v : Value}, m.Bounded P L C → v.Within L C →
      (copy m v).1.Within L C ∧ (copy m v).2.Bounded P L C) :
    ∀ {b : Bindings Value} {m : Memory}, m.Bounded P L C → BoundWithin L C b →
      BoundWithin L C (copyFields copy m b).1 ∧ (copyFields copy m b).2.Bounded P L C
  | [], _, h, _ => ⟨fun _ hp => (by cases hp), h⟩
  | (name, v) :: more, m, h, hb => by
      obtain ⟨hv, hm⟩ := hcopy h (hb _ List.mem_cons_self)
      obtain ⟨hmore, hn⟩ := copyFields hcopy hm fun p hp => hb p (List.mem_cons_of_mem _ hp)
      refine ⟨fun p hp => ?_, hn⟩
      rcases List.mem_cons.mp hp with rfl | hp
      · exact hv
      · exact hmore p hp

theorem copyAt : ∀ (fuel : Nat) {m : Memory} {v : Value}, m.Bounded P L C → v.Within L C →
    (copyAt fuel m v).1.Within L C ∧ (copyAt fuel m v).2.Bounded P L C
  | 0, _, _, h, hv => ⟨hv, h⟩
  | fuel + 1, m, v, h, hv => by
      unfold Memory.copyAt
      split
      · rename_i i
        split
        · have hfields : BoundWithin L C (m.fields i) :=
            h.fields.getD (R := fun _ b => BoundWithin L C b) i.index fun _ hp => by cases hp
          obtain ⟨hb, hn⟩ := copyFields (copyAt fuel) h hfields
          exact ⟨hv, { hn with fields := hn.fields.push hb }⟩
        · exact ⟨hv, h⟩
      · exact ⟨hv, h⟩

end Bounded

namespace Tame

variable (h : m.Tame P)
include h

theorem copyForBinding {v : Value} (hv : v.FitsIn m) :
    (m.copyForBinding v).1.FitsIn m ∧ (m.copyForBinding v).2.Tame P := by
  unfold Tame
  rw [lists_copyForBinding, (m.alters_copyForBinding v).classes]
  unfold Memory.copyForBinding
  split
  · exact Bounded.copyAt _ h hv
  · exact ⟨hv, h⟩

theorem bindField (i : InstanceRef) (name : String) {v : Value} (hv : v.FitsIn m) :
    (m.bindField i name v).Tame P := by
  unfold Tame
  rw [lists_bindField, (m.alters_bindField i name v).classes]
  unfold Memory.bindField
  split
  · obtain ⟨hw, hn⟩ := h.copyForBinding hv
    unfold Tame at hn
    rw [lists_copyForBinding, (m.alters_copyForBinding v).classes] at hn
    exact { hn with fields := hn.fields.modify fun _ _ hb => hb.insert hw }
  · exact h

end Tame

end Memory

end Classlet
