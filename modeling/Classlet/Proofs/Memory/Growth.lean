import Classlet.Interpreter.Class
import Classlet.Memory.Copy
import Mathlib.Data.List.Infix

/-! # How memory grows

Classes, functions, bound methods and modules are added to memory, and those that are there stay as
they are (`Memory.Keeps`).  Two operations change such an object in place: a function learns the
class that owns it, and a module gets its exports.  Both keep the objects of an older memory that
did not have the function or the module yet.

Copying a struct value changes lists and instances only (`Memory.Alters`).  The frozen contexts that
functions hold are the `closures` of memory, and those of functions that are not gone are `held`. -/

namespace Classlet.Memory

variable {k m n : Memory}

/-! ### Kept objects -/

/-- The classes, functions, bound methods and modules of `m` are still the same in `n`. -/
structure Keeps (m n : Memory) : Prop where
  classes : m.classes.toList <+: n.classes.toList
  functions : m.functions.toList <+: n.functions.toList
  methods : m.methods.toList <+: n.methods.toList
  modules : m.modules.toList <+: n.modules.toList

/-- Only lists and instances have changed. -/
structure Alters (m n : Memory) : Prop where
  classes : n.classes = m.classes
  functions : n.functions = m.functions
  methods : n.methods = m.methods
  modules : n.modules = m.modules

namespace Keeps

theorem refl (m : Memory) : m.Keeps m :=
  ⟨List.prefix_rfl, List.prefix_rfl, List.prefix_rfl, List.prefix_rfl⟩

theorem trans (h₁ : k.Keeps m) (h₂ : m.Keeps n) : k.Keeps n :=
  ⟨h₁.classes.trans h₂.classes, h₁.functions.trans h₂.functions, h₁.methods.trans h₂.methods,
    h₁.modules.trans h₂.modules⟩

theorem functions_size_le (h : m.Keeps n) : m.functions.size ≤ n.functions.size :=
  h.functions.length_le

theorem function?_eq {r : FunctionRef} {f : Function} (h : m.Keeps n)
    (hr : m.function? r = some f) : n.function? r = some f := by
  obtain ⟨hlt, rfl⟩ := Array.getElem?_eq_some_iff.mp hr
  have hkept := List.prefix_iff_getElem?.mp h.functions r.index hlt
  rwa [Array.getElem?_toList, Array.getElem_toList] at hkept

end Keeps

theorem Alters.keeps (h : m.Alters n) : m.Keeps n where
  classes := by rw [h.classes]
  functions := by rw [h.functions]
  methods := by rw [h.methods]
  modules := by rw [h.modules]

theorem Alters.refl (m : Memory) : m.Alters m := ⟨rfl, rfl, rfl, rfl⟩

theorem Alters.trans (h₁ : k.Alters m) (h₂ : m.Alters n) : k.Alters n :=
  ⟨h₂.classes.trans h₁.classes, h₂.functions.trans h₁.functions, h₂.methods.trans h₁.methods,
    h₂.modules.trans h₁.modules⟩

/-! ### New objects -/

theorem prefix_push {α : Type} (xs : Array α) (x : α) : xs.toList <+: (xs.push x).toList := by
  rw [Array.toList_push]
  exact List.prefix_append _ _

theorem keeps_newFunction (m : Memory) (f : Function) : m.Keeps (m.newFunction f).2 :=
  { Keeps.refl m with functions := prefix_push m.functions f }

theorem keeps_newMethod (m : Memory) (b : BoundMethod) : m.Keeps (m.newMethod b).2 :=
  { Keeps.refl m with methods := prefix_push m.methods b }

theorem keeps_newModule (m : Memory) (d : Module) : m.Keeps (m.newModule d).2 :=
  { Keeps.refl m with modules := prefix_push m.modules d }

/-- A new class is added to the classes, and nothing else changes. -/
theorem newClass_spec {name : String} {attributes : Bindings Value} {isStruct : Bool}
    {base : Option ClassRef} {c : ClassRef}
    (h : m.newClass name attributes isStruct base = .ok (c, n)) :
    m.Keeps n ∧ n.functions = m.functions ∧ n.modules = m.modules ∧
      n.instances = m.instances := by
  have hpush : ∀ d, m.Keeps { m with classes := m.classes.push d } := fun d =>
    { Keeps.refl m with classes := prefix_push m.classes d }
  unfold newClass at h
  split at h
  · split at h
    · cases h
    · cases h
      exact ⟨hpush _, rfl, rfl, rfl⟩
  · cases h
    exact ⟨hpush _, rfl, rfl, rfl⟩

/-! ### Changes in place -/

/-- A change of an entry that came later keeps the earlier ones. -/
theorem prefix_modify {α : Type} {xs : List α} {ys : Array α} {i : Nat} {f : α → α}
    (h : xs <+: ys.toList) (hi : xs.length ≤ i) : xs <+: (ys.modify i f).toList := by
  rw [List.prefix_iff_getElem?] at h ⊢
  intro j hj
  have hne : i ≠ j := by omega
  rw [Array.getElem?_toList, Array.getElem?_modify, if_neg hne, ← Array.getElem?_toList]
  exact h j hj

theorem Keeps.setOwner (h : m.Keeps n) {c : ClassRef} {f : FunctionRef}
    (hf : m.functions.size ≤ f.index) : m.Keeps (n.setOwner c f) :=
  { h with functions := prefix_modify h.functions hf }

/-- The functions of a class that came later learn their class. -/
theorem Keeps.foldl_setOwner (c : ClassRef) : ∀ {fs : List FunctionRef} {n : Memory}, m.Keeps n →
    (∀ f ∈ fs, m.functions.size ≤ f.index) → m.Keeps (fs.foldl (fun m f => m.setOwner c f) n)
  | [], _, h, _ => h
  | f :: fs, n, h, hfs => by
      rw [List.foldl_cons]
      refine foldl_setOwner c (h.setOwner (hfs f List.mem_cons_self)) fun g hg => ?_
      exact hfs g (List.mem_cons_of_mem _ hg)

theorem Keeps.setExports (h : m.Keeps n) {r : ModuleRef} (hr : m.modules.size ≤ r.index)
    (exports : Bindings Value) : m.Keeps (n.setExports r exports) :=
  { h with modules := prefix_modify h.modules hr }

/-! ### Classes that are kept -/

theorem Keeps.classInfo_eq {c : ClassRef} (h : m.Keeps n) (hc : c.index < m.classes.size) :
    n.classInfo c = m.classInfo c := by
  have hkept := List.prefix_iff_getElem?.mp h.classes c.index hc
  rw [Array.getElem?_toList, Array.getElem_toList] at hkept
  rw [classInfo, classInfo, hkept, Array.getElem?_eq_getElem hc]

theorem Keeps.chainFrom_eq (h : m.Keeps n) : ∀ (fuel : Nat) (c : ClassRef),
    (∀ d ∈ m.chainFrom fuel c, d.index < m.classes.size) →
      n.chainFrom fuel c = m.chainFrom fuel c
  | 0, _, _ => rfl
  | fuel + 1, c, hin => by
      rw [chainFrom] at hin
      have hclass := h.classInfo_eq (hin c List.mem_cons_self)
      rw [chainFrom, chainFrom, hclass]
      cases hbase : (m.classInfo c).base with
      | none => rfl
      | some b =>
          rw [hbase] at hin
          have hrest := h.chainFrom_eq fuel b fun d hd => hin d (List.mem_cons_of_mem c hd)
          exact congrArg (c :: ·) hrest

/-- Every base is older than what derives from it. -/
def Descends (m : Memory) : Prop :=
  ∀ c b : ClassRef, (m.classInfo c).base = some b → b.index < c.index

/-- The classes of a chain are not younger than the class that it starts with. -/
theorem Descends.index_le_of_mem_chainFrom (h : m.Descends) : ∀ (fuel : Nat) {c d : ClassRef},
    d ∈ m.chainFrom fuel c → d.index ≤ c.index
  | 0, _, _, hd => by cases hd
  | fuel + 1, c, d, hd => by
      rw [chainFrom] at hd
      rcases List.mem_cons.mp hd with rfl | hd
      · exact le_rfl
      · cases hb : (m.classInfo c).base with
        | none =>
            rw [hb] at hd
            cases hd
        | some b =>
            rw [hb] at hd
            exact (h.index_le_of_mem_chainFrom fuel hd).trans (h c b hb).le

/-! ### The same classes -/

theorem chain_congr (h : n.classes = m.classes) (c : ClassRef) : n.chain c = m.chain c := by
  have hchain : ∀ (fuel : Nat) (c : ClassRef), n.chainFrom fuel c = m.chainFrom fuel c := by
    intro fuel
    induction fuel with
    | zero => exact fun _ => rfl
    | succ fuel ih =>
        intro c
        have hinfo : n.classInfo c = m.classInfo c := by rw [classInfo, classInfo, h]
        rw [chainFrom, chainFrom, hinfo, funext ih]
  rw [chain, chain, hchain]

/-- Attributes of classes depend on classes only. -/
theorem findAttribute?_congr (h : n.classes = m.classes) (c : ClassRef) (name : String) :
    n.findAttribute? c name = m.findAttribute? c name := by
  have hinfo : ∀ d, n.classInfo d = m.classInfo d := fun d => by rw [classInfo, classInfo, h]
  simp only [findAttribute?, chain_congr h, hinfo]

/-! ### Copies -/

section copies
variable {copy : Memory → Value → Value × Memory} 
  (h : ∀ (m : Memory) (v : Value), m.Alters (copy m v).2)
include h

theorem alters_copyFields : ∀ (fields : Bindings Value) (m : Memory),
    m.Alters (copyFields copy m fields).2
  | [], m => .refl m
  | (_, v) :: more, m => by
      rw [copyFields]
      exact (h m v).trans (alters_copyFields more _)

theorem alters_copyInstance (m : Memory) (i : InstanceRef) :
    m.Alters (m.copyInstance copy i).2 :=
  (alters_copyFields h (m.fields i) m).trans ⟨rfl, rfl, rfl, rfl⟩

end copies

theorem alters_copyAt : ∀ (fuel : Nat) (m : Memory) (v : Value), m.Alters (copyAt fuel m v).2
  | 0, m, _ => .refl m
  | fuel + 1, m, v => by
      unfold copyAt
      split
      · split
        · exact alters_copyInstance (alters_copyAt fuel) m _
        · exact .refl m
      · exact .refl m

theorem alters_copyForBinding (m : Memory) (v : Value) : m.Alters (m.copyForBinding v).2 := by
  unfold copyForBinding
  split
  · exact alters_copyAt _ m v
  · exact .refl m

theorem alters_bindField (m : Memory) (i : InstanceRef) (name : String) (v : Value) :
    m.Alters (m.bindField i name v) := by
  unfold bindField
  split
  · exact (m.alters_copyForBinding v).trans ⟨rfl, rfl, rfl, rfl⟩
  · exact .refl m

theorem lists_copyAt : ∀ (fuel : Nat) (m : Memory) (v : Value), (copyAt fuel m v).2.lists = m.lists
  | 0, _, _ => rfl
  | fuel + 1, m, v => by
      have hfields : ∀ (fields : Bindings Value) (m : Memory),
          (copyFields (copyAt fuel) m fields).2.lists = m.lists := by
        intro fields
        induction fields with
        | nil => exact fun _ => rfl
        | cons p more ih => exact fun m => (ih _).trans (lists_copyAt fuel m p.2)
      unfold copyAt
      split
      · split
        · exact hfields _ m
        · rfl
      · rfl

theorem lists_copyForBinding (m : Memory) (v : Value) : (m.copyForBinding v).2.lists = m.lists := by
  unfold copyForBinding
  split
  · exact lists_copyAt _ m v
  · rfl

theorem lists_bindField (m : Memory) (i : InstanceRef) (name : String) (v : Value) :
    (m.bindField i name v).lists = m.lists := by
  unfold bindField
  split
  · exact m.lists_copyForBinding v
  · rfl

/-! ### The closures of functions -/

/-- The frozen contexts that functions hold. -/
def closures (m : Memory) : List ContextId := m.functions.toList.map Function.closure

theorem Alters.closures (h : m.Alters n) : n.closures = m.closures := by
  unfold Memory.closures
  rw [h.functions]

theorem closures_newFunction (m : Memory) (f : Function) :
    (m.newFunction f).2.closures = m.closures ++ [f.closure] := by
  simp [newFunction, closures]

theorem closures_setOwner (m : Memory) (c : ClassRef) (f : FunctionRef) :
    (m.setOwner c f).closures = m.closures := by
  unfold closures setOwner
  refine List.ext_getElem (by simp) fun i h₁ h₂ => ?_
  simp only [List.getElem_map, Array.getElem_toList, Array.getElem_modify]
  split <;> rfl

theorem closures_foldl_setOwner (c : ClassRef) : ∀ (fs : List FunctionRef) (m : Memory),
    (fs.foldl (fun m f => m.setOwner c f) m).closures = m.closures
  | [], _ => rfl
  | f :: fs, m => by
      rw [List.foldl_cons, closures_foldl_setOwner c fs, closures_setOwner]

theorem Keeps.closures (h : m.Keeps n) : m.closures <+: n.closures := h.functions.map _

/-! ### The closures that are held -/

/-- The contexts of functions from number `i` on, without those of functions that are gone. -/
def heldFrom (gone : List FunctionRef) : Nat → List ContextId → List ContextId
  | _, [] => []
  | i, c :: more =>
    if ⟨i⟩ ∈ gone then heldFrom gone (i + 1) more else c :: heldFrom gone (i + 1) more

/-- The frozen contexts of the functions that are not gone. -/
def held (m : Memory) (gone : List FunctionRef) : List ContextId := heldFrom gone 0 m.closures

section held
variable {gone later : List FunctionRef} {c : ContextId}

theorem mem_heldFrom : ∀ {i : Nat} {l : List ContextId},
    c ∈ heldFrom gone i l ↔ ∃ j, l[j]? = some c ∧ ⟨i + j⟩ ∉ gone
  | i, [] => by simp [heldFrom]
  | i, d :: l => by
      have hsplit : (∃ j, (d :: l)[j]? = some c ∧ (⟨i + j⟩ : FunctionRef) ∉ gone) ↔
          (d = c ∧ ⟨i⟩ ∉ gone) ∨ ∃ j, l[j]? = some c ∧ (⟨i + 1 + j⟩ : FunctionRef) ∉ gone := by
        constructor
        · rintro ⟨_ | j, hj, hgone⟩
          · exact .inl ⟨Option.some.inj hj, hgone⟩
          · exact .inr ⟨j, hj, by rwa [Nat.add_assoc, Nat.add_comm 1 j]⟩
        · rintro (⟨rfl, hgone⟩ | ⟨j, hj, hgone⟩)
          · exact ⟨0, rfl, hgone⟩
          · exact ⟨j + 1, hj, by rwa [Nat.add_comm j 1, ← Nat.add_assoc]⟩
      rw [hsplit, heldFrom, ← mem_heldFrom]
      split
      · rename_i hgone
        simp [hgone]
      · rename_i hgone
        simp [hgone, eq_comm]

theorem mem_held : c ∈ m.held gone ↔ ∃ j, m.closures[j]? = some c ∧ ⟨j⟩ ∉ gone := by
  rw [held, mem_heldFrom]
  simp only [Nat.zero_add]

theorem held_of_function {r : FunctionRef} {f : Function} (h : m.function? r = some f)
    (hr : r ∉ gone) : f.closure ∈ m.held gone := by
  refine mem_held.mpr ⟨r.index, ?_, hr⟩
  rw [closures, List.getElem?_map, Array.getElem?_toList]
  exact congrArg (Option.map _) h

/-- Later fewer functions are held of those that there were. -/
theorem Keeps.held (h : m.Keeps n) (hgone : ∀ r ∈ gone, r ∈ later) (hc : c ∈ m.held later) :
    c ∈ m.held gone ∧ c ∈ n.held later := by
  obtain ⟨j, hj, hr⟩ := mem_held.mp hc
  refine ⟨mem_held.mpr ⟨j, hj, fun hm => hr (hgone _ hm)⟩, mem_held.mpr ⟨j, ?_, hr⟩⟩
  obtain ⟨more, hmore⟩ := h.closures
  rw [← hmore, List.getElem?_append_left (List.getElem?_eq_some_iff.mp hj).1]
  exact hj

theorem heldFrom_append (d : ContextId) : ∀ (i : Nat) (l : List ContextId),
    ⟨i + l.length⟩ ∉ gone → heldFrom gone i (l ++ [d]) = heldFrom gone i l ++ [d]
  | i, [], h => if_neg h
  | i, e :: l, h => by
      rw [List.length_cons, Nat.add_comm l.length, ← Nat.add_assoc] at h
      rw [List.cons_append, heldFrom, heldFrom, heldFrom_append d (i + 1) l h]
      split <;> rfl

theorem held_newFunction {f : Function} (h : ∀ r ∈ gone, r.index < m.functions.size) :
    (m.newFunction f).2.held gone = m.held gone ++ [f.closure] := by
  have hlength : m.closures.length = m.functions.size := by simp [closures]
  rw [held, closures_newFunction, heldFrom_append _ _ _ fun hm => ?_]
  · rfl
  · have hlt := h _ hm
    rw [hlength, Nat.zero_add] at hlt
    exact Nat.lt_irrefl _ hlt

theorem heldFrom_cons_of_lt {r : FunctionRef} : ∀ {i : Nat} {l : List ContextId}, r.index < i →
    heldFrom (r :: gone) i l = heldFrom gone i l
  | _, [], _ => rfl
  | i, d :: l, h => by
      have hne : (⟨i⟩ : FunctionRef) ≠ r := by
        rintro rfl
        exact Nat.lt_irrefl _ h
      rw [heldFrom, heldFrom, heldFrom_cons_of_lt (Nat.lt_succ_of_lt h)]
      simp [hne]

theorem heldFrom_perm : ∀ {i j : Nat} {l : List ContextId}, l[j]? = some c →
    (⟨i + j⟩ : FunctionRef) ∉ gone →
      (heldFrom gone i l).Perm (c :: heldFrom (⟨i + j⟩ :: gone) i l)
  | i, 0, d :: l, hj, hgone => by
      obtain rfl := Option.some.inj hj
      rw [Nat.add_zero] at hgone ⊢
      rw [heldFrom, heldFrom, if_neg hgone, if_pos List.mem_cons_self, heldFrom_cons_of_lt]
      exact Nat.lt_succ_self i
  | i, j + 1, d :: l, hj, hgone => by
      have hstep : i + (j + 1) = i + 1 + j := by omega
      rw [hstep] at hgone ⊢
      have hperm := heldFrom_perm (i := i + 1) (j := j) (l := l) hj hgone
      have hne : (⟨i⟩ : FunctionRef) ≠ ⟨i + 1 + j⟩ := by
        intro he
        have := congrArg FunctionRef.index he
        dsimp only at this
        omega
      rw [heldFrom, heldFrom]
      by_cases hi : (⟨i⟩ : FunctionRef) ∈ gone
      · rwa [if_pos hi, if_pos (List.mem_cons_of_mem _ hi)]
      · rw [if_neg hi, if_neg (by simp [hi, hne])]
        exact (hperm.cons d).trans (.swap _ _ _)

/-- A function that goes takes its closure with it. -/
theorem held_perm {r : FunctionRef} {f : Function} (h : m.function? r = some f) (hr : r ∉ gone) :
    (m.held gone).Perm (f.closure :: m.held (r :: gone)) := by
  have hj : m.closures[r.index]? = some f.closure := by
    rw [closures, List.getElem?_map, Array.getElem?_toList]
    exact congrArg (Option.map _) h
  have hgone : (⟨0 + r.index⟩ : FunctionRef) ∉ gone := by rwa [Nat.zero_add]
  have hperm := heldFrom_perm hj hgone
  rwa [Nat.zero_add] at hperm

end held

end Classlet.Memory
