import Classlet.Interpreter
import Classlet.Proofs.Memory.Nesting

/-! # The two renderings agree

The text of a value is made twice: `Memory.display` and `Memory.quoted` go through memory and run no
user code, and `strOperation` and `reprOperation` ask the classes of instances first.  Where values
nest without cycles, the bound on the walk through memory does not show (`Memory.display_list`), and
where no class that is asked has an operator, both make the same text (`renderings_agree`). -/

namespace Classlet

open Eval

/-! ### Texts from memory -/

namespace Memory

variable {m : Memory} {v : Value} {vs : List Value}

theorem quotedAllWith_eq (inside : Array Value → List String) (vs : List Value) :
    m.quotedAllWith inside vs = vs.map fun v => quotedIf v (m.displayWith inside v) := by
  induction vs with
  | nil => rw [quotedAllWith, List.map_nil]
  | cons v vs ih => rw [quotedAllWith, ih, List.map_cons]

theorem insideAt_nil (fuel : Nat) {vs : Array Value} (h : vs.toList = []) :
    m.insideAt fuel vs = [] := by
  cases fuel with
  | zero => rfl
  | succ fuel => rw [insideAt, h, List.map_nil]

/-- A bound on the walk that is not below the number of lists in a value does not show. -/
theorem displayWith_insideAt : ∀ v, m.Acyclic v → ∀ {f g : Nat}, m.listCount v ≤ f →
    m.listCount v ≤ g → m.displayWith (m.insideAt f) v = m.displayWith (m.insideAt g) v := by
  refine Acyclic.induction fun v h ih f g hf hg => ?_
  cases v with
  | list l =>
      have hinside : m.insideAt f (m.elements l) = m.insideAt g (m.elements l) := by
        cases helements : (m.elements l).toList with
        | nil => rw [insideAt_nil f helements, insideAt_nil g helements]
        | cons a as =>
            have hbelow : ∀ b ∈ (m.elements l).toList, m.listCount b < m.listCount (.list l) :=
              fun b hb => h.listCount_lt hb
            have hpositive := hbelow a (helements ▸ List.mem_cons_self)
            obtain ⟨f, rfl⟩ := Nat.exists_eq_succ_of_ne_zero (show f ≠ 0 by omega)
            obtain ⟨g, rfl⟩ := Nat.exists_eq_succ_of_ne_zero (show g ≠ 0 by omega)
            refine List.map_congr_left fun b hb => ?_
            have hlt := hbelow b hb
            rw [ih b hb (f := f) (g := g) (by omega) (by omega)]
      rw [displayWith, displayWith, hinside]
  | tuple vs =>
      rw [displayWith, displayWith, quotedAllWith_eq, quotedAllWith_eq]
      congr 1
      refine List.map_congr_left fun a ha => ?_
      rw [ih a ha ((listCount_le ha).trans hf) ((listCount_le ha).trans hg)]
  | _ => simp only [displayWith]

theorem display_tuple (m : Memory) (vs : List Value) :
    m.display (.tuple vs) = Text.tuple (vs.map m.quoted) := by
  rw [display, displayWith, quotedAllWith_eq]
  rfl

/-- A list is shown by its elements, if it does not stand in one of them. -/
theorem display_list {l : ListRef} (h : m.Acyclic (.list l)) :
    m.display (.list l) = "[" ++ Text.commas ((m.elements l).toList.map m.quoted) ++ "]" := by
  have hinside : m.insideAt (m.lists.size + 1) (m.elements l) =
      (m.elements l).toList.map m.quoted := by
    refine List.map_congr_left fun a ha => ?_
    have hle := m.listCount_le_size a
    rw [quoted, display,
      displayWith_insideAt a (h.of_part ha) (f := m.lists.size) hle (hle.trans (Nat.le_succ _))]
  rw [display, displayWith, hinside]

end Memory

/-! ### Texts from operators -/

/-- No instance in a value has a class with an operator that makes its text. -/
def Memory.LacksTexts (m : Memory) (v : Value) : Prop :=
  ∀ i, m.Contains v (.instance i) → m.findAttribute? i.ofClass Conversion.str.key = none ∧
    m.findAttribute? i.ofClass Conversion.repr.key = none

/-- The operators make the texts of a value that memory gives, and change nothing. -/
structure Renders (e : Engine) (s : State) (v : Value) : Prop where
  str : strOperation e v s = (.ok (s.memory.display v), s)
  repr : reprOperation e v s = (.ok (s.memory.quoted v), s)

section operations
variable {e : Engine} {s : State} {v : Value} {vs : List Value}

theorem reprAll_eq (h : ∀ v ∈ vs, e.repr v s = (.ok (s.memory.quoted v), s)) :
    reprAll e vs s = (.ok (vs.map s.memory.quoted), s) := by
  induction vs with
  | nil => rfl
  | cons v vs ih =>
      have hmore := ih fun w hw => h w (List.mem_cons_of_mem v hw)
      simp only [reprAll, bind_apply, h v List.mem_cons_self, hmore]
      rfl

theorem sequenceText_eq (hv : s.memory.Acyclic v)
    (hparts : ∀ a ∈ s.memory.parts v, e.repr a s = (.ok (s.memory.quoted a), s)) :
    sequenceText e v s = (.ok (s.memory.display v), s) := by
  cases v with
  | list l =>
      have hall : reprAll e (s.memory.elements l).toList s = _ := reprAll_eq hparts
      rw [Memory.display_list hv]
      simp only [sequenceText, bind_apply, readMemory, hall]
      rfl
  | tuple vs =>
      have hall : reprAll e vs s = _ := reprAll_eq hparts
      rw [Memory.display_tuple]
      simp only [sequenceText, bind_apply, hall]
      rfl
  | _ => rfl

theorem userConversion_eq {i : InstanceRef} {conversion : Conversion}
    (h : s.memory.findAttribute? i.ofClass conversion.key = none) :
    userConversion e i conversion s = (.ok none, s) := by
  simp only [userConversion, classAttribute?, bind_apply, readMemory, h]
  rfl

/-- An engine that shows the elements of a value renders the value. -/
theorem Renders.of_parts (hv : s.memory.Acyclic v) (hlacks : s.memory.LacksTexts v)
    (hparts : ∀ a ∈ s.memory.parts v, e.repr a s = (.ok (s.memory.quoted a), s)) :
    Renders e s v := by
  have hsequence := sequenceText_eq hv hparts
  cases v with
  | str text => exact ⟨rfl, rfl⟩
  | «instance» i =>
      obtain ⟨hstr, hrepr⟩ := hlacks i .refl
      have hquoted : reprOperation e (.instance i) s =
          (.ok (s.memory.quoted (.instance i)), s) := by
        simp only [reprOperation, bind_apply, userConversion_eq hrepr]
        rfl
      refine ⟨?_, hquoted⟩
      simp only [strOperation, bind_apply, userConversion_eq hstr]
      exact hquoted
  | _ => exact ⟨hsequence, hsequence⟩

end operations

/-! ### Fuel for all elements -/

/-- What each value of a list has from some fuel on, all of them have from some fuel on. -/
theorem exists_fuel_forall {P : Value → Nat → Prop} {vs : List Value}
    (h : ∀ v ∈ vs, ∃ needed, ∀ fuel, needed ≤ fuel → P v fuel) :
    ∃ needed, ∀ fuel, needed ≤ fuel → ∀ v ∈ vs, P v fuel := by
  induction vs with
  | nil => exact ⟨0, fun _ _ _ hv => nomatch hv⟩
  | cons v vs ih =>
      obtain ⟨first, hfirst⟩ := h v List.mem_cons_self
      obtain ⟨more, hmore⟩ := ih fun w hw => h w (List.mem_cons_of_mem v hw)
      refine ⟨max first more, fun fuel hfuel => List.forall_mem_cons.mpr ⟨?_, ?_⟩⟩
      · exact hfirst fuel ((Nat.le_max_left _ _).trans hfuel)
      · exact hmore fuel ((Nat.le_max_right _ _).trans hfuel)

theorem Memory.LacksTexts.of_part {m : Memory} {a v : Value} (h : m.LacksTexts v)
    (ha : a ∈ m.parts v) : m.LacksTexts a := fun i hi => h i (hi.of_part ha)

/-- **The two renderings agree.**  Of lists and tuples that nest without cycles around values of any
kind, none of which is an instance whose class has an operator for its text, `str` and `repr` make
the texts that memory gives, in every state, and leave the state as it is. -/
theorem renderings_agree (settings : Settings) (loader : Loader) {s : State} {v : Value}
    (hv : s.memory.Acyclic v) (hlacks : s.memory.LacksTexts v) :
    ∃ needed, ∀ fuel, needed ≤ fuel → Renders (engine settings loader fuel) s v := by
  revert hlacks
  refine Memory.Acyclic.induction (C := fun v => s.memory.LacksTexts v → ∃ needed, ∀ fuel,
    needed ≤ fuel → Renders (engine settings loader fuel) s v) (fun v hv ih hlacks => ?_) v hv
  obtain ⟨needed, hparts⟩ := exists_fuel_forall fun a ha => ih a ha (hlacks.of_part ha)
  refine ⟨needed + 1, fun fuel hfuel => .of_parts hv hlacks fun a ha => ?_⟩
  cases fuel with
  | zero => exact absurd hfuel (Nat.not_succ_le_zero needed)
  | succ fuel =>
      -- an engine shows an element with one unit of fuel less
      exact (hparts fuel (Nat.le_of_succ_le_succ hfuel) a ha).repr

/-- A list of a text, a tuple of one number and an error. -/
def mixedList : Array Value := #[.str "a", .tuple [.int 1], .instance ⟨0, .error, false⟩]

def stateWithList : State :=
  let s := State.initial
  { s with memory := { s.memory with lists := #[mixedList] } }

/-- A list that stands in a tuple twice. -/
theorem renderings_agree_shared_list :
    let s := stateWithList
    let v := Value.tuple [.list ⟨0⟩, .list ⟨0⟩]
    s.memory.Acyclic v ∧ s.memory.LacksTexts v ∧ ∃ needed, ∀ fuel, needed ≤ fuel →
      Renders (engine {} (fun _ => .unknown) fuel) s v := by
  intro s v
  let inside : List Value := [.str "a", .tuple [.int 1], .instance ⟨0, .error, false⟩, .int 1]
  have helements : (s.memory.elements ⟨0⟩).toList = mixedList.toList := rfl
  have hinside : ∀ a ∈ inside, ∀ b ∈ s.memory.parts a, b ∈ inside := by
    simp [inside, Memory.parts]
  have hlist : ∀ a ∈ s.memory.parts (.list ⟨0⟩), a ∈ inside := by
    simp [Memory.parts, helements, mixedList, inside]
  have hall : ∀ w, s.memory.Contains v w → w ∈ v :: .list ⟨0⟩ :: inside := fun w hw => by
    refine hw.preserves (fun a ha b hb => ?_) List.mem_cons_self
    rcases List.mem_cons.mp ha with rfl | ha
    · obtain rfl : b = .list ⟨0⟩ := by simpa [v, Memory.parts] using hb
      exact List.mem_cons_of_mem _ List.mem_cons_self
    rcases List.mem_cons.mp ha with rfl | ha
    · exact List.mem_cons_of_mem _ (List.mem_cons_of_mem _ (hlist b hb))
    · exact List.mem_cons_of_mem _ (List.mem_cons_of_mem _ (hinside a ha b hb))
  have hstr : (s.memory.findAttribute? .error Conversion.str.key).isNone = true := by
    decide +kernel
  have hrepr : (s.memory.findAttribute? .error Conversion.repr.key).isNone = true := by
    decide +kernel
  have hlacks : s.memory.LacksTexts v := fun i hi => by
    obtain rfl : i = ⟨0, .error, false⟩ := by simpa [v, inside] using hall _ hi
    exact ⟨Option.isNone_iff_eq_none.mp hstr, Option.isNone_iff_eq_none.mp hrepr⟩
  have hacyclic : s.memory.Acyclic v := fun l hl a ha hcycle => by
    obtain rfl : l = ⟨0⟩ := by simpa [v, inside] using hall _ hl
    have hmem : Value.list ⟨0⟩ ∈ inside := hcycle.preserves hinside (hlist a ha)
    simp [inside] at hmem
  exact ⟨hacyclic, hlacks, renderings_agree {} _ hacyclic hlacks⟩

end Classlet
