import Mathlib.Data.Finset.Card
import Mathlib.Logic.Relation
import Classlet.Memory

/-! # How values nest

A list is a reference, so that a list can come to stand in itself.  `Memory.Contains` is what stands
in a value at any depth.  In an acyclic value (`Memory.Acyclic`) every element has fewer lists in it
than the list that it stands in (`Memory.Acyclic.listCount_lt`).  So what holds of a value if it
holds of its elements holds of all acyclic values (`Memory.Acyclic.induction`). -/

namespace Classlet.Memory

variable {m : Memory} {a v w : Value} {l : ListRef}

def parts (m : Memory) : Value → List Value
  | .list l => (m.elements l).toList
  | .tuple vs => vs
  | _ => []

/-- The value `w` is `v` or stands in it. -/
def Contains (m : Memory) (v w : Value) : Prop :=
  Relation.ReflTransGen (fun a b => b ∈ m.parts a) v w

/-- No list in a value stands in an element of its own. -/
def Acyclic (m : Memory) (v : Value) : Prop :=
  ∀ l, m.Contains v (.list l) → ∀ a ∈ m.parts (.list l), ¬ m.Contains a (.list l)

theorem Contains.of_part (ha : a ∈ m.parts v) (h : m.Contains a w) : m.Contains v w := .head ha h

/-- What elements take over from their sequences holds of all that stands in a value. -/
theorem Contains.preserves {P : Value → Prop} (h : m.Contains v w)
    (hparts : ∀ a, P a → ∀ b ∈ m.parts a, P b) (hv : P v) : P w := by
  induction h with
  | refl => exact hv
  | tail _ hb ih => exact hparts _ ih _ hb

theorem Acyclic.of_part (h : m.Acyclic v) (ha : a ∈ m.parts v) : m.Acyclic a :=
  fun l hl => h l (hl.of_part ha)

/-! ### The lists in a value -/

open Classical in
noncomputable def listsIn (m : Memory) (v : Value) : Finset Nat :=
  (Finset.range m.lists.size).filter fun i => m.Contains v (.list ⟨i⟩)

/-- The number of lists that stand in a value. -/
noncomputable def listCount (m : Memory) (v : Value) : Nat := (m.listsIn v).card

open Classical in
theorem mem_listsIn {i : Nat} :
    i ∈ m.listsIn v ↔ i < m.lists.size ∧ m.Contains v (.list ⟨i⟩) := by
  rw [listsIn, Finset.mem_filter, Finset.mem_range]

theorem listCount_le_size (m : Memory) (v : Value) : m.listCount v ≤ m.lists.size := by
  have hsubset : m.listsIn v ⊆ Finset.range m.lists.size :=
    fun i hi => Finset.mem_range.mpr (mem_listsIn.mp hi).1
  exact (Finset.card_le_card hsubset).trans_eq (Finset.card_range _)

theorem listsIn_subset (ha : a ∈ m.parts v) : m.listsIn a ⊆ m.listsIn v := by
  intro i hi
  rw [mem_listsIn] at hi ⊢
  exact ⟨hi.1, hi.2.of_part ha⟩

theorem listCount_le (ha : a ∈ m.parts v) : m.listCount a ≤ m.listCount v :=
  Finset.card_le_card (listsIn_subset ha)

theorem lt_size_of_mem (ha : a ∈ m.parts (.list l)) : l.index < m.lists.size := by
  by_contra hge
  rw [parts, elements, Array.getElem?_eq_none (Nat.le_of_not_lt hge)] at ha
  cases ha

/-- The list itself is one more than the lists in an element of it. -/
theorem Acyclic.listCount_lt (h : m.Acyclic (.list l)) (ha : a ∈ m.parts (.list l)) :
    m.listCount a < m.listCount (.list l) := by
  refine Finset.card_lt_card (Finset.ssubset_iff_of_subset (listsIn_subset ha) |>.mpr ?_)
  refine ⟨l.index, mem_listsIn.mpr ⟨lt_size_of_mem ha, .refl⟩, fun hl => ?_⟩
  exact h l .refl a ha (mem_listsIn.mp hl).2

/-- What holds of a value if it holds of its elements holds of every acyclic value.  The induction
is on the lists in the value, and on its size. -/
theorem Acyclic.induction {C : Value → Prop}
    (hstep : ∀ v, m.Acyclic v → (∀ a ∈ m.parts v, C a) → C v) (v : Value) (h : m.Acyclic v) :
    C v :=
  hstep v h fun a ha => induction hstep a (h.of_part ha)
termination_by (m.listCount v, sizeOf v)
decreasing_by
  cases v with
  | list l => exact Prod.Lex.left _ _ (h.listCount_lt ha)
  | tuple vs =>
      have hsize : sizeOf a < sizeOf (Value.tuple vs) := by
        have hlt := List.sizeOf_lt_of_mem (show a ∈ vs from ha)
        rw [Value.tuple.sizeOf_spec]
        omega
      rcases (listCount_le ha).lt_or_eq with hlt | heq
      · exact Prod.Lex.left _ _ hlt
      · rw [heq]
        exact Prod.Lex.right _ hsize
  | _ => cases ha

end Classlet.Memory
