import Classlet.Proofs.Operation.Integer

/-! # Plain data and their order

A `Datum` is what a value without identity means: nothing, an integer, a text, or a list or a tuple
of data.  Data are equal or not (`Datum.equal?`), and some of them are ordered (`Datum.order?`):
integers, texts, and sequences of a kind by the first elements that differ.  Both are partial,
because data of different kinds have no answer, and a sequence has none if the elements that decide
have none.

Where two data are ordered they are comparable for equality too, and the answers agree
(`equal?_of_order?`).  The order turns round with its operands (`order?_swap`) and is transitive
(`order?_trans`). -/

namespace Classlet

/-- What a value without identity means. -/
inductive Datum where
  | nil
  | number (n : Int)
  | text (s : String)
  | list (elements : List Datum)
  | tuple (elements : List Datum)

namespace Datum

/-! ### Induction -/

/-- A statement about a datum may assume it of the elements. -/
@[elab_as_elim, induction_eliminator]
theorem elementwise {motive : Datum → Prop} (nil : motive .nil)
    (number : ∀ n, motive (.number n)) (text : ∀ s, motive (.text s))
    (list : ∀ ds, (∀ d ∈ ds, motive d) → motive (.list ds))
    (tuple : ∀ ds, (∀ d ∈ ds, motive d) → motive (.tuple ds)) (d : Datum) : motive d :=
  @Datum.rec motive (fun ds => ∀ d ∈ ds, motive d) nil number text list tuple
    (fun _ h => nomatch h)
    (fun _ _ hd hds _ h => by
      rcases List.mem_cons.mp h with rfl | h
      · exact hd
      · exact hds _ h) d

/-! ### Equality and order -/

mutual

/-- Whether two data are equal, if they can be compared.  Nothing is equal to itself only, and can
be compared with anything. -/
def equal? : Datum → Datum → Option Bool
  | .nil, .nil => some true
  | .nil, _ => some false
  | _, .nil => some false
  | .number a, .number b => some (a = b)
  | .text a, .text b => some (a = b)
  | .list as, .list bs => if as.length = bs.length then equalAll? as bs else some false
  | .tuple as, .tuple bs => if as.length = bs.length then equalAll? as bs else some false
  | _, _ => none

/-- Whether the elements of sequences are equal, up to the first ones that are not. -/
def equalAll? : List Datum → List Datum → Option Bool
  | [], _ => some true
  | _ :: _, [] => some true
  | a :: as, b :: bs => match equal? a b with
    | some true => equalAll? as bs
    | answer => answer

end

/-- Whether two sequences are equal.  Those of different length are not, whatever they hold. -/
def equalSequences? (as bs : List Datum) : Option Bool :=
  if as.length = bs.length then equalAll? as bs else some false

mutual

/-- The order of two data, if they have one. -/
def order? : Datum → Datum → Option Ordering
  | .number a, .number b => some (compare a b)
  | .text a, .text b => some (compare a b)
  | .list as, .list bs => orderAll? as bs
  | .tuple as, .tuple bs => orderAll? as bs
  | _, _ => none

/-- The order of two sequences: that of the first elements that differ, or of the lengths. -/
def orderAll? : List Datum → List Datum → Option Ordering
  | [], [] => some .eq
  | [], _ :: _ => some .lt
  | _ :: _, [] => some .gt
  | a :: as, b :: bs => match equal? a b with
    | some true => orderAll? as bs
    | some false => order? a b
    | none => none

end

/-! ### Equality -/

section equality
variable {x y : Datum} {a b : Datum} {as bs : List Datum}

theorem equalAll?_cons : equalAll? (a :: as) (b :: bs) =
    (equal? a b).bind fun same => if same then equalAll? as bs else some false := by
  rw [equalAll?]
  rcases equal? a b with _ | _ | _ <;> rfl

theorem equal?_list (as bs : List Datum) :
    equal? (.list as) (.list bs) = equalSequences? as bs := by
  rw [equal?, equalSequences?]

theorem equal?_tuple (as bs : List Datum) :
    equal? (.tuple as) (.tuple bs) = equalSequences? as bs := by
  rw [equal?, equalSequences?]

theorem equalAll?_comm (h : ∀ a ∈ as, ∀ b, equal? a b = equal? b a) :
    equalAll? as bs = equalAll? bs as := by
  induction as generalizing bs with
  | nil => cases bs <;> simp only [equalAll?]
  | cons a as ih =>
      cases bs with
      | nil => simp only [equalAll?]
      | cons b bs =>
          rw [equalAll?, equalAll?, h a List.mem_cons_self b,
            ih fun a' ha => h a' (List.mem_cons_of_mem a ha)]

/-- It does not matter for equality which datum comes first. -/
theorem equal?_comm (x y : Datum) : equal? x y = equal? y x := by
  induction x generalizing y with
  | nil => cases y <;> simp only [equal?]
  | number a => cases y <;> simp only [equal?, eq_comm]
  | text a => cases y <;> simp only [equal?, eq_comm]
  | list as ih => cases y <;> simp only [equal?, eq_comm, equalAll?_comm ih]
  | tuple as ih => cases y <;> simp only [equal?, eq_comm, equalAll?_comm ih]

theorem equalAll?_eq_some_true (h : ∀ a ∈ as, ∀ b, equal? a b = some true ↔ a = b)
    (hlength : as.length = bs.length) : equalAll? as bs = some true ↔ as = bs := by
  induction as generalizing bs with
  | nil =>
      cases bs with
      | nil => simp only [equalAll?]
      | cons b bs => cases hlength
  | cons a as ih =>
      cases bs with
      | nil => cases hlength
      | cons b bs =>
          have htail := ih (fun a' ha => h a' (List.mem_cons_of_mem a ha)) (Nat.succ.inj hlength)
          have hhead := h a List.mem_cons_self b
          rw [List.cons.injEq, ← hhead, ← htail, equalAll?]
          rcases equal? a b with _ | _ | _ <;> simp

theorem equalSequences?_eq_some_true (h : ∀ a ∈ as, ∀ b, equal? a b = some true ↔ a = b) :
    equalSequences? as bs = some true ↔ as = bs := by
  unfold equalSequences?
  split
  case isTrue hlength => exact equalAll?_eq_some_true h hlength
  case isFalse hlength =>
      constructor
      · intro hfalse
        cases hfalse
      · rintro rfl
        exact absurd rfl hlength

theorem equal?_eq_some_true (x y : Datum) : equal? x y = some true ↔ x = y := by
  induction x generalizing y with
  | nil => cases y <;> simp [equal?]
  | number a => cases y <;> simp [equal?]
  | text a => cases y <;> simp [equal?]
  | list as ih =>
      cases y
      case list bs => rw [equal?_list, equalSequences?_eq_some_true ih, list.injEq]
      all_goals simp [equal?]
  | tuple as ih =>
      cases y
      case tuple bs => rw [equal?_tuple, equalSequences?_eq_some_true ih, tuple.injEq]
      all_goals simp [equal?]

theorem equal?_self (x : Datum) : equal? x x = some true := (equal?_eq_some_true x x).mpr rfl

end equality

/-! ### Order -/

section order
variable {x y z : Datum} {a b : Datum} {as bs cs : List Datum} {o : Ordering}

theorem orderAll?_cons : orderAll? (a :: as) (b :: bs) =
    (equal? a b).bind fun same => if same then orderAll? as bs else order? a b := by
  rw [orderAll?]
  rcases equal? a b with _ | _ | _ <;> rfl

theorem equalSequences?_cons_of_true (h : equal? a b = some true) :
    equalSequences? (a :: as) (b :: bs) = equalSequences? as bs := by
  simp only [equalSequences?, List.length_cons, Nat.add_right_cancel_iff, equalAll?, h]

theorem equalSequences?_cons_of_false (h : equal? a b = some false) :
    equalSequences? (a :: as) (b :: bs) = some false := by
  simp only [equalSequences?, equalAll?, h, ite_self]

theorem equalSequences?_of_orderAll?
    (h : ∀ a ∈ as, ∀ b o, order? a b = some o → equal? a b = some (o == .eq))
    (ho : orderAll? as bs = some o) : equalSequences? as bs = some (o == .eq) := by
  induction as generalizing bs with
  | nil => cases bs <;> cases ho <;> rfl
  | cons a as ih =>
      cases bs with
      | nil => cases ho; rfl
      | cons b bs =>
          rw [orderAll?] at ho
          split at ho
          case h_1 hsame =>
              rw [equalSequences?_cons_of_true hsame]
              exact ih (fun a' ha => h a' (List.mem_cons_of_mem a ha)) ho
          case h_2 hdiffer =>
              have hhead := h a List.mem_cons_self b o ho
              rw [equalSequences?_cons_of_false hdiffer, ← hhead, hdiffer]
          case h_3 => cases ho

theorem decide_eq_of_compare {α : Type} [Ord α] [Std.LawfulEqOrd α] [DecidableEq α] (p q : α) :
    decide (p = q) = (compare p q == .eq) := by
  rw [Bool.eq_iff_iff, decide_eq_true_iff, beq_iff_eq, Std.LawfulEqOrd.compare_eq_iff_eq]

/-- Data that are ordered can be compared for equality, and the answers agree. -/
theorem equal?_of_order? (h : order? x y = some o) : equal? x y = some (o == .eq) := by
  induction x generalizing y o with
  | nil => cases y <;> cases h
  | number a =>
      cases y <;> cases h
      rw [equal?, decide_eq_of_compare]
  | text a =>
      cases y <;> cases h
      rw [equal?, decide_eq_of_compare]
  | list as ih =>
      cases y
      case list bs =>
          rw [order?] at h
          rw [equal?_list]
          exact equalSequences?_of_orderAll? (fun a ha b o => ih a ha) h
      all_goals cases h
  | tuple as ih =>
      cases y
      case tuple bs =>
          rw [order?] at h
          rw [equal?_tuple]
          exact equalSequences?_of_orderAll? (fun a ha b o => ih a ha) h
      all_goals cases h

theorem orderAll?_swap (h : ∀ a ∈ as, ∀ b, order? b a = (order? a b).map Ordering.swap) :
    orderAll? bs as = (orderAll? as bs).map Ordering.swap := by
  induction as generalizing bs with
  | nil => cases bs <;> simp [orderAll?]
  | cons a as ih =>
      cases bs with
      | nil => simp [orderAll?]
      | cons b bs =>
          rw [orderAll?, orderAll?, equal?_comm b a]
          rcases equal? a b with _ | _ | _
          · rfl
          · exact h a List.mem_cons_self b
          · exact ih fun a' ha => h a' (List.mem_cons_of_mem a ha)

/-- The order of two data turns round with them. -/
theorem order?_swap (x y : Datum) : order? y x = (order? x y).map Ordering.swap := by
  induction x generalizing y with
  | nil => cases y <;> simp [order?]
  | number a => cases y <;> simp only [order?, Option.map_none, Option.map_some,
      ← Std.OrientedOrd.eq_swap]
  | text a => cases y <;> simp only [order?, Option.map_none, Option.map_some,
      ← Std.OrientedOrd.eq_swap]
  | list as ih =>
      cases y
      case list bs => simp only [order?, orderAll?_swap ih]
      all_goals simp [order?]
  | tuple as ih =>
      cases y
      case tuple bs => simp only [order?, orderAll?_swap ih]
      all_goals simp [order?]

/-- A sequence comes first if its head does, or if it begins alike and its tail does. -/
theorem orderAll?_cons_eq_lt : orderAll? (a :: as) (b :: bs) = some .lt ↔
    order? a b = some .lt ∨ (a = b ∧ orderAll? as bs = some .lt) := by
  rw [orderAll?, ← equal?_eq_some_true]
  cases hequal : equal? a b with
  | none =>
      have hnone : order? a b ≠ some .lt := fun h => by
        rw [equal?_of_order? h] at hequal
        cases hequal
      simp [hnone]
  | some same =>
      cases same with
      | false => simp
      | true =>
          have hlt : order? a b ≠ some .lt := fun h => by
            rw [equal?_of_order? h] at hequal
            cases hequal
          simp [hlt]

theorem orderAll?_trans
    (h : ∀ a ∈ as, ∀ b c, order? a b = some .lt → order? b c = some .lt → order? a c = some .lt)
    (hab : orderAll? as bs = some .lt) (hbc : orderAll? bs cs = some .lt) :
    orderAll? as cs = some .lt := by
  induction as generalizing bs cs with
  | nil =>
      cases cs with
      | nil =>
          cases bs with
          | nil => cases hab
          | cons b bs => cases hbc
      | cons c cs => rfl
  | cons a as ih =>
      cases bs with
      | nil => cases hab
      | cons b bs =>
          cases cs with
          | nil => cases hbc
          | cons c cs =>
              rw [orderAll?_cons_eq_lt] at hab hbc ⊢
              rcases hab with hab | ⟨rfl, hab⟩
              · rcases hbc with hbc | ⟨rfl, -⟩
                · exact .inl (h a List.mem_cons_self b c hab hbc)
                · exact .inl hab
              · rcases hbc with hbc | ⟨rfl, hbc⟩
                · exact .inl hbc
                · exact .inr ⟨rfl, ih (fun a' ha => h a' (List.mem_cons_of_mem a ha)) hab hbc⟩

theorem order?_trans (hxy : order? x y = some .lt) (hyz : order? y z = some .lt) :
    order? x z = some .lt := by
  induction x generalizing y z with
  | nil => cases y <;> cases hxy
  | number a =>
      cases y <;> try cases hxy
      case number b =>
          cases z <;> try cases hyz
          case number c =>
              rw [order?, Option.some.injEq] at hxy hyz ⊢
              exact Std.TransCmp.lt_trans hxy hyz
  | text a =>
      cases y <;> try cases hxy
      case text b =>
          cases z <;> try cases hyz
          case text c =>
              rw [order?, Option.some.injEq] at hxy hyz ⊢
              exact Std.TransCmp.lt_trans hxy hyz
  | list as ih =>
      cases y <;> try cases hxy
      case list bs =>
          cases z <;> try cases hyz
          case list cs =>
              rw [order?] at hxy hyz ⊢
              exact orderAll?_trans (fun a ha b c => ih a ha) hxy hyz
  | tuple as ih =>
      cases y <;> try cases hxy
      case tuple bs =>
          cases z <;> try cases hyz
          case tuple cs =>
              rw [order?] at hxy hyz ⊢
              exact orderAll?_trans (fun a ha b c => ih a ha) hxy hyz

end order

end Datum

end Classlet
