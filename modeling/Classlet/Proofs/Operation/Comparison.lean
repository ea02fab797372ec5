import Classlet.Interpreter
import Classlet.Proofs.Operation.Datum

/-! # Comparisons obey the laws of an order

A value is plain data (`Memory.IsData`) if it is built of `nil`, truth values, integers and texts by
lists and tuples, nested to any depth but finite.  Then it means a datum (`Memory.Unfolds`), and
the comparison operators come to what the data do (`binaryOperation_answers`): they answer with a
truth value or fail, and change nothing.  Which elements are looked at, and in which order, decides
whether they fail.

`comparison_laws` puts into the terms of the operators what `Classlet.Datum` says of data. -/

namespace Classlet

open Eval Datum

/-! ### Values that mean data -/

/-- A value is plain data.  No list contains itself, because the elements come before the whole. -/
inductive Memory.IsData (m : Memory) : Value → Prop where
  | nil : m.IsData .nil
  | bool (b : Bool) : m.IsData (.bool b)
  | int (n : Int64) : m.IsData (.int n)
  | str (s : String) : m.IsData (.str s)
  | list (l : ListRef) : (∀ v ∈ (m.elements l).toList, m.IsData v) → m.IsData (.list l)
  | tuple (vs : List Value) : (∀ v ∈ vs, m.IsData v) → m.IsData (.tuple vs)

mutual

/-- A value means a datum. -/
def Memory.Unfolds (m : Memory) : Value → Datum → Prop
  | v, .nil => v = .nil
  | v, .number n => v.integer? = some n
  | v, .text s => v = .str s
  | v, .list ds => ∃ l, v = .list l ∧ m.UnfoldAll (m.elements l).toList ds
  | v, .tuple ds => ∃ vs, v = .tuple vs ∧ m.UnfoldAll vs ds

/-- The elements of a sequence mean data. -/
def Memory.UnfoldAll (m : Memory) : List Value → List Datum → Prop
  | [], [] => True
  | v :: vs, d :: ds => m.Unfolds v d ∧ m.UnfoldAll vs ds
  | _, _ => False

end

section unfolding
variable {m : Memory} {vs : List Value} {x : Datum} {xs : List Datum}

theorem Memory.unfoldAll_nil : m.UnfoldAll vs [] ↔ vs = [] := by
  cases vs <;> simp [UnfoldAll]

theorem Memory.unfoldAll_cons : m.UnfoldAll vs (x :: xs) ↔
    ∃ w ws, vs = w :: ws ∧ m.Unfolds w x ∧ m.UnfoldAll ws xs := by
  cases vs <;> simp [UnfoldAll]

theorem Memory.UnfoldAll.length_eq (h : m.UnfoldAll vs xs) : vs.length = xs.length := by
  induction xs generalizing vs with
  | nil => rw [unfoldAll_nil.mp h, List.length_nil, List.length_nil]
  | cons x xs ih =>
      obtain ⟨v, vs, rfl, -, hvs⟩ := unfoldAll_cons.mp h
      rw [List.length_cons, List.length_cons, ih hvs]

theorem Memory.exists_unfoldAll (h : ∀ v ∈ vs, ∃ d, m.Unfolds v d) : ∃ ds, m.UnfoldAll vs ds := by
  induction vs with
  | nil => exact ⟨[], trivial⟩
  | cons v vs ih =>
      obtain ⟨d, hd⟩ := h v List.mem_cons_self
      obtain ⟨ds, hds⟩ := ih fun w hw => h w (List.mem_cons_of_mem v hw)
      exact ⟨d :: ds, hd, hds⟩

end unfolding

theorem Memory.IsData.exists_unfolds {m : Memory} {v : Value} (h : m.IsData v) :
    ∃ d, m.Unfolds v d := by
  induction h with
  | nil => exact ⟨.nil, rfl⟩
  | bool b => exact ⟨.number _, rfl⟩
  | int n => exact ⟨.number _, rfl⟩
  | str s => exact ⟨.text s, rfl⟩
  | list l _ ih =>
      obtain ⟨ds, hds⟩ := exists_unfoldAll ih
      exact ⟨.list ds, l, rfl, hds⟩
  | tuple vs _ ih =>
      obtain ⟨ds, hds⟩ := exists_unfoldAll ih
      exact ⟨.tuple ds, vs, rfl, hds⟩

/-! ### Answers -/

/-- A computation answers, or fails if there is no answer, and leaves the state as it is. -/
def Eval.Answers {α : Type} (x : Eval α) (s : State) : Option α → Prop
  | some a => x s = (.ok a, s)
  | none => ∃ error, x s = (.raised error, s)

section answers
variable {α β : Type} {s : State}

theorem Eval.answers_pure (a : α) : (pure a : Eval α).Answers s (some a) := rfl

theorem Eval.Answers.congr {x y : Eval α} {p : Option α} (hy : y.Answers s p) (h : x s = y s) :
    x.Answers s p := by
  cases p with
  | none =>
      obtain ⟨error, hy⟩ := hy
      exact ⟨error, h.trans hy⟩
  | some a => exact h.trans hy

theorem Eval.Answers.bind {x : Eval α} {f : α → Eval β} {p : Option α} {q : α → Option β}
    (hx : x.Answers s p) (hf : ∀ a, p = some a → (f a).Answers s (q a)) :
    (x >>= f).Answers s (p.bind q) := by
  cases p with
  | none =>
      obtain ⟨error, hx⟩ := hx
      refine ⟨error, ?_⟩
      rw [bind_apply, hx]
  | some a =>
      refine (hf a rfl).congr ?_
      rw [bind_apply, show x s = (.ok a, s) from hx]

/-- What turns the answers `g c` into answers `h c` does not change whether there is one. -/
theorem Eval.Answers.map {γ : Type} {x : Eval α} {f : α → Eval β} {p : Option γ} {g : γ → α}
    {h : γ → β} (hx : x.Answers s (p.map g)) (hf : ∀ c, f (g c) = pure (h c)) :
    (x >>= f).Answers s (p.map h) := by
  cases p with
  | none =>
      obtain ⟨error, hx⟩ := hx
      refine ⟨error, ?_⟩
      rw [bind_apply, hx]
  | some c =>
      refine (answers_pure (h c)).congr ?_
      rw [bind_apply, show x s = (.ok (g c), s) from hx, ← hf]

theorem Eval.Answers.answerOr {x : Eval (Option α)} {y : Eval α} {p : Option α}
    (hx : x.Answers s (p.map some)) : (answerOr x y).Answers s p := by
  rw [← Option.map_id_apply (x := p)]
  exact hx.map fun a => rfl

theorem Eval.Answers.unique {x : Eval α} {p q : Option α} (hp : x.Answers s p)
    (hq : x.Answers s q) : p = q := by
  cases p with
  | none =>
      obtain ⟨error, hp⟩ := hp
      cases q with
      | none => rfl
      | some b => cases hp.symm.trans hq
  | some a =>
      have hp : x s = (.ok a, s) := hp
      cases q with
      | none =>
          obtain ⟨error, hq⟩ := hq
          cases hp.symm.trans hq
      | some b => cases hp.symm.trans hq; rfl

/-- A computation answers with a truth value, or fails if there is none. -/
def Eval.Says (x : Eval Value) (s : State) (t : Option Bool) : Prop := x.Answers s (t.map .bool)

theorem Eval.Says.iff {x : Eval Value} {t u : Option Bool} (hu : x.Says s u) :
    x.Says s t ↔ t = u := by
  constructor
  · intro ht
    have hmap : t.map Value.bool = u.map .bool := Answers.unique ht hu
    cases t <;> cases u <;> cases hmap <;> rfl
  · rintro rfl
    exact hu

end answers

/-! ### What the operators ask -/

def BinaryOp.orderings : List BinaryOp := [.lt, .le, .gt, .ge]

def BinaryOp.comparisons : List BinaryOp := equalities ++ orderings

/-- Whether an operator that compares holds of operands in an order. -/
def BinaryOp.holds : BinaryOp → Ordering → Bool
  | .eq, o => o == .eq
  | .ne, o => o != .eq
  | .lt, o => o == .lt
  | .le, o => o != .gt
  | .gt, o => o == .gt
  | .ge, o => o != .lt
  | _, _ => false

/-- What an operator that compares answers of data. -/
def Datum.answer? (op : BinaryOp) (x y : Datum) : Option Bool :=
  match op with
  | .eq => equal? x y
  | .ne => (equal? x y).map (!·)
  | op => (order? x y).map op.holds

section comparisons
variable {op other : BinaryOp}

theorem BinaryOp.ne_of_comparisons (hop : op ∈ comparisons) (h : other ∉ comparisons) :
    op ≠ other :=
  fun heq => h (heq ▸ hop)

theorem compareAs_eq (hop : op ∈ BinaryOp.comparisons) (o : Ordering) :
    Arithmetic.compareAs op o = some (op.holds o) := by
  cases op
  case eq | ne | lt | le | gt | ge => rfl
  all_goals exact absurd hop (by decide)

theorem onInts_eq (hop : op ∈ BinaryOp.comparisons) (a b : Int64) :
    Arithmetic.onInts op a b = .ok (some (.bool (op.holds (compare a.toInt b.toInt)))) := by
  have hcompare : Arithmetic.onInts op a b =
      .ok ((Arithmetic.compareAs op (compare a.toInt b.toInt)).map .bool) := by
    cases op
    case eq | ne | lt | le | gt | ge => rfl
    all_goals exact absurd hop (by decide)
  rw [hcompare, compareAs_eq hop, Option.map_some]

theorem answer?_of_equalities (hop : op ∈ BinaryOp.equalities) (x y : Datum) :
    answer? op x y = (equal? x y).map fun same => same == (op == .eq) := by
  cases op
  case eq | ne =>
      unfold answer?
      rcases equal? x y with _ | _ | _ <;> rfl
  all_goals exact absurd hop (by decide)

theorem answer?_of_orderings (hop : op ∈ BinaryOp.orderings) (x y : Datum) :
    answer? op x y = (order? x y).map op.holds := by
  cases op
  case lt | le | gt | ge => rfl
  all_goals exact absurd hop (by decide)

end comparisons

/-! ### Operands without elements -/

section operands
variable {e : Engine} {s : State} {op : BinaryOp} {v w : Value} {x y : Datum}

/-- What no operand answers fails, unless references are compared. -/
theorem unanswered_answers (h : identical? v w = none) : (unanswered op v w).Answers s none := by
  unfold unanswered
  rw [h]
  cases op <;> exact ⟨_, rfl⟩

theorem binaryOperation_numbers (hop : op ∈ BinaryOp.comparisons) {m n : Int}
    (hv : v.integer? = some m) (hw : w.integer? = some n) :
    binaryOperation e op v w = pure (.bool (op.holds (compare m n))) := by
  refine Arithmetic.binaryOperation_of_owns e op (a := .ok _)
    (Arithmetic.owns_of_integers hv hw) ?_
  obtain ⟨a, b, rfl, rfl, ⟨p, q, rfl, rfl, rfl, rfl⟩ | ⟨-, hnumeric⟩⟩ :=
    Arithmetic.exists_integers hv hw
  · have hbools : Arithmetic.numeric op (.bool p) (.bool q) =
        Arithmetic.onInts op (Arithmetic.ofBool p) (Arithmetic.ofBool q) := by
      cases op
      case bitAnd | bitOr | bitXor => exact absurd hop (by decide)
      all_goals rfl
    rw [hbools, onInts_eq hop]
    rfl
  · rw [hnumeric, onInts_eq hop]
    rfl

theorem binaryOperation_texts (hop : op ∈ BinaryOp.comparisons) (a b : String) :
    binaryOperation e op (.str a) (.str b) = pure (.bool (op.holds (compare a b))) := by
  have hadd : op ≠ .add := BinaryOp.ne_of_comparisons hop (by decide)
  have hprobe : probe e op (.str a) (.str b) =
      pure ((Arithmetic.compareAs op (compare a b)).map .bool) := if_neg hadd
  rw [binaryOperation_eq, hprobe, compareAs_eq hop, Option.map_some, answerOr_some]

end operands

/-! ### Operands of different kinds -/

/-- The kinds of data.  Truth values are numbers. -/
inductive Datum.Kind where
  | nil
  | number
  | text
  | list
  | tuple
  deriving DecidableEq

def Datum.kind : Datum → Kind
  | .nil => .nil
  | .number _ => .number
  | .text _ => .text
  | .list _ => .list
  | .tuple _ => .tuple

/-- The kind of a value, if it is one of data. -/
def Value.kind? : Value → Option Kind
  | .nil => some .nil
  | .bool _ | .int _ => some .number
  | .str _ => some .text
  | .list _ => some .list
  | .tuple _ => some .tuple
  | _ => none

theorem Memory.Unfolds.kind?_eq {m : Memory} {v : Value} {x : Datum} (h : m.Unfolds v x) :
    v.kind? = some x.kind := by
  cases x with
  | nil => cases h; rfl
  | number n => cases v <;> cases h <;> rfl
  | text s => cases h; rfl
  | list ds => obtain ⟨l, rfl, -⟩ := h; rfl
  | tuple ds => obtain ⟨vs, rfl, -⟩ := h; rfl

section kinds
variable {e : Engine} {s : State} {op : BinaryOp} {v w : Value} {x y : Datum} {j k : Kind}

theorem order?_of_kinds (h : x.kind ≠ y.kind) : order? x y = none := by
  cases x <;> cases y <;> first | exact absurd rfl h | simp only [order?]

theorem equal?_of_kinds (h : x.kind ≠ y.kind) (hx : x.kind ≠ .nil) (hy : y.kind ≠ .nil) :
    equal? x y = none := by
  cases x <;> cases y <;> first | exact absurd rfl h | simp [equal?, kind] at *

theorem equal?_of_nil (h : x.kind ≠ y.kind) (hnil : x.kind = .nil ∨ y.kind = .nil) :
    equal? x y = some false := by
  cases x <;> cases y <;> first | exact absurd rfl h | simp [equal?, kind] at *

theorem isNil_of_kind (hv : v.kind? = some j) (hnil : j ≠ .nil) : v.isNil = false := by
  cases v
  case nil => exact absurd (Option.some.inj hv).symm hnil
  all_goals rfl

/-- The left operand has no answer for one of another kind. -/
theorem probe_of_kinds (hop : op ∈ BinaryOp.comparisons) (hv : v.kind? = some j)
    (hw : w.kind? = some k) (hkinds : j ≠ k) (hnil : j ≠ .nil) : probe e op v w = pure none := by
  have hmul : op ≠ .mul := BinaryOp.ne_of_comparisons hop (by decide)
  cases v <;> cases hv <;> cases w <;> cases hw <;>
    simp [probe, builtinBinary, Value.isNil, Arithmetic.owns, Arithmetic.rank?, hmul] at *

/-- The right operand has no answer for one of another kind. -/
theorem reversedAnswer_of_kinds (hop : op ∈ BinaryOp.comparisons) (hv : v.kind? = some j)
    (hw : w.kind? = some k) (hkinds : j ≠ k) (hnil : k ≠ .nil) :
    reversedAnswer e op v w = pure none := by
  have hmul : op ≠ .mul := BinaryOp.ne_of_comparisons hop (by decide)
  cases v <;> cases hv <;> cases w <;> cases hw <;>
    simp [reversedAnswer, probeReversed, builtinReversed, Value.isNil, Arithmetic.owns,
      Arithmetic.rank?, hmul] at *

theorem identical?_of_kind (hv : v.kind? = some j) : identical? v w = none := by
  cases v <;> cases hv <;> cases w <;> rfl

theorem nilEquality_of_orderings (hop : op ∈ BinaryOp.orderings) : nilEquality op w = none := by
  cases op
  case lt | le | gt | ge => rfl
  all_goals exact absurd hop (by decide)

theorem nilEquality_of_equalities (hop : op ∈ BinaryOp.equalities) (hw : w.isNil = false) :
    nilEquality op w = some (.bool (false == (op == .eq))) := by
  cases op
  case eq | ne =>
    rw [nilEquality, hw]
    rfl
  all_goals exact absurd hop (by decide)

/-- Whichever operand is nothing, it answers that the other one is not. -/
theorem binaryOperation_of_nil (hop : op ∈ BinaryOp.comparisons) (hv : v.kind? = some j)
    (hw : w.kind? = some k) (hkinds : j ≠ k) (hnil : j = .nil ∨ k = .nil) :
    ∃ other : Value, other.isNil = false ∧ binaryOperation e op v w =
      answerOr (pure (nilEquality op other)) (unanswered op v w) := by
  by_cases hj : j = .nil
  · have hk : k ≠ .nil := fun hk => hkinds (hj.trans hk.symm)
    refine ⟨w, isNil_of_kind hw hk, ?_⟩
    have hprobe : probe e op v w = pure (nilEquality op w) := by
      cases v <;> cases hv <;> cases hj
      rfl
    rw [binaryOperation_eq, hprobe, reversedAnswer_of_kinds hop hv hw hkinds hk, answerOr_none]
  · refine ⟨v, isNil_of_kind hv hj, ?_⟩
    have hreversed : reversedAnswer e op v w = pure (nilEquality op v) := by
      cases w <;> cases hw <;> cases hnil.resolve_left hj
      cases v <;> first | exact absurd (Option.some.inj hv).symm hj | rfl
    rw [binaryOperation_eq, probe_of_kinds hop hv hw hkinds hj, answerOr_none, hreversed]

/-- Data of different kinds have no answer, unless they are compared with nothing. -/
theorem answers_of_kinds (hop : op ∈ BinaryOp.comparisons) (hx : s.memory.Unfolds v x)
    (hy : s.memory.Unfolds w y) (hkinds : x.kind ≠ y.kind) :
    (binaryOperation e op v w).Says s (answer? op x y) := by
  have hv := hx.kind?_eq
  have hw := hy.kind?_eq
  have hfails : (unanswered op v w).Answers s none := unanswered_answers (identical?_of_kind hv)
  by_cases hnil : x.kind = .nil ∨ y.kind = .nil
  · obtain ⟨other, hother, hrun⟩ := binaryOperation_of_nil (e := e) hop hv hw hkinds hnil
    rw [hrun]
    rcases List.mem_append.mp hop with heq | hord
    · rw [nilEquality_of_equalities heq hother, answer?_of_equalities heq,
        equal?_of_nil hkinds hnil, answerOr_some]
      exact answers_pure _
    · rw [nilEquality_of_orderings hord, answer?_of_orderings hord, order?_of_kinds hkinds,
        answerOr_none]
      exact hfails
  · obtain ⟨hj, hk⟩ := not_or.mp hnil
    have hnone : answer? op x y = none := by
      rcases List.mem_append.mp hop with heq | hord
      · rw [answer?_of_equalities heq, equal?_of_kinds hkinds hj hk, Option.map_none]
      · rw [answer?_of_orderings hord, order?_of_kinds hkinds, Option.map_none]
    rw [hnone, binaryOperation_eq, probe_of_kinds hop hv hw hkinds hj, answerOr_none,
      reversedAnswer_of_kinds hop hv hw hkinds hk, answerOr_none]
    exact hfails

end kinds

/-! ### Sequences -/

section sequences
variable {e : Engine} {s : State} {op : BinaryOp} {vs ws : List Value} {xs ys : List Datum}

/-- An engine compares what means `x` as the datum. -/
def Engine.Compares (e : Engine) (s : State) (x : Datum) : Prop :=
  ∀ op ∈ BinaryOp.comparisons, ∀ v w y, s.memory.Unfolds v x → s.memory.Unfolds w y →
    (e.binary op v w).Says s (answer? op x y)

theorem equalElements_answers {v w : Value} {x y : Datum} (h : e.Compares s x)
    (hv : s.memory.Unfolds v x) (hw : s.memory.Unfolds w y) :
    (equalElements e v w).Answers s (equal? x y) := by
  rw [← Option.map_id_apply (x := equal? x y)]
  exact (h .eq (by decide) v w y hv hw).map fun b => rfl

theorem allEqual_answers (h : ∀ x ∈ xs, e.Compares s x) (hvs : s.memory.UnfoldAll vs xs)
    (hws : s.memory.UnfoldAll ws ys) : (allEqual e vs ws).Answers s (equalAll? xs ys) := by
  induction xs generalizing vs ws ys with
  | nil =>
      obtain rfl := Memory.unfoldAll_nil.mp hvs
      rw [equalAll?]
      exact answers_pure true
  | cons x xs ih =>
      obtain ⟨v, vs, rfl, hv, hvs⟩ := Memory.unfoldAll_cons.mp hvs
      cases ys with
      | nil =>
          obtain rfl := Memory.unfoldAll_nil.mp hws
          rw [equalAll?]
          exact answers_pure true
      | cons y ys =>
          obtain ⟨w, ws, rfl, hw, hws⟩ := Memory.unfoldAll_cons.mp hws
          have hhead := equalElements_answers (h x List.mem_cons_self) hv hw
          have htail := ih (fun x' hx => h x' (List.mem_cons_of_mem x hx)) hvs hws
          rw [equalAll?_cons]
          refine hhead.bind fun same _ => ?_
          cases same with
          | false => exact answers_pure false
          | true => exact htail

/-- Sequences are equal if they have the same length and their elements are. -/
theorem equality_answers (h : ∀ x ∈ xs, e.Compares s x) (hvs : s.memory.UnfoldAll vs xs)
    (hws : s.memory.UnfoldAll ws ys) :
    (if vs.length = ws.length then allEqual e vs ws else pure false).Answers s
      (equalSequences? xs ys) := by
  unfold equalSequences?
  rw [hvs.length_eq, hws.length_eq]
  split
  case isTrue => exact allEqual_answers h hvs hws
  case isFalse => exact answers_pure false

/-- The answer at the first elements that differ or, if none do, that of the lengths. -/
def orLengths (op : BinaryOp) (l r : Nat) : Option Value → Eval (Option Value)
  | some v => pure (some v)
  | none => pure ((Arithmetic.compareAs op (compare l r)).map .bool)

theorem orLengths_none (hop : op ∈ BinaryOp.orderings) {l r : Nat} {o : Ordering}
    (h : compare l r = o) : orLengths op l r none = pure (some (.bool (op.holds o))) := by
  have hcomparison : op ∈ BinaryOp.comparisons := List.mem_append_right _ hop
  rw [orLengths, h, compareAs_eq hcomparison, Option.map_some]

/-- All operators of order look for the first elements that differ. -/
theorem onSequences_of_order (hop : op ∈ BinaryOp.orderings) (make : List Value → Eval Value) :
    onSequences e op vs ws make =
      orderAtDifference e op vs ws >>= orLengths op vs.length ws.length := by
  cases op
  case lt | le | gt | ge =>
      refine congrArg (orderAtDifference e _ vs ws >>= ·) (funext fun answer => ?_)
      cases answer <;> rfl
  all_goals exact absurd hop (by decide)

/-- Sequences, which may follow `n` equal elements, are ordered by the first elements that differ or
by their lengths. -/
theorem order_answers (hop : op ∈ BinaryOp.orderings) (h : ∀ x ∈ xs, e.Compares s x)
    (hvs : s.memory.UnfoldAll vs xs) (hws : s.memory.UnfoldAll ws ys) (n : Nat) :
    (orderAtDifference e op vs ws >>= orLengths op (vs.length + n) (ws.length + n)).Answers s
      ((orderAll? xs ys).map fun o => some (.bool (op.holds o))) := by
  induction xs generalizing vs ws ys n with
  | nil =>
      obtain rfl := Memory.unfoldAll_nil.mp hvs
      cases ys with
      | nil =>
          obtain rfl := Memory.unfoldAll_nil.mp hws
          show (orLengths op _ _ none).Answers s _
          rw [orLengths_none hop (o := .eq) Std.ReflOrd.compare_self]
          exact answers_pure _
      | cons y ys =>
          obtain ⟨w, ws, rfl, -, -⟩ := Memory.unfoldAll_cons.mp hws
          show (orLengths op _ _ none).Answers s _
          rw [orLengths_none hop (o := .lt) (Nat.compare_eq_lt.mpr (by simp))]
          exact answers_pure _
  | cons x xs ih =>
      obtain ⟨v, vs, rfl, hv, hvs⟩ := Memory.unfoldAll_cons.mp hvs
      cases ys with
      | nil =>
          obtain rfl := Memory.unfoldAll_nil.mp hws
          show (orLengths op _ _ none).Answers s _
          rw [orLengths_none hop (o := .gt) (Nat.compare_eq_gt.mpr (by simp))]
          exact answers_pure _
      | cons y ys =>
          obtain ⟨w, ws, rfl, hw, hws⟩ := Memory.unfoldAll_cons.mp hws
          have hhead := equalElements_answers (h x List.mem_cons_self) hv hw
          have htail := ih (fun x' hx => h x' (List.mem_cons_of_mem x hx)) hvs hws (n + 1)
          have hdiffer := h x List.mem_cons_self op (List.mem_append_right _ hop) v w y hv hw
          rw [orderAll?_cons, Option.map_bind, orderAtDifference, ← Eval.bind_assoc]
          refine hhead.bind fun same _ => ?_
          cases same with
          | false =>
              rw [answer?_of_orderings hop, Says, Option.map_map] at hdiffer
              show ((e.binary op v w >>= fun r => pure (some r)) >>= _).Answers s
                ((order? x y).map _)
              rw [← Eval.bind_assoc]
              exact hdiffer.map fun o => rfl
          | true =>
              have hlength : ∀ (u : Value) (us : List Value),
                  (u :: us).length + n = us.length + (n + 1) := by
                intro u us
                rw [List.length_cons, Nat.add_right_comm, Nat.add_assoc]
              rw [hlength, hlength]
              exact htail

theorem answer?_tuple (op : BinaryOp) (xs ys : List Datum) :
    answer? op (.tuple xs) (.tuple ys) = answer? op (.list xs) (.list ys) := by
  cases op <;> simp only [answer?, equal?, order?]

/-- Sequences of a kind are compared as the data that they mean. -/
theorem onSequences_answers (hop : op ∈ BinaryOp.comparisons) (h : ∀ x ∈ xs, e.Compares s x)
    (hvs : s.memory.UnfoldAll vs xs) (hws : s.memory.UnfoldAll ws ys)
    (make : List Value → Eval Value) :
    (onSequences e op vs ws make).Answers s
      ((answer? op (.list xs) (.list ys)).map fun b => some (.bool b)) := by
  rcases List.mem_append.mp hop with hop | hop
  · have hanswer := equality_answers h hvs hws
    rw [← Option.map_id_apply (x := equalSequences? xs ys)] at hanswer
    rw [answer?_of_equalities hop, equal?_list, Option.map_map,
      onSequences_of_equality e hop]
    exact hanswer.map fun same => rfl
  · rw [answer?_of_orderings hop, order?, Option.map_map, onSequences_of_order hop]
    exact order_answers hop h hvs hws 0

end sequences

/-! ### All operands -/

section all
variable {e : Engine} {s : State} {op : BinaryOp} {v w : Value} {x y : Datum}

theorem answers_of_nil (hop : op ∈ BinaryOp.comparisons) :
    (binaryOperation e op .nil .nil).Says s (answer? op .nil .nil) := by
  cases op
  case eq | ne => rfl
  case lt | le | gt | ge => exact ⟨_, rfl⟩
  all_goals exact absurd hop (by decide)

theorem answer?_of_order? {o : Ordering} (hop : op ∈ BinaryOp.comparisons)
    (ho : order? x y = some o) : answer? op x y = some (op.holds o) := by
  have hequal := equal?_of_order? ho
  cases op
  case eq => exact hequal
  case ne => exact congrArg (Option.map (!·)) hequal
  case lt | le | gt | ge => exact congrArg (Option.map _) ho
  all_goals exact absurd hop (by decide)

/-- An engine that compares the elements of data compares the data. -/
theorem binaryOperation_answers (hop : op ∈ BinaryOp.comparisons) (hx : s.memory.Unfolds v x)
    (hy : s.memory.Unfolds w y)
    (helements : ∀ xs, x = .list xs ∨ x = .tuple xs → ∀ z ∈ xs, e.Compares s z) :
    (binaryOperation e op v w).Says s (answer? op x y) := by
  rcases ne_or_eq x.kind y.kind with hkinds | hkinds
  · exact answers_of_kinds hop hx hy hkinds
  cases x with
  | nil =>
      cases y <;> cases hkinds
      cases hx
      cases hy
      exact answers_of_nil hop
  | number m =>
      cases y <;> cases hkinds
      rw [binaryOperation_numbers hop hx hy, answer?_of_order? hop (order?.eq_1 _ _)]
      exact answers_pure _
  | text a =>
      cases y <;> cases hkinds
      cases hx
      cases hy
      rw [binaryOperation_texts hop, answer?_of_order? hop (order?.eq_2 _ _)]
      exact answers_pure _
  | list xs =>
      cases y <;> cases hkinds
      obtain ⟨l, rfl, hvs⟩ := hx
      obtain ⟨l', rfl, hws⟩ := hy
      rw [binaryOperation_eq]
      refine Answers.answerOr ?_
      rw [Option.map_map]
      exact onSequences_answers hop (helements xs (.inl rfl)) hvs hws newListOf
  | tuple xs =>
      cases y <;> cases hkinds
      obtain ⟨vs, rfl, hvs⟩ := hx
      obtain ⟨ws, rfl, hws⟩ := hy
      rw [binaryOperation_eq, answer?_tuple]
      refine Answers.answerOr ?_
      rw [Option.map_map]
      exact onSequences_answers hop (helements xs (.inr rfl)) hvs hws fun vs => pure (.tuple vs)

/-- The engines compare data of which they have enough fuel to see the elements. -/
theorem engine_compares (settings : Settings) (loader : Loader) {fuel : Nat}
    (hfuel : sizeOf x ≤ fuel) : (engine settings loader fuel).Compares s x := by
  induction fuel generalizing x with
  | zero => cases x <;> simp at hfuel
  | succ fuel ih =>
      intro op hop v w y hv hw
      refine binaryOperation_answers (e := engine settings loader fuel) hop hv hw ?_
      rintro xs hxs z hz
      refine ih ?_
      have hlt : sizeOf z < sizeOf xs := List.sizeOf_lt_of_mem hz
      rcases hxs with rfl | rfl <;> simp at hfuel <;> omega

/-- A comparison of data comes to what the data do, if there is fuel to see their elements. -/
theorem engine_answers (settings : Settings) (loader : Loader) {fuel : Nat}
    (hfuel : sizeOf x ≤ fuel) (hop : op ∈ BinaryOp.comparisons) (hv : s.memory.Unfolds v x)
    (hw : s.memory.Unfolds w y) :
    (binaryOperation (engine settings loader fuel) op v w).Says s (answer? op x y) :=
  engine_compares settings loader (Nat.le_succ_of_le hfuel) op hop v w y hv hw

end all

/-! ### The laws -/

section laws
variable {s : State} {op : BinaryOp} {x y : Datum}

/-- All comparisons of two operands, as their order has them. -/
structure Ordered (run : BinaryOp → Eval Value) (s : State) (o : Ordering) : Prop where
  lt : (run .lt).Says s (some (o == .lt))
  eq : (run .eq).Says s (some (o == .eq))
  gt : (run .gt).Says s (some (o == .gt))
  ne : (run .ne).Says s (some (!(o == .eq)))
  le : (run .le).Says s (some (o == .lt || o == .eq))
  ge : (run .ge).Says s (some (o == .gt || o == .eq))

/-- The laws that comparisons of `a`, `b` and `c` obey. -/
structure ComparisonLaws (run : BinaryOp → Value → Value → Eval Value) (s : State)
    (a b c : Value) : Prop where
  /-- A comparison says something or fails. -/
  settled : ∀ op ∈ BinaryOp.comparisons, ∃ t, (run op a b).Says s t
  /-- The operators of order fail together; where they do not, the operands are in an order. -/
  order : (∀ op ∈ BinaryOp.orderings, (run op a b).Says s none) ∨
    ∃ o, Ordered (fun op => run op a b) s o
  mirrored : ∀ op ∈ BinaryOp.comparisons, ∃ mirror, op.mirrored? = some mirror ∧
    ∀ t, (run op a b).Says s t ↔ (run mirror b a).Says s t
  refl : (run .eq a a).Says s (some true)
  trans : (run .lt a b).Says s (some true) → (run .lt b c).Says s (some true) →
    (run .lt a c).Says s (some true)

theorem answer?_mirrored (hop : op ∈ BinaryOp.comparisons) (x y : Datum) :
    ∃ mirror, op.mirrored? = some mirror ∧ mirror ∈ BinaryOp.comparisons ∧
      answer? mirror y x = answer? op x y := by
  have hequal := equal?_comm x y
  have horder := order?_swap x y
  have hswap : ∀ f g : Ordering → Bool, (∀ o, f o.swap = g o) →
      (order? y x).map f = (order? x y).map g := by
    intro f g h
    rw [horder, Option.map_map]
    exact congrArg (Option.map · (order? x y)) (funext h)
  cases op
  case eq => exact ⟨.eq, rfl, by decide, hequal.symm⟩
  case ne => exact ⟨.ne, rfl, by decide, congrArg (Option.map (!·)) hequal.symm⟩
  case lt => exact ⟨.gt, rfl, by decide, hswap _ _ (by decide)⟩
  case le => exact ⟨.ge, rfl, by decide, hswap _ _ (by decide)⟩
  case gt => exact ⟨.lt, rfl, by decide, hswap _ _ (by decide)⟩
  case ge => exact ⟨.le, rfl, by decide, hswap _ _ (by decide)⟩
  all_goals exact absurd hop (by decide)

theorem answer?_lt : answer? .lt x y = some true ↔ order? x y = some .lt := by
  show (order? x y).map _ = _ ↔ _
  rcases order? x y with _ | _ | _ | _ <;> decide

/-- Where comparisons come to what data do, they obey the laws. -/
theorem ComparisonLaws.of_answers {run : BinaryOp → Value → Value → Eval Value} {a b c : Value}
    {x y z : Datum}
    (hrun : ∀ op ∈ BinaryOp.comparisons, ∀ p ∈ [(a, x), (b, y), (c, z)],
      ∀ q ∈ [(a, x), (b, y), (c, z)], (run op p.1 q.1).Says s (answer? op p.2 q.2)) :
    ComparisonLaws run s a b c where
  settled op hop := ⟨_, hrun op hop (a, x) (by simp) (b, y) (by simp)⟩
  order := by
    have hxy : ∀ op ∈ BinaryOp.comparisons, (run op a b).Says s (answer? op x y) :=
      fun op hop => hrun op hop (a, x) (by simp) (b, y) (by simp)
    cases horder : order? x y with
    | none =>
        left
        intro op hop
        have hnone := hxy op (List.mem_append_right _ hop)
        rwa [answer?_of_orderings hop, horder] at hnone
    | some o =>
        have hsome : ∀ op ∈ BinaryOp.comparisons, (run op a b).Says s (some (op.holds o)) := by
          intro op hop
          rw [← answer?_of_order? hop horder]
          exact hxy op hop
        have hle : (o != .gt) = (o == .lt || o == .eq) := by cases o <;> rfl
        have hge : (o != .lt) = (o == .gt || o == .eq) := by cases o <;> rfl
        exact .inr ⟨o,
          { lt := hsome .lt (by decide)
            eq := hsome .eq (by decide)
            gt := hsome .gt (by decide)
            ne := hsome .ne (by decide)
            le := hle ▸ hsome .le (by decide)
            ge := hge ▸ hsome .ge (by decide) }⟩
  mirrored op hop := by
    obtain ⟨mirror, hmirror, hcomparison, hanswer⟩ := answer?_mirrored hop x y
    have hxy := hrun op hop (a, x) (by simp) (b, y) (by simp)
    have hyx := hrun mirror hcomparison (b, y) (by simp) (a, x) (by simp)
    rw [hanswer] at hyx
    exact ⟨mirror, hmirror, fun t => hxy.iff.trans hyx.iff.symm⟩
  refl := by
    have hxx := hrun .eq (by decide) (a, x) (by simp) (a, x) (by simp)
    rwa [show answer? .eq x x = some true from equal?_self x] at hxx
  trans hab hbc := by
    have hlt : BinaryOp.lt ∈ BinaryOp.comparisons := by decide
    have hxy := (hrun .lt hlt (a, x) (by simp) (b, y) (by simp)).iff.mp hab
    have hyz := (hrun .lt hlt (b, y) (by simp) (c, z) (by simp)).iff.mp hbc
    have hxz := order?_trans (answer?_lt.mp hxy.symm) (answer?_lt.mp hyz.symm)
    have hac := hrun .lt hlt (a, x) (by simp) (c, z) (by simp)
    rwa [answer?_lt.mpr hxz] at hac

/-- **Comparisons of plain data obey the laws of a partial order**, however deep the data are
nested. -/
theorem comparison_laws (settings : Settings) (loader : Loader) {a b c : Value}
    (ha : s.memory.IsData a) (hb : s.memory.IsData b) (hc : s.memory.IsData c) :
    ∃ needed, ∀ fuel ≥ needed,
      ComparisonLaws (fun op => binaryOperation (engine settings loader fuel) op) s a b c := by
  obtain ⟨x, hx⟩ := ha.exists_unfolds
  obtain ⟨y, hy⟩ := hb.exists_unfolds
  obtain ⟨z, hz⟩ := hc.exists_unfolds
  refine ⟨sizeOf x + sizeOf y + sizeOf z, fun fuel hfuel => ?_⟩
  have hmeaning : ∀ p ∈ [(a, x), (b, y), (c, z)],
      s.memory.Unfolds p.1 p.2 ∧ sizeOf p.2 ≤ fuel := by
    simp only [List.forall_mem_cons, List.not_mem_nil, false_imp_iff, implies_true, and_true]
    exact ⟨⟨hx, by omega⟩, ⟨hy, by omega⟩, ⟨hz, by omega⟩⟩
  exact ComparisonLaws.of_answers fun op hop p hp q hq =>
    engine_answers settings loader (hmeaning p hp).2 hop (hmeaning p hp).1 (hmeaning q hq).1

/-- A state with a list of a truth value and a text. -/
def listOfTwo : State := (newList #[.bool true, .str "b"] .initial).2

/-- Tuples of the list, of numbers of both kinds and of nothing. -/
theorem comparison_laws_nested :
    let l := Value.list ⟨0⟩
    let a := Value.tuple [l, .int 1]
    let b := Value.tuple [l, .bool true, .nil]
    let c := Value.tuple [l, .int 2, .tuple [.str "c"]]
    listOfTwo.memory.elements ⟨0⟩ = #[.bool true, .str "b"] ∧ listOfTwo.memory.IsData a ∧
      listOfTwo.memory.IsData b ∧ listOfTwo.memory.IsData c ∧
      ∃ needed, ∀ fuel ≥ needed, ComparisonLaws
        (fun op => binaryOperation (engine {} (fun _ => .unknown) fuel) op) listOfTwo a b c := by
  have helements : listOfTwo.memory.elements ⟨0⟩ = #[.bool true, .str "b"] := rfl
  have hlist : listOfTwo.memory.IsData (.list ⟨0⟩) := by
    refine .list _ ?_
    rw [helements]
    simp only [List.forall_mem_cons, List.not_mem_nil, false_imp_iff, implies_true, and_true]
    exact ⟨.bool true, .str "b"⟩
  have htuple : ∀ {vs : List Value}, (∀ v ∈ vs, listOfTwo.memory.IsData v) →
      listOfTwo.memory.IsData (.tuple vs) := .tuple _
  have ha : listOfTwo.memory.IsData (.tuple [.list ⟨0⟩, .int 1]) := htuple (by
    simpa using ⟨hlist, .int 1⟩)
  have hb : listOfTwo.memory.IsData (.tuple [.list ⟨0⟩, .bool true, .nil]) := htuple (by
    simpa using ⟨hlist, .bool true, .nil⟩)
  have hc : listOfTwo.memory.IsData (.tuple [.list ⟨0⟩, .int 2, .tuple [.str "c"]]) := htuple (by
    simpa using ⟨hlist, .int 2, htuple (by simpa using .str "c")⟩)
  exact ⟨helements, ha, hb, hc, comparison_laws {} (fun _ => .unknown) ha hb hc⟩

end laws

end Classlet
