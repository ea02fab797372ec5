import Classlet.Proofs.Evaluator.Closed

/-! # Which operand answers

A binary operation asks the left operand, then the right one if it is of another class, and then
compares references (`binaryOperation_eq`).  Of two numbers the one of the higher rank answers, and
it makes no difference which one that is (`binaryOperation_of_owns`). -/

namespace Classlet

open Eval

variable {α : Type} (e : Engine) (op : BinaryOp) (left right : Value)

/-! ### Answers in turn -/

/-- The answer of `x`, or what `y` comes to if `x` has none. -/
def Eval.answerOr (x : Eval (Option α)) (y : Eval α) : Eval α :=
  x >>= fun answer => match answer with
    | some a => pure a
    | none => y

theorem Eval.answerOr_none (y : Eval α) : answerOr (pure none) y = y := rfl

theorem Eval.answerOr_some (a : α) (y : Eval α) : answerOr (pure (some a)) y = pure a := rfl

/-- A check that gives an answer when it succeeds needs no other one. -/
theorem Eval.answerOr_ofExcept (a : Except Cause α) (y : Eval α) :
    answerOr (ofExcept (a.map some)) y = ofExcept a := by
  cases a <;> rfl

/-- The answer of the right operand, which is asked only if it is of another class. -/
def reversedAnswer : Eval (Option Value) :=
  if left.sameClass right then pure none else probeReversed e op left right

/-- What an operation comes to that no operand implements. -/
def unanswered : Eval Value :=
  match op, identical? left right with
  | .eq, some same => pure (.bool same)
  | .ne, some same => pure (.bool (!same))
  | _, _ => do
    let (l, r) ← readMemory fun m => (m.typeName left, m.typeName right)
    fail (.unsupportedOperands op l r)

theorem binaryOperation_eq : binaryOperation e op left right =
    answerOr (probe e op left right)
      (answerOr (reversedAnswer e op left right) (unanswered op left right)) := by
  refine congrArg (probe e op left right >>= ·) (funext fun answer => ?_)
  cases answer with
  | some v => rfl
  | none =>
      unfold reversedAnswer
      dsimp only
      split
      · rfl
      · refine congrArg (probeReversed e op left right >>= ·) (funext fun answer => ?_)
        cases answer <;> rfl

/-! ### Sequences -/

def BinaryOp.equalities : List BinaryOp := [.eq, .ne]

/-- Both operators of equality look for elements that differ. -/
theorem onSequences_of_equality {op : BinaryOp} (hop : op ∈ BinaryOp.equalities)
    (vs ws : List Value) (make : List Value → Eval Value) : onSequences e op vs ws make =
      (if vs.length = ws.length then allEqual e vs ws else pure false) >>=
        fun same => pure (some (.bool (same == (op == .eq)))) := by
  cases op
  case eq | ne => exact (apply_ite (· >>= _) _ _ _).symm
  all_goals exact absurd hop (by decide)

/-! ### Numbers -/

namespace Arithmetic

variable {left right}

theorem isNil_of_owns (h : owns left right = true) : left.isNil = false := by
  cases left
  case nil => cases h
  all_goals rfl

/-- The answer of a number on the left for a number of at most its own rank. -/
theorem probe_of_owns (h : owns left right = true) :
    probe e op left right = ofExcept (numeric op left right) := by
  have hbuiltin : builtinBinary e op left right = ofExcept (numeric op left right) := by
    unfold builtinBinary
    rw [isNil_of_owns h, if_neg Bool.false_ne_true, if_pos h]
  cases left
  case «instance» => cases h
  all_goals exact hbuiltin

/-- The answer of a number on the right for a number of at most its own rank. -/
theorem probeReversed_of_owns (h : owns right left = true) :
    probeReversed e op left right = ofExcept (numeric op left right) := by
  have hbuiltin : builtinReversed op left right = ofExcept (numeric op left right) := by
    unfold builtinReversed
    rw [isNil_of_owns h, if_neg Bool.false_ne_true, if_pos h]
  cases right
  case «instance» => cases h
  all_goals exact hbuiltin

/-- A number has no answer for a number of a higher rank, which is of another class. -/
theorem probe_of_not_owns (h : owns right left = true) (hnot : owns left right = false) :
    probe e op left right = pure none ∧ left.sameClass right = false := by
  cases left <;> cases right <;>
    first
    | exact Bool.noConfusion h
    | exact Bool.noConfusion hnot
    | exact ⟨rfl, rfl⟩

/-- **Whichever of two numbers answers, the answer is the same.** -/
theorem binaryOperation_of_owns {a : Except Cause Value}
    (h : owns left right = true ∨ owns right left = true)
    (ha : numeric op left right = a.map some) :
    binaryOperation e op left right = ofExcept a := by
  rw [binaryOperation_eq]
  cases howns : owns left right with
  | true => rw [probe_of_owns e op howns, ha, answerOr_ofExcept]
  | false =>
      rw [howns] at h
      have hright := h.resolve_left Bool.false_ne_true
      obtain ⟨hprobe, hclass⟩ := probe_of_not_owns e op hright howns
      rw [hprobe, answerOr_none, reversedAnswer, hclass, if_neg Bool.false_ne_true,
        probeReversed_of_owns e op hright, ha, answerOr_ofExcept]

end Arithmetic

end Classlet
