import Classlet.Proofs.Evaluator.Reached
import Classlet.Proofs.Operation.Dispatch

/-! # Inequality is the negation of equality

Every answer that an operand has to `!=` is the negation of its answer to `==`: of an instance whose
class defines no `!=` of its own (`userBinary_ne`), and of any other value (`builtinBinary_ne`).  So
`==` and `!=` ask the same operands, in the same order, and run the same methods
(`inequality_is_negation`).  They part only where an operation is not supported, because the error
names the operator.

The right operand is asked when the left one may have run a method.  Its class is still the same
then, because classes only come into being (`Memory.Keeps.findAttribute?_eq`). -/

namespace Classlet

open Eval

/-! ### Attributes that are kept -/

namespace Memory

variable {m n : Memory} {c : ClassRef}

/-- What a class and its bases define stays the same. -/
theorem Keeps.findAttribute?_eq (h : m.Keeps n)
    (hin : ∀ d ∈ m.chain c, d.index < m.classes.size) (name : String) :
    n.findAttribute? c name = m.findAttribute? c name := by
  rw [findAttribute?, findAttribute?, chain, chain, h.chainFrom_eq _ c hin]
  have hattributes : ∀ d ∈ m.chainFrom (c.index + 1) c,
      (n.classInfo d).attributes.get? name = (m.classInfo d).attributes.get? name :=
    fun d hd => by rw [h.classInfo_eq (hin d hd)]
  generalize m.chainFrom (c.index + 1) c = ds at hattributes
  induction ds with
  | nil => rfl
  | cons d ds ih =>
      rw [List.findSome?_cons, List.findSome?_cons, hattributes d List.mem_cons_self,
        ih fun d' hd => hattributes d' (List.mem_cons_of_mem d hd)]

end Memory

/-! ### Answers and their negations -/

section negation
variable (e : Engine) {s : State}

/-- The negation of an answer, if there is one, as the language sees it. -/
def negated : Option Value → Eval (Option Value)
  | some v => do
    let b ← truthy e v
    pure (some (.bool (!b)))
  | none => pure none

theorem definedBinary_of_lacks {op : BinaryOp} {i : InstanceRef} (other : Value)
    (h : s.memory.findAttribute? i.ofClass op.key = none) :
    definedBinary e op i other s = (.ok none, s) := by
  unfold definedBinary classAttribute?
  rw [bind_apply]
  show (match s.memory.findAttribute? i.ofClass op.key with
    | some method => _
    | none => pure none : Eval (Option (Option Value))) s = _
  rw [h]
  rfl

theorem userBinary_ne {i : InstanceRef} (other : Value)
    (h : s.memory.findAttribute? i.ofClass BinaryOp.ne.key = none) :
    userBinary e .ne i other s = (userBinary e .eq i other >>= negated e) s := by
  have hne : userBinary e .ne i other s = (definedBinary e .eq i other >>= fun defined =>
      negated e (defined.getD none)) s := by
    unfold userBinary
    rw [bind_apply, definedBinary_of_lacks e other h]
    refine congrFun (congrArg (definedBinary e .eq i other >>= ·) (funext fun defined => ?_)) s
    rcases defined with _ | _ | _ <;> rfl
  have heq : userBinary e .eq i other = definedBinary e .eq i other >>= fun defined =>
      pure (defined.getD none) := by
    refine congrArg (definedBinary e .eq i other >>= ·) (funext fun defined => ?_)
    cases defined <;> rfl
  rw [hne, heq, ← Eval.bind_assoc]
  rfl

theorem onSequences_ne (left right : List Value) (make : List Value → Eval Value) :
    onSequences e .ne left right make = onSequences e .eq left right make >>= negated e := by
  rw [onSequences_of_equality e (by decide), onSequences_of_equality e (by decide),
    ← Eval.bind_assoc]
  refine congrArg (_ >>= ·) (funext fun same => ?_)
  cases same <;> rfl

theorem numeric_ne (left right : Value) :
    (ofExcept (Arithmetic.numeric .ne left right) : Eval (Option Value)) =
      ofExcept (Arithmetic.numeric .eq left right) >>= negated e := by
  unfold Arithmetic.numeric
  split <;> rfl

/-- A value that is no instance answers `!=` with the negation of its answer to `==`. -/
theorem builtinBinary_ne (left right : Value) :
    builtinBinary e .ne left right = builtinBinary e .eq left right >>= negated e := by
  unfold builtinBinary
  split
  case isTrue => rfl
  case isFalse =>
      split
      case isTrue => exact numeric_ne e left right
      case isFalse =>
          split
          case h_3 =>
              rw [← Eval.bind_assoc]
              exact congrArg (readMemory _ >>= ·)
                (funext fun vs => onSequences_ne e vs.1 vs.2 newListOf)
          case h_5 => exact onSequences_ne e _ _ _
          all_goals rfl

theorem builtinReversed_ne (left right : Value) :
    builtinReversed .ne left right = builtinReversed .eq left right >>= negated e := by
  unfold builtinReversed
  split
  case isTrue => rfl
  case isFalse =>
      split
      case isTrue => exact numeric_ne e left right
      case isFalse => split <;> rfl

end negation

/-! ### Both operands -/

/-- A value is no instance whose class, or a base of it, defines an operator. -/
def Memory.Lacks (m : Memory) (op : BinaryOp) : Value → Prop
  | .instance i => m.findAttribute? i.ofClass op.key = none
  | _ => True

/-- The class of an instance and its bases are in memory, as they are for every value that a program
holds. -/
def Memory.HasClass (m : Memory) : Value → Prop
  | .instance i => ∀ c ∈ m.chain i.ofClass, c.index < m.classes.size
  | _ => True

theorem Memory.Keeps.lacks {m n : Memory} (h : m.Keeps n) {op : BinaryOp} {v : Value}
    (hclass : m.HasClass v) (hlacks : m.Lacks op v) : n.Lacks op v := by
  cases v
  case «instance» i => exact (h.findAttribute?_eq hclass op.key).trans hlacks
  all_goals trivial

section operands
variable (e : Engine) {s : State} {left right : Value}

theorem probe_ne (h : s.memory.Lacks .ne left) :
    probe e .ne left right s = (probe e .eq left right >>= negated e) s := by
  cases left
  case «instance» i => exact userBinary_ne e right h
  all_goals exact congrFun (builtinBinary_ne e _ right) s

theorem reversedAnswer_ne (h : s.memory.Lacks .ne right) :
    reversedAnswer e .ne left right s = (reversedAnswer e .eq left right >>= negated e) s := by
  unfold reversedAnswer
  split
  case isTrue => rfl
  case isFalse =>
      cases right
      case «instance» i => exact userBinary_ne e left h
      all_goals exact congrFun (builtinReversed_ne e left _) s

/-- What `!=` comes to, given what `==` comes to.  An error that names the operator names that
one. -/
inductive Opposite (left right : Value) : Outcome Bool × State → Outcome Value × State → Prop where
  | answered (b : Bool) (s : State) : Opposite left right (.ok b, s) (.ok (.bool (!b)), s)
  | failed (error : RuntimeError) (s : State) :
      Opposite left right (.raised error, s) (.raised error, s)
  | unsupported (s : State) :
      Opposite left right
        (fail (.unsupportedOperands .eq (s.memory.typeName left) (s.memory.typeName right)) s)
        (fail (.unsupportedOperands .ne (s.memory.typeName left) (s.memory.typeName right)) s)
  | stopped (why : Stop) (s : State) : Opposite left right (.stopped why, s) (.stopped why, s)

/-- An operand that answers answers both operators, and one that does not answers neither. -/
theorem Opposite.answerOr {answer answer' : Eval (Option Value)} {equal unequal : Eval Value}
    (hanswer : answer' s = (answer >>= negated e) s)
    (h : ∀ s', answer s = (.ok none, s') →
      Opposite left right ((equal >>= truthy e) s') (unequal s')) :
    Opposite left right ((answerOr answer equal >>= truthy e) s) (answerOr answer' unequal s) := by
  unfold Eval.answerOr
  rw [← Eval.bind_assoc, bind_apply, bind_apply, hanswer, bind_apply]
  rcases hrun : answer s with ⟨o, s'⟩
  cases o with
  | raised error => exact .failed error s'
  | stopped why => exact .stopped why s'
  | ok found =>
      cases found with
      | none => exact h s' hrun
      | some v =>
          simp only [negated, bind_apply, pure_apply]
          rcases truthy e v s' with ⟨b | error | why, s''⟩
          · exact .answered b s''
          · exact .failed error s''
          · exact .stopped why s''

theorem opposite_unanswered (s : State) :
    Opposite left right ((unanswered .eq left right >>= truthy e) s)
      (unanswered .ne left right s) := by
  unfold unanswered
  cases identical? left right with
  | none => exact .unsupported s
  | some same => exact .answered same s

end operands

/-- **Inequality is the negation of equality**, whatever methods run. -/
theorem inequality_is_negation {settings : Settings} {loader : Loader} {s : State}
    (hs : Reached settings loader s) {left right : Value} (hleft : s.memory.Lacks .ne left)
    (hright : s.memory.Lacks .ne right) (hclass : s.memory.HasClass right) (fuel : Nat) :
    Opposite left right (equals (engine settings loader fuel) left right s)
      (binaryOperation (engine settings loader fuel) .ne left right s) := by
  have hkeeps : ∀ s', probe (engine settings loader fuel) .eq left right s = (.ok none, s') →
      s.memory.Keeps s'.memory := by
    intro s' hrun
    have hprobe :=
      isolated_closed.probe (rules.engine settings loader fuel) .eq left right s hs.sound
    rw [hrun] at hprobe
    exact hprobe.memory
  unfold equals
  rw [binaryOperation_eq, binaryOperation_eq]
  refine Opposite.answerOr _ (probe_ne _ hleft) fun s' hrun => ?_
  refine Opposite.answerOr _ (reversedAnswer_ne _ ((hkeeps s' hrun).lacks hclass hright)) ?_
  exact fun s'' _ => opposite_unanswered _ s''

/-- Whether a computation has ended with the value true. -/
def Outcome.holds : Outcome Bool → Bool
  | .ok b => b
  | _ => false

/-- A class that defines `==` only, with one answer to everything. -/
def equatable (name : String) (answer : Expr) : Statement :=
  .mk 1 (.classDecl name none
    [.operator (.mk "==" [.mk "self" none false, .mk "other" none false] []
      [.mk 1 (.returnValues [answer])] 1)] false)

/-- Instances of two classes, the first of which has no answer. -/
def instanceProgram : List Statement := [
  equatable "A" (.literal .nil),
  equatable "B" (.literal (.bool true)),
  .mk 2 (.assign [.var "a"] [.call (.var "A") [] []]),
  .mk 3 (.assign [.var "b"] [.call (.var "B") [] []])]

/-- The state after the instances have been made. -/
def twoInstances (e : Engine) : State := ((Task.statements instanceProgram).run e .initial).2

theorem reached_twoInstances (settings : Settings) (loader : Loader) (fuel : Nat) :
    Reached settings loader (twoInstances (engine settings loader fuel)) :=
  .ran (.statements instanceProgram) fuel .initial

/-- The method of the right operand is asked when that of the left one has run. -/
theorem inequality_is_negation_of_methods :
    let e := engine {} (fun _ => .unknown) 6
    let s := twoInstances e
    let a := Value.instance ⟨0, ⟨21⟩, false⟩
    let b := Value.instance ⟨1, ⟨22⟩, false⟩
    Reached {} (fun _ => .unknown) s ∧ s.memory.Lacks .ne a ∧ s.memory.Lacks .ne b ∧
      s.memory.HasClass b ∧
      ∃ t, equals e a b s = (.ok true, t) ∧
        binaryOperation e .ne a b s = (.ok (.bool false), t) := by
  intro e s a b
  have hreached : Reached {} (fun _ => .unknown) s := reached_twoInstances {} _ 6
  have ha : (s.memory.findAttribute? ⟨21⟩ BinaryOp.ne.key).isNone = true := by decide +kernel
  have hb : (s.memory.findAttribute? ⟨22⟩ BinaryOp.ne.key).isNone = true := by decide +kernel
  have hclass : ∀ c ∈ s.memory.chain ⟨22⟩, c.index < s.memory.classes.size := by decide +kernel
  have hequal : (equals e a b s).1.holds = true := by decide +kernel
  have hleft : s.memory.Lacks .ne a := Option.isNone_iff_eq_none.mp ha
  have hright : s.memory.Lacks .ne b := Option.isNone_iff_eq_none.mp hb
  have hopposite := inequality_is_negation hreached hleft hright hclass 6
  refine ⟨hreached, hleft, hright, hclass, ?_⟩
  change Opposite a b (equals e a b s) (binaryOperation e .ne a b s) at hopposite
  generalize equals e a b s = p at hequal hopposite ⊢
  generalize binaryOperation e .ne a b s = q at hopposite ⊢
  cases hopposite with
  | answered same t =>
      obtain rfl : same = true := hequal
      exact ⟨t, rfl, rfl⟩
  | _ => cases hequal

end Classlet
