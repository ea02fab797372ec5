import Classlet.Proofs.Operation.Sequence

/-! # Repeated sequences

A text, a list or a tuple is repeated by an integer on either side of it, with the same outcome
(`mul_comm_sequence`): its copies one after the other, or a refusal if they would be too long
(`Repeats`).  So repeating by a sum makes the sum of the repetitions (`sumLaws_of_ok`).
`RepetitionLaws` puts these facts together. -/

namespace Classlet

open Eval

variable {kind : SequenceKind} {xs : Value} {items : List Value} {s : State} (e : Engine)

/-! ### Copies -/

theorem repeatText_toList (text : String) : ∀ (n : Nat) (acc : String),
    (repeatText text n acc).toList = acc.toList ++ (List.replicate n text.toList).flatten
  | 0, acc => by rw [repeatText, List.replicate_zero, List.flatten_nil, List.append_nil]
  | n + 1, acc => by
      rw [repeatText, repeatText_toList text n, String.toList_append, List.replicate_succ,
        List.flatten_cons, List.append_assoc]

theorem repeatValues_toList (vs : Array Value) : ∀ (n : Nat) (acc : Array Value),
    (repeatValues vs n acc).toList = acc.toList ++ (List.replicate n vs.toList).flatten
  | 0, acc => by rw [repeatValues, List.replicate_zero, List.flatten_nil, List.append_nil]
  | n + 1, acc => by
      rw [repeatValues, repeatValues_toList vs n, Array.toList_append, List.replicate_succ,
        List.flatten_cons, List.append_assoc]

theorem copiesText_toList (text : String) (n : Nat) :
    (if text.isEmpty then "" else repeatText text n "").toList =
      (List.replicate n text.toList).flatten := by
  split
  case isTrue h => simp [String.isEmpty_iff.mp h]
  case isFalse => rw [repeatText_toList, String.toList_empty, List.nil_append]

theorem copiesValues_toList (vs : Array Value) (n : Nat) :
    (if vs.isEmpty then #[] else repeatValues vs n #[]).toList =
      (List.replicate n vs.toList).flatten := by
  split
  case isTrue h => simp [Array.isEmpty_iff.mp h]
  case isFalse => rw [repeatValues_toList, Array.toList_empty, List.nil_append]

/-! ### Both orders of the operands -/

theorem answerOr_bind_some (x y : Eval Value) :
    answerOr (x >>= fun v => pure (some v)) y = x := by
  funext t
  rw [answerOr, bind_apply, bind_apply]
  rcases x t with ⟨_ | _ | _, u⟩ <;> rfl

theorem mul_str (text : String) (n : Int64) :
    binaryOperation e .mul (.str text) (.int n) = ofExcept (repeated text n) ∧
      binaryOperation e .mul (.int n) (.str text) = ofExcept (repeated text n) := by
  rw [binaryOperation_eq, binaryOperation_eq]
  exact ⟨answerOr_ofExcept _ _, answerOr_ofExcept _ _⟩

def repeatList (l : ListRef) (n : Int64) : Eval Value :=
  (readMemory fun m => m.elements l) >>= fun vs => ofExcept (repeatedValues vs n) >>= newList

theorem repeatedList_eq (l : ListRef) (n : Int64) :
    repeatedList l n = repeatList l n >>= fun v => pure (some v) := by
  funext t
  unfold repeatedList repeatList
  simp only [bind_apply, readMemory]
  cases repeatedValues (t.memory.elements l) n <;> rfl

theorem mul_list (l : ListRef) (n : Int64) :
    binaryOperation e .mul (.list l) (.int n) = repeatList l n ∧
      binaryOperation e .mul (.int n) (.list l) = repeatList l n := by
  have hanswer : ∀ y, answerOr (repeatedList l n) y = repeatList l n := fun y => by
    rw [repeatedList_eq, answerOr_bind_some]
  rw [binaryOperation_eq, binaryOperation_eq]
  exact ⟨hanswer _, hanswer _⟩

def repeatTuple (vs : List Value) (n : Int64) : Eval Value :=
  ofExcept (repeatedValues vs.toArray n) >>= fun ws => pure (.tuple ws.toList)

theorem mul_tuple (vs : List Value) (n : Int64) :
    binaryOperation e .mul (.tuple vs) (.int n) = repeatTuple vs n ∧
      binaryOperation e .mul (.int n) (.tuple vs) = repeatTuple vs n := by
  have hanswer : ∀ y, answerOr (repeatedTuple vs n) y = repeatTuple vs n := fun y => by
    rw [← answerOr_bind_some (repeatTuple vs n) y, repeatedTuple, repeatTuple]
    cases repeatedValues vs.toArray n <;> rfl
  rw [binaryOperation_eq, binaryOperation_eq]
  exact ⟨hanswer _, hanswer _⟩

theorem mul_comm_sequence (h : s.memory.Sequence kind xs items) (n : Int64) :
    binaryOperation e .mul (.int n) xs = binaryOperation e .mul xs (.int n) := by
  cases h with
  | str text => rw [(mul_str e text n).1, (mul_str e text n).2]
  | @list l _ => rw [(mul_list e l n).1, (mul_list e l n).2]
  | tuple vs => rw [(mul_tuple e _ n).1, (mul_tuple e _ n).2]

/-! ### Bounded repetitions -/

/-- The size that bounds repetitions: the bytes of a text, and the elements of other sequences. -/
def Value.repeatSize (items : List Value) : Value → Nat
  | .str text => text.utf8ByteSize
  | _ => items.length

/-- A computation makes copies of elements, one after the other, if all of them together are not too
large, and otherwise is refused.  A negative number of copies is none. -/
def Repeats (kind : SequenceKind) (size : Nat) (items : List Value) (n : Int64) (s : State)
    (r : Outcome Value × State) : Prop :=
  if size * n.toInt.toNat ≤ 2 ^ 28 then
    Makes kind (List.replicate n.toInt.toNat items).flatten s r
  else ∃ c, r = (.raised (.ofCause c), s) ∧ c.kind = .value ∧
    c.message = "repeated sequence is too long"

/-- What is made for the number of copies that the bound allows is a repetition. -/
theorem repeats_of_copies {size : Nat} {n : Int64} {make : Nat → Eval Value}
    (hmake : ∀ k, Makes kind (List.replicate k items).flatten s (make k s)) :
    Repeats kind size items n s ((ofExcept (copies size n) >>= make) s) := by
  unfold Repeats
  rw [copies, show maxRepeatLength = 2 ^ 28 from rfl]
  split
  case isTrue => exact hmake _
  case isFalse => exact ⟨_, rfl, rfl, rfl⟩

theorem ofExcept_map_bind {α β : Type} (x : Except Cause α) (f : α → β) (g : β → Eval Value) :
    ofExcept (x.map f) >>= g = ofExcept x >>= fun a => g (f a) := by
  cases x <;> rfl

theorem binaryOperation_repeat (h : s.memory.Sequence kind xs items) (n : Int64) :
    Repeats kind (xs.repeatSize items) items n s (binaryOperation e .mul xs (.int n) s) := by
  cases h with
  | str text =>
      have hrepeat : ofExcept (repeated text n) = ofExcept (copies text.utf8ByteSize n) >>=
          fun k => pure (.str (if text.isEmpty then "" else repeatText text k "")) := by
        unfold repeated
        cases copies text.utf8ByteSize n <;> rfl
      rw [(mul_str e text n).1, hrepeat]
      refine repeats_of_copies fun k => ?_
      have hmakes := makes_str s (List.replicate k text.toList).flatten
      rwa [List.map_flatten, List.map_replicate, ← copiesText_toList,
        String.ofList_toList] at hmakes
  | @list l hl =>
      have hrepeat : repeatList l n s = (ofExcept (copies (s.memory.elements l).toList.length n) >>=
          fun k => newList (if (s.memory.elements l).isEmpty then #[]
            else repeatValues (s.memory.elements l) k #[])) s := by
        rw [← ofExcept_map_bind]
        rfl
      rw [(mul_list e l n).1, hrepeat]
      refine repeats_of_copies fun k => ?_
      rw [← copiesValues_toList]
      exact makes_newList s _
  | tuple =>
      have hrepeat : repeatTuple items n = ofExcept (copies items.length n) >>=
          fun k => pure (.tuple (if items.toArray.isEmpty then #[]
            else repeatValues items.toArray k #[]).toList) := by
        rw [repeatTuple, repeatedValues, ofExcept_map_bind, List.size_toArray]
      rw [(mul_tuple e _ n).1, hrepeat]
      refine repeats_of_copies fun k => ?_
      rw [copiesValues_toList]
      exact ⟨_, _, rfl, .refl _, .tuple _⟩

/-! ### Sums of repetitions -/

/-- A sequence repeated by the sum of two integers. -/
def repeatBySum (xs : Value) (m n : Int64) : Eval Value := do
  let times ← binaryOperation e .add (.int m) (.int n)
  binaryOperation e .mul xs times

/-- The sum of two repetitions of a sequence. -/
def sumOfRepeats (xs : Value) (m n : Int64) : Eval Value := do
  let front ← binaryOperation e .mul xs (.int m)
  let back ← binaryOperation e .mul xs (.int n)
  binaryOperation e .add front back

theorem add_int (m n : Int64) : binaryOperation e .add (.int m) (.int n) =
    ofExcept (Arithmetic.checked (m.toInt + n.toInt)) :=
  Arithmetic.binaryOperation_of_owns e .add (.inl rfl) rfl

theorem repeatBySum_ok {m n : Int64} {v : Value} {t : State}
    (h : repeatBySum e xs m n s = (.ok v, t)) :
    ∃ k : Int64, k.toInt = m.toInt + n.toInt ∧
      binaryOperation e .mul xs (.int k) s = (.ok v, t) := by
  rw [repeatBySum, add_int, bind_apply] at h
  by_cases hrange : Numeral.InRange (m.toInt + n.toInt)
  · obtain ⟨k, hk, hsum⟩ := Arithmetic.checked_of_inRange hrange
    rw [hsum] at h
    exact ⟨k, hk, h⟩
  · rw [Arithmetic.checked_of_not_inRange hrange] at h
    cases h

theorem Repeats.makes {size : Nat} {n : Int64} {r : Outcome Value × State}
    (h : Repeats kind size items n s r) (hsize : size * n.toInt.toNat ≤ 2 ^ 28) :
    Makes kind (List.replicate n.toInt.toNat items).flatten s r := by
  rwa [Repeats, if_pos hsize] at h

theorem Repeats.le_of_ok {size : Nat} {n : Int64} {v : Value} {t : State}
    (h : Repeats kind size items n s (.ok v, t)) : size * n.toInt.toNat ≤ 2 ^ 28 := by
  by_contra hlarge
  rw [Repeats, if_neg hlarge] at h
  obtain ⟨c, hc, -⟩ := h
  cases hc

/-- What both ways to repeat a sequence `m + n` times come to. -/
structure SumLaws (xs : Value) (kind : SequenceKind) (items : List Value) (m n : Int64)
    (s : State) : Prop where
  first : ∃ v t, binaryOperation e .mul xs (.int m) s = (.ok v, t)
  second : ∃ v t, binaryOperation e .mul xs (.int n) s = (.ok v, t)
  whole : Makes kind (List.replicate (m.toInt.toNat + n.toInt.toNat) items).flatten s
    (repeatBySum e xs m n s)
  sum : Makes kind (List.replicate (m.toInt.toNat + n.toInt.toNat) items).flatten s
    (sumOfRepeats e xs m n s)

theorem Makes.exists_ok {r : Outcome Value × State} (h : Makes kind items s r) :
    ∃ v t, r = (.ok v, t) := by
  obtain ⟨v, t, hr, -⟩ := h
  exact ⟨v, t, hr⟩

theorem sumOfRepeats_makes (h : s.memory.Sequence kind xs items) {m n : Int64}
    (hm : xs.repeatSize items * m.toInt.toNat ≤ 2 ^ 28)
    (hn : xs.repeatSize items * n.toInt.toNat ≤ 2 ^ 28) :
    Makes kind (List.replicate (m.toInt.toNat + n.toInt.toNat) items).flatten s
      (sumOfRepeats e xs m n s) := by
  obtain ⟨front, t, hfront, hst, hfronts⟩ := (binaryOperation_repeat e h m).makes hm
  have hlater := h.preserved hst
  obtain ⟨back, u, hback, htu, hbacks⟩ := (binaryOperation_repeat e hlater n).makes hn
  obtain ⟨v, w, hjoin, huw, hv⟩ := binaryOperation_join e (hfronts.preserved htu) hbacks
  refine ⟨v, w, ?_, (hst.trans htu).trans huw, ?_⟩
  · simp only [sumOfRepeats, bind_apply, hfront, hback]
    exact hjoin
  · rwa [List.replicate_add, List.flatten_append]

theorem sumLaws_of_ok (h : s.memory.Sequence kind xs items) {m n : Int64} (hm : 0 ≤ m.toInt)
    (hn : 0 ≤ n.toInt) {v : Value} {t : State} (hsum : repeatBySum e xs m n s = (.ok v, t)) :
    SumLaws e xs kind items m n s := by
  obtain ⟨k, hk, hrun⟩ := repeatBySum_ok e hsum
  have htimes : k.toInt.toNat = m.toInt.toNat + n.toInt.toNat := by omega
  have hwhole := binaryOperation_repeat e h k
  rw [hrun] at hwhole
  have hle := hwhole.le_of_ok
  have hmakes := hwhole.makes hle
  rw [htimes] at hle hmakes
  have hfirst : xs.repeatSize items * m.toInt.toNat ≤ 2 ^ 28 :=
    (Nat.mul_le_mul_left _ (Nat.le_add_right _ _)).trans hle
  have hsecond : xs.repeatSize items * n.toInt.toNat ≤ 2 ^ 28 :=
    (Nat.mul_le_mul_left _ (Nat.le_add_left _ _)).trans hle
  exact {
    first := ((binaryOperation_repeat e h m).makes hfirst).exists_ok
    second := ((binaryOperation_repeat e h n).makes hsecond).exists_ok
    whole := hsum ▸ hmakes
    sum := sumOfRepeats_makes e h hfirst hsecond }

/-! ### The laws -/

/-- The laws that repetitions of a sequence obey. -/
structure RepetitionLaws (e : Engine) (s : State) (kind : SequenceKind) (xs : Value)
    (items : List Value) : Prop where
  symmetric : ∀ n, binaryOperation e .mul (.int n) xs s = binaryOperation e .mul xs (.int n) s
  outcome : ∀ n, Repeats kind (xs.repeatSize items) items n s (binaryOperation e .mul xs (.int n) s)
  succeeds : ∀ n, (∃ v t, binaryOperation e .mul xs (.int n) s = (.ok v, t)) ↔
    xs.repeatSize items * n.toInt.toNat ≤ 2 ^ 28
  additive : ∀ m n : Int64, 0 ≤ m.toInt → 0 ≤ n.toInt →
    (∃ v t, repeatBySum e xs m n s = (.ok v, t)) → SumLaws e xs kind items m n s

/-- **Repetition is symmetric, bounded and additive.** -/
theorem repetition_laws (h : s.memory.Sequence kind xs items) :
    RepetitionLaws e s kind xs items where
  symmetric n := by rw [mul_comm_sequence e h n]
  outcome := binaryOperation_repeat e h
  succeeds n := by
    have houtcome := binaryOperation_repeat e h n
    constructor
    · rintro ⟨v, t, hrun⟩
      exact (hrun ▸ houtcome).le_of_ok
    · exact fun hsize => (houtcome.makes hsize).exists_ok
  additive m n hm hn hsum := by
    obtain ⟨v, t, hsum⟩ := hsum
    exact sumLaws_of_ok e h hm hn hsum

/-- A list of two elements. -/
def stateWithPair : State := (newList #[.int 1, .str "b"] .initial).2

theorem repetition_laws_list :
    stateWithPair.memory.Sequence .list (.list ⟨0⟩) [.int 1, .str "b"] ∧
      RepetitionLaws (engine {} (fun _ => .unknown) 1) stateWithPair .list (.list ⟨0⟩)
        [.int 1, .str "b"] := by
  have hlist : stateWithPair.memory.Sequence .list (.list ⟨0⟩) [.int 1, .str "b"] :=
    sequence_newList State.initial.memory #[.int 1, .str "b"]
  exact ⟨hlist, repetition_laws _ hlist⟩

end Classlet
