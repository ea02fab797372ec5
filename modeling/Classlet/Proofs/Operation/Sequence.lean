import Classlet.Proofs.Assignment.Passage
import Classlet.Proofs.Evaluator.Quiet
import Classlet.Proofs.Operation.Integer

/-! # Positions in sequences

Texts, lists and tuples have elements (`Memory.Sequence`), and reading an element, storing one,
slicing and unpacking mean the same positions.  An index from the end counts backwards, and is
refused if it goes beyond either end (`elementAt?`).  A bound of a slice counts in the same way,
and stops at the ends instead (`cutAt`), so that slices never fail, and two slices that meet at a
bound make up the sequence.  `SequenceLaws` puts these facts together.

The sums that indices from the end need are those of 64-bit integers, since no sequence is so long
that they go out of range (`toInt_add_ofNat`). -/

namespace Classlet

open Eval

variable {α : Type} {m n : Memory} {kind : SequenceKind} {v w xs : Value} {items : List Value}
  {s : State} (e : Engine)

/-! ### Sequences -/

/-- A value is a text, a list in memory or a tuple, and has these elements. -/
inductive Memory.Sequence (m : Memory) : SequenceKind → Value → List Value → Prop
  | str (s : String) : Sequence m .str (.str s) (s.toList.map fun c => .str c.toString)
  | list {l : ListRef} : l.index < m.lists.size → Sequence m .list (.list l) (m.elements l).toList
  | tuple (vs : List Value) : Sequence m .tuple (.tuple vs) vs

theorem Memory.Sequence.preserved (h : m.Sequence kind xs items) (hpreserves : m.Preserves n) :
    n.Sequence kind xs items := by
  cases h with
  | str s => exact .str s
  | list hl =>
      rw [← hpreserves.elements hl]
      exact .list (hl.trans_le hpreserves.lists.length_le)
  | tuple => exact .tuple _

theorem elementsOf_sequence (h : s.memory.Sequence kind xs items) :
    elementsOf e xs s = (.ok items, s) := by
  cases h <;> rfl

theorem sequence_newList (m : Memory) (vs : Array Value) :
    (m.newList vs).2.Sequence .list (.list (m.newList vs).1) vs.toList := by
  have helements : (m.newList vs).2.elements (m.newList vs).1 = vs := by
    simp [Memory.newList, Memory.elements]
  have hsequence : (m.newList vs).2.Sequence .list (.list (m.newList vs).1)
      ((m.newList vs).2.elements (m.newList vs).1).toList := .list (by simp [Memory.newList])
  rwa [helements] at hsequence

/-! ### Positions -/

/-- Where an index leads: that many elements from the front, or from the end. -/
def fromEnd (length : Nat) (k : Int64) : Int :=
  if k.toInt < 0 then length + k.toInt else k.toInt

/-- The position that an index means in a sequence, if it has one. -/
def elementAt? (length : Nat) (k : Int64) : Option Nat :=
  if -(length : Int) ≤ k.toInt ∧ k.toInt < length then some (fromEnd length k).toNat else none

/-- The position of a bound of a slice, which is at one of the ends if it goes beyond. -/
def cutAt (length omitted : Nat) : Option Int64 → Nat
  | none => omitted
  | some k => (max 0 (min (length : Int) (fromEnd length k))).toNat

/-- The elements at the positions from `lo` up to `hi`, without the latter. -/
def between (items : List α) (lo hi : Nat) : List α :=
  (items.zipIdx.filter fun p => lo ≤ p.2 && p.2 < hi).map Prod.fst

theorem elementAt?_lt {length p : Nat} {k : Int64} (h : elementAt? length k = some p) :
    p < length := by
  unfold elementAt? fromEnd at h
  split at h
  · cases h
    split <;> omega
  · cases h

theorem position_eq (kind : SequenceKind) (length : Nat) (k : Int64) :
    position kind length k = match elementAt? length k with
      | some p => .ok p
      | none => .error (.indexRange kind) := by
  unfold position elementAt? fromEnd
  dsimp only
  by_cases hk : k.toInt < 0
  · simp only [if_pos hk]
    by_cases hrange : -(length : Int) ≤ k.toInt ∧ k.toInt < length
    · rw [if_pos hrange, if_neg (by simp; omega)]
      rw [Int.add_comm]
    · rw [if_neg hrange, if_pos (by simp; omega)]
  · simp only [if_neg hk]
    by_cases hrange : -(length : Int) ≤ k.toInt ∧ k.toInt < length
    · rw [if_pos hrange, if_neg (by simp; omega)]
    · rw [if_neg hrange, if_pos (by simp; omega)]

/-- A bound that is written, or left out. -/
def boundValue : Option Int64 → Value
  | none => .nil
  | some k => .int k

theorem sliceBound_eq (length omitted : Nat) (b : Option Int64) :
    sliceBound length omitted (boundValue b) = pure (cutAt length omitted b) := by
  cases b with
  | none => rfl
  | some k =>
      unfold boundValue sliceBound cutAt fromEnd
      dsimp only
      split
      case isTrue hk => exact congrArg pure (by omega)
      case isFalse hk => exact congrArg pure (by omega)

theorem sliceBounds_eq (length : Nat) (a b : Option Int64) :
    sliceBounds length (boundValue a) (boundValue b) =
      pure (cutAt length 0 a, max (cutAt length 0 a) (cutAt length length b)) := by
  rw [sliceBounds, sliceBound_eq, sliceBound_eq]
  rfl

theorem zipIdx_between (items : List α) (lo hi i : Nat) :
    ((items.zipIdx i).filter fun p => lo ≤ p.2 && p.2 < hi).map Prod.fst =
      (items.take (hi - i)).drop (lo - i) := by
  induction items generalizing i with
  | nil => simp
  | cons x items ih =>
      rw [List.zipIdx_cons, List.filter_cons]
      by_cases hhi : i < hi
      · have htake : hi - i = hi - (i + 1) + 1 := by omega
        rw [htake, List.take_succ_cons]
        by_cases hlo : lo ≤ i
        · have hdrop : lo - i = 0 ∧ lo - (i + 1) = 0 := by omega
          rw [if_pos (by simp [hlo, hhi]), List.map_cons, ih, hdrop.1, hdrop.2]
          rfl
        · have hdrop : lo - i = lo - (i + 1) + 1 := by omega
          rw [if_neg (by simp [hlo]), ih, hdrop, List.drop_succ_cons]
      · have htake : hi - i = 0 ∧ hi - (i + 1) = 0 := by omega
        rw [if_neg (by simp [hhi]), ih, htake.1, htake.2, List.take_zero, List.take_zero,
          List.drop_nil, List.drop_nil]

theorem between_eq (items : List α) (lo hi : Nat) :
    between items lo hi = (items.take hi).drop lo :=
  zipIdx_between items lo hi 0

theorem between_max (items : List α) (lo hi : Nat) :
    between items lo (max lo hi) = between items lo hi := by
  refine congrArg (List.map Prod.fst) (List.filter_congr fun p _ => ?_)
  rw [Bool.eq_iff_iff]
  simp only [Bool.and_eq_true, decide_eq_true_eq]
  omega

theorem between_append (items : List α) (p : Nat) :
    between items 0 p ++ between items p items.length = items := by
  rw [between_eq, between_eq, List.drop_zero, List.take_length, List.take_append_drop]

/-- A sum with the length of a sequence does not go out of range. -/
theorem toInt_add_ofNat {length : Nat} (hlength : length < 2 ^ 63) {k : Int64}
    (hk : k.toInt < 0) : (k + Int64.ofNat length).toInt = k.toInt + length := by
  rw [Int64.toInt_add, Int64.toInt_ofNat_of_lt hlength]
  have hlow := k.le_toInt
  exact Int.bmod_eq_of_le (by omega) (by omega)

/-! ### Elements -/

/-- An index is refused, and nothing else happens. -/
def OutOfRange {β : Type} (kind : SequenceKind) (r : Outcome β × State) (s : State) : Prop :=
  ∃ c, r = (.raised (.ofCause c), s) ∧ c.kind = .index ∧
    c.message = kind.name ++ " index out of range"

theorem outOfRange_indexRange {β : Type} (kind : SequenceKind) (s : State) :
    OutOfRange kind ((.raised (.ofCause (.indexRange kind)) : Outcome β), s) s :=
  ⟨_, rfl, rfl, rfl⟩

/-- An element is read at an index, or the index is refused; nothing else happens. -/
def ReadsAt (kind : SequenceKind) (items : List Value) (k : Int64) (r : Outcome Value × State)
    (s : State) : Prop :=
  match elementAt? items.length k with
  | some p => ∃ v, items[p]? = some v ∧ r = (.ok v, s)
  | none => OutOfRange kind r s

theorem positionOf_eq (kind : SequenceKind) (length : Nat) (k : Int64) :
    positionOf kind length (.int k) = match elementAt? length k with
      | some p => pure p
      | none => fail (.indexRange kind) := by
  unfold positionOf
  dsimp only
  rw [position_eq]
  split <;> rfl

theorem readsAt_of_positionOf {n : Nat} (hn : items.length = n) (k : Int64)
    {f : Nat → Eval Value} (hf : ∀ p v, items[p]? = some v → f p s = (.ok v, s)) :
    ReadsAt kind items k ((positionOf kind n (.int k) >>= f) s) s := by
  subst hn
  rw [ReadsAt, positionOf_eq]
  cases hp : elementAt? items.length k with
  | none => exact outOfRange_indexRange kind s
  | some p =>
      have hget := List.getElem?_eq_getElem (elementAt?_lt hp)
      exact ⟨_, hget, hf p _ hget⟩

theorem indexOperation_sequence (h : s.memory.Sequence kind xs items) (k : Int64) :
    ReadsAt kind items k (indexOperation e xs (.int k) s) s := by
  cases h with
  | str text =>
      refine readsAt_of_positionOf (List.length_map _) k fun p v hv => ?_
      obtain ⟨c, hc, rfl⟩ := Option.map_eq_some_iff.mp (List.getElem?_map ▸ hv)
      rw [pure_apply, hc]
      rfl
  | @list l hl =>
      refine readsAt_of_positionOf (n := (s.memory.elements l).size) Array.length_toList k
        (f := fun i => readMemory fun m => (m.elements l)[i]?.getD .nil) fun p v hv => ?_
      rw [Array.getElem?_toList] at hv
      rw [readMemory, hv]
      rfl
  | tuple =>
      refine readsAt_of_positionOf rfl k fun p v hv => ?_
      rw [pure_apply, hv]
      rfl

/-! ### Slices -/

/-- A computation makes a sequence of a kind with these elements, and leaves all lists and instances
as they are. -/
def Makes (kind : SequenceKind) (items : List Value) (s : State) (r : Outcome Value × State) :
    Prop :=
  ∃ v t, r = (.ok v, t) ∧ s.memory.Preserves t.memory ∧ t.memory.Sequence kind v items

theorem makes_newList (s : State) (vs : Array Value) :
    Makes .list vs.toList s (newList vs s) :=
  ⟨_, _, rfl, s.memory.preserves_newList vs, sequence_newList s.memory vs⟩

theorem makes_str (s : State) (cs : List Char) :
    Makes .str (cs.map fun c => .str c.toString) s (.ok (.str (String.ofList cs)), s) := by
  refine ⟨_, _, rfl, .refl _, ?_⟩
  have h := Memory.Sequence.str (m := s.memory) (String.ofList cs)
  rwa [String.toList_ofList] at h

theorem sliceOperation_sequence (h : s.memory.Sequence kind xs items) (a b : Option Int64) :
    Makes kind (between items (cutAt items.length 0 a) (cutAt items.length items.length b)) s
      (sliceOperation xs (boundValue a) (boundValue b) s) := by
  cases h with
  | str text =>
      have hslice : sliceOperation (.str text) (boundValue a) (boundValue b) =
          sliceBounds text.toList.length (boundValue a) (boundValue b) >>= fun r =>
            pure (.str (String.ofList ((text.toList.take r.2).drop r.1))) := rfl
      rw [hslice, List.length_map, sliceBounds_eq, ← between_max, between_eq, ← List.map_take,
        ← List.map_drop]
      exact makes_str s _
  | @list l hl =>
      have hslice : sliceOperation (.list l) (boundValue a) (boundValue b) s =
          (sliceBounds (s.memory.elements l).size (boundValue a) (boundValue b) >>= fun r =>
            (readMemory fun m => (m.elements l).extract r.1 r.2) >>= newList) s := rfl
      rw [hslice, Array.length_toList, sliceBounds_eq, ← between_max, between_eq,
        List.drop_take, ← List.extract_eq_take_drop, ← Array.toList_extract]
      exact makes_newList s _
  | tuple =>
      have hslice : sliceOperation (.tuple items) (boundValue a) (boundValue b) =
          sliceBounds items.length (boundValue a) (boundValue b) >>= fun r =>
            pure (.tuple ((items.take r.2).drop r.1)) := rfl
      rw [hslice, sliceBounds_eq, ← between_max, between_eq]
      exact ⟨_, _, rfl, .refl _, .tuple _⟩

theorem binaryOperation_join {ys : Value} {more : List Value}
    (h : s.memory.Sequence kind xs items) (hmore : s.memory.Sequence kind ys more) :
    Makes kind (items ++ more) s (binaryOperation e .add xs ys s) := by
  cases h with
  | str text =>
      cases hmore with
      | str text' =>
          have hjoin : binaryOperation e .add (.str text) (.str text') s =
              (.ok (.str (text ++ text')), s) := rfl
          rw [hjoin, ← List.map_append, ← String.toList_append]
          exact ⟨_, _, rfl, .refl _, .str _⟩
  | @list l hl =>
      cases hmore with
      | @list k hk =>
          have hjoin : binaryOperation e .add (.list l) (.list k) s =
              newList ((s.memory.elements l).toList ++ (s.memory.elements k).toList).toArray s :=
            rfl
          rw [hjoin]
          exact makes_newList s _
  | tuple =>
      cases hmore with
      | tuple => exact ⟨_, _, rfl, .refl _, .tuple _⟩

/-- The two slices of a sequence that meet at `k`, joined again. -/
def cutAndJoin (xs : Value) (k : Int64) : Eval Value := do
  let front ← sliceOperation xs .nil (.int k)
  let back ← sliceOperation xs (.int k) .nil
  binaryOperation e .add front back

theorem cutAndJoin_sequence (h : s.memory.Sequence kind xs items) (k : Int64) :
    Makes kind items s (cutAndJoin e xs k s) := by
  obtain ⟨front, t, hfront, hst, hfronts⟩ := sliceOperation_sequence h none (some k)
  obtain ⟨back, u, hback, htu, hbacks⟩ := sliceOperation_sequence (h.preserved hst) (some k) none
  obtain ⟨v, w, hjoin, huw, hv⟩ := binaryOperation_join e (hfronts.preserved htu) hbacks
  refine ⟨v, w, ?_, (hst.trans htu).trans huw, ?_⟩
  · have hfront : sliceOperation xs .nil (.int k) s = (.ok front, t) := hfront
    have hback : sliceOperation xs (.int k) .nil t = (.ok back, u) := hback
    rw [cutAndJoin, bind_apply, hfront]
    dsimp only
    rw [bind_apply, hback]
    exact hjoin
  · rw [← between_append items (cutAt items.length 0 (some k))]
    exact hv

/-! ### Storing -/

/-- What storing `v` at an index of a list does: one element becomes what binding `v` gives, and all
other lists and all instances stay as they are.  An index that cannot be read is refused. -/
def StoresAt (l : ListRef) (k : Int64) (v : Value) (r : Outcome Unit × State) (s : State) : Prop :=
  match elementAt? (s.memory.elements l).size k with
  | some p => ∃ m w, r = (.ok (), { s with memory := m }) ∧
      m.Sequence .list (.list l) ((s.memory.elements l).toList.set p w) ∧
      (∀ x, s.memory.Shows v x → m.Shows w x) ∧ (v.isStruct = false → w = v) ∧
      (∀ l', l' ≠ l → m.elements l' = s.memory.elements l') ∧ s.memory.Adds m ∧ s.memory.Alters m
  | none => OutOfRange .list r s

theorem setIndexOperation_sequence {l : ListRef} (hl : l.index < s.memory.lists.size) (k : Int64)
    (v : Value) : StoresAt l k v (setIndexOperation e (.list l) (.int k) v s) s := by
  have hstore : setIndexOperation e (.list l) (.int k) v s =
      (positionOf .list (s.memory.elements l).size (.int k) >>= fun p t =>
        (.ok (), t.withElement l p v)) s := rfl
  rw [StoresAt, hstore, positionOf_eq]
  cases hp : elementAt? (s.memory.elements l).size k with
  | none => exact outOfRange_indexRange .list s
  | some p =>
      refine ⟨(s.withElement l p v).memory, (s.memory.copyForBinding v).1, rfl, ?_,
        fun x hx => shows_withElement hx, fun hv => ?_, fun l' hne => ?_, adds_withElement, ?_⟩
      · have hlists : l.index < (s.withElement l p v).memory.lists.size := by
          simpa [State.withElement, Memory.modifyList, Memory.lists_copyForBinding] using hl
        have hsequence := Memory.Sequence.list hlists
        rwa [elements_withElement, if_pos rfl, Array.toList_setIfInBounds] at hsequence
      · rw [Memory.copyForBinding, hv]
        rfl
      · rw [elements_withElement, if_neg hne]
      · exact (s.memory.alters_copyForBinding v).trans ⟨rfl, rfl, rfl, rfl⟩

/-! ### One notion of position -/

/-- The operations on a sequence mean the same positions. -/
structure SequenceLaws (e : Engine) (s : State) (kind : SequenceKind) (xs : Value)
    (items : List Value) : Prop where
  /-- The elements, as they are unpacked. -/
  elements : elementsOf e xs s = (.ok items, s)
  index : ∀ k, ReadsAt kind items k (indexOperation e xs (.int k) s) s
  slice : ∀ a b, Makes kind
    (between items (cutAt items.length 0 a) (cutAt items.length items.length b)) s
    (sliceOperation xs (boundValue a) (boundValue b) s)
  parts : ∀ k, Makes kind items s (cutAndJoin e xs k s)
  store : ∀ l, xs = .list l → ∀ k v,
    StoresAt l k v (setIndexOperation e xs (.int k) v s) s
  /-- Where an index is added to a length, 64 bits are enough. -/
  sum : items.length < 2 ^ 63 → ∀ k : Int64, k.toInt < 0 →
    (k + Int64.ofNat items.length).toInt = k.toInt + items.length

/-- **Indexing, slicing, storing and unpacking agree** about the positions of a sequence. -/
theorem sequence_laws (h : s.memory.Sequence kind xs items) : SequenceLaws e s kind xs items where
  elements := elementsOf_sequence e h
  index := indexOperation_sequence e h
  slice := sliceOperation_sequence h
  parts := cutAndJoin_sequence e h
  store := by
    rintro l rfl k v
    cases h with
    | list hl => exact setIndexOperation_sequence e hl k v
  sum hlength k hk := toInt_add_ofNat hlength hk

def listOfThree : State := (newList #[.int 1, .str "b", .nil] .initial).2

theorem sequence_laws_list :
    listOfThree.memory.Sequence .list (.list ⟨0⟩) [.int 1, .str "b", .nil] ∧
      SequenceLaws (engine {} (fun _ => .unknown) 1) listOfThree .list (.list ⟨0⟩)
        [.int 1, .str "b", .nil] := by
  have hlist : listOfThree.memory.Sequence .list (.list ⟨0⟩) [.int 1, .str "b", .nil] :=
    sequence_newList State.initial.memory #[.int 1, .str "b", .nil]
  exact ⟨hlist, sequence_laws _ hlist⟩

end Classlet
