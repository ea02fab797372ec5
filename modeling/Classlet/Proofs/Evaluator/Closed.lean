import Classlet.Interpreter.Builtin
import Classlet.Interpreter.Class

/-! # Properties that all computations share

A property of computations that the evaluator's basic steps have, and that sequencing keeps, is a
property of every expression.  `Eval.Gentle` lists the steps that change nothing that is there:
reading, failing, adding lists, copies and bound methods to memory, making a function.  Operators
and expressions take no others.  `Eval.Closed` adds the steps of built-in functions and of
assignments: making an exception or an instance, changing a list or a field, printing.  What calls
back into the evaluator has the property by assumption (`Engine.Satisfies`).

The lemmas follow the definitions of the evaluator one by one, in their order, the gentle ones
first.  None of them knows what the property is, so that a rule of the language that changes is one
lemma here, whatever is proved about the evaluator elsewhere. -/

namespace Classlet

open Eval

theorem Eval.bind_assoc {α β γ : Type} (x : Eval α) (f : α → Eval β) (g : β → Eval γ) :
    (x >>= fun a => f a >>= g) = (x >>= f) >>= g := by
  funext s
  simp only [bind_apply]
  rcases x s with ⟨_ | _ | _, s'⟩ <;> rfl

/-- What goes on from a state goes on from what has ended there in the same way. -/
theorem Eval.bind_apply_congr {α β : Type} {x y : Eval α} {f : α → Eval β} {s : State}
    (h : x s = y s) : (x >>= f) s = (y >>= f) s := by
  rw [bind_apply, bind_apply, h]

theorem Eval.of_bind_ok {α β : Type} {x : Eval α} {f : α → Eval β} {s s' : State} {b : β}
    (h : (x >>= f) s = (.ok b, s')) : ∃ a s₁, x s = (.ok a, s₁) ∧ f a s₁ = (.ok b, s') := by
  rw [bind_apply] at h
  rcases hr : x s with ⟨a | _ | _, s₁⟩
  · rw [hr] at h
    exact ⟨a, s₁, rfl, h⟩
  · rw [hr] at h
    cases h
  · rw [hr] at h
    cases h

/-- A computation can end with a value. -/
def Eval.Returns {α : Type} (x : Eval α) (a : α) : Prop := ∃ s s', x s = (.ok a, s')

/-! ### What an outcome shows -/

deriving instance DecidableEq for Cause

namespace Outcome

variable {α : Type}

/-- Whether a computation has ended with a value. -/
def isOk : Outcome α → Bool
  | ok _ => true
  | _ => false

/-- Why a computation of the runtime has raised an error. -/
def cause? : Outcome α → Option Cause
  | raised ⟨.cause c, _, _⟩ => some c
  | _ => none

/-- The integer that a computation has ended with. -/
def int? : Outcome Value → Option Int64
  | ok (.int n) => some n
  | _ => none

theorem exists_of_isOk {r : Outcome α × State} (h : r.1.isOk = true) : ∃ a, r = (ok a, r.2) := by
  obtain ⟨o, s⟩ := r
  cases o with
  | ok a => exact ⟨a, rfl⟩
  | _ => cases h

theorem exists_of_cause? {r : Outcome α × State} {c : Cause} (h : r.1.cause? = some c) :
    ∃ error, r = (raised error, r.2) ∧ error.raised = .cause c := by
  obtain ⟨o, s⟩ := r
  cases o with
  | raised error =>
    obtain ⟨what, trace, depth⟩ := error
    cases what with
    | cause c' => exact ⟨_, rfl, congrArg Raised.cause (Option.some.inj h)⟩
    | thrown i => cases h
  | _ => cases h

theorem eq_of_int? {r : Outcome Value × State} {n : Int64} (h : r.1.int? = some n) :
    r = (ok (.int n), r.2) := by
  obtain ⟨o, s⟩ := r
  cases o with
  | ok v =>
    cases v with
    | int k => rw [Option.some.inj h]
    | _ => cases h
  | _ => cases h

end Outcome

/-! ### Properties of steps -/

/-- A property of computations that sequencing keeps, and that the steps have that change nothing.
-/
structure Eval.Gentle (P : ∀ ⦃α : Type⦄, Eval α → Prop) : Prop where
  pure {α : Type} (a : α) : P (pure a : Eval α)
  andThen {α β : Type} {x : Eval α} {f : α → Eval β} :
    P x → (∀ a, x.Returns a → P (f a)) → P (x >>= f)
  fail {α : Type} (c : Cause) : P (fail c : Eval α)
  stop {α : Type} (why : Stop) : (∀ fault, why ≠ .unbalanced fault) → P (stop why : Eval α)
  read {α : Type} (f : State → α) : P (read f)
  copied (v : Value) : P (copied v)
  newList (vs : Array Value) : P (remember fun m => m.newList vs)
  newMethod (b : BoundMethod) : P (remember fun m => m.newMethod b)
  captureFunction (decl : FunctionDecl) {params : List ParamSpec} (returns : List TypeSpec) :
    (params.map ParamSpec.name).Nodup → P (captureFunction decl params returns)

/-- A property of computations that all basic steps have and sequencing keeps. -/
structure Eval.Closed (P : ∀ ⦃α : Type⦄, Eval α → Prop) : Prop extends Eval.Gentle P where
  newInstance (c : ClassRef) {fields : Bindings Value} :
    (∀ p ∈ fields, p.2.isStruct = false) → P (remember fun m => m.newInstance c fields)
  bindField (i : InstanceRef) (name : String) (v : Value) :
    P (remember fun m => ((), m.bindField i name v))
  modifyList {α : Type} (a : α) (l : ListRef) (f : Array Value → Array Value) :
    P (remember fun m => (a, m.modifyList l f))
  print (text : String) : P (modify fun s => { s with output := s.output ++ text })

/-- What calls back into the evaluator has a property. -/
structure Engine.Satisfies (e : Engine) (P : ∀ ⦃α : Type⦄, Eval α → Prop) : Prop where
  call : ∀ callee hasReceiver arguments keywords, P (e.call callee hasReceiver arguments keywords)
  binary : ∀ op left right, P (e.binary op left right)
  repr : ∀ v, P (e.repr v)
  /-- The code that is running imports a module. -/
  importModule : ∀ target, P (read (fun s => s.activation.module) >>= e.importModule target)

theorem Engine.Satisfies.mono {e : Engine} {P Q : ∀ ⦃α : Type⦄, Eval α → Prop} (h : e.Satisfies P)
    (hPQ : ∀ {α : Type} (x : Eval α), P x → Q x) : e.Satisfies Q :=
  ⟨fun callee hasReceiver arguments keywords =>
      hPQ _ (h.call callee hasReceiver arguments keywords),
    fun op left right => hPQ _ (h.binary op left right), fun v => hPQ _ (h.repr v),
    fun target => hPQ _ (h.importModule target)⟩

namespace Eval.Gentle

/-- Two gentle properties together are gentle. -/
theorem and {P Q : ∀ ⦃α : Type⦄, Eval α → Prop} (hP : Gentle P) (hQ : Gentle Q) :
    Gentle fun _ x => P x ∧ Q x where
  pure a := ⟨hP.pure a, hQ.pure a⟩
  andThen hx hf :=
    ⟨hP.andThen hx.1 fun a ha => (hf a ha).1, hQ.andThen hx.2 fun a ha => (hf a ha).2⟩
  fail c := ⟨hP.fail c, hQ.fail c⟩
  stop why hwhy := ⟨hP.stop why hwhy, hQ.stop why hwhy⟩
  read f := ⟨hP.read f, hQ.read f⟩
  copied v := ⟨hP.copied v, hQ.copied v⟩
  newList vs := ⟨hP.newList vs, hQ.newList vs⟩
  newMethod b := ⟨hP.newMethod b, hQ.newMethod b⟩
  captureFunction decl _ returns hparams :=
    ⟨hP.captureFunction decl returns hparams, hQ.captureFunction decl returns hparams⟩

variable {P : ∀ ⦃α : Type⦄, Eval α → Prop} (h : Gentle P) {e : Engine} (he : e.Satisfies P)

/-! ### Steps -/

/-- A computation that is written in another way has the property of the computation. -/
theorem of_apply (_ : Gentle P) {α : Type} {x y : Eval α} (hy : P y) (hxy : ∀ s, x s = y s) :
    P x := by
  rwa [show x = y from funext hxy]

theorem outOfFuel (h : Gentle P) {α : Type} : P (Eval.stop .outOfFuel : Eval α) :=
  h.stop _ fun _ => nofun

theorem ite (_ : Gentle P) {α : Type} {c : Prop} [Decidable c] {x y : Eval α} (hx : P x)
    (hy : P y) : P (if c then x else y) := by
  split
  · exact hx
  · exact hy

theorem callMethod (_ : Gentle P) (he : e.Satisfies P) (method receiver : Value)
    (arguments : List Value) : P (e.callMethod method receiver arguments) :=
  he.call method true (receiver :: arguments) []

include h

theorem bind {α β : Type} {x : Eval α} {f : α → Eval β} (hx : P x) (hf : ∀ a, P (f a)) :
    P (x >>= f) :=
  h.andThen hx fun a _ => hf a

theorem readMemory {α : Type} (f : Memory → α) : P (readMemory f) := h.read fun s => f s.memory

theorem failWithType {α : Type} (v : Value) (c : String → Cause) :
    P (failWithType v c : Eval α) :=
  h.bind (h.readMemory fun m => m.typeName v) fun name => h.fail (c name)

theorem ofExcept {α : Type} (x : Except Cause α) : P (ofExcept x) := by
  cases x with
  | ok a => exact h.pure a
  | error c => exact h.fail c

theorem newListValue (vs : Array Value) : P (Classlet.newList vs) :=
  h.bind (h.newList vs) fun l => h.pure (Value.list l)

theorem newListOf (vs : List Value) : P (newListOf vs) := h.newListValue vs.toArray

theorem classAttribute? (i : InstanceRef) (name : String) : P (classAttribute? i name) :=
  h.readMemory _

/-! ### Conversions -/

include he

theorem userConversion (i : InstanceRef) (conversion : Conversion) :
    P (userConversion e i conversion) := by
  unfold Classlet.userConversion
  refine h.bind (h.classAttribute? i _) fun found => ?_
  cases found with
  | none => exact h.pure _
  | some method =>
      refine h.bind (h.callMethod he method _ _) fun result => ?_
      refine h.ite (h.pure _) ?_
      exact h.bind (h.readMemory _) fun names => h.fail _

theorem convert (v : Value) (conversion : Conversion) : P (convert e v conversion) := by
  unfold Classlet.convert
  cases v
  case «instance» i =>
    refine h.bind (h.userConversion he i conversion) fun result => ?_
    cases result with
    | some w => exact h.pure w
    | none => exact h.failWithType _ _
  all_goals
    refine h.bind (h.pure none) fun result => ?_
    cases result with
    | some w => exact h.pure w
    | none => exact h.failWithType _ _

theorem truthy (v : Value) : P (truthy e v) := by
  unfold Classlet.truthy
  split
  case h_6 => exact h.readMemory _
  case h_8 i =>
    refine h.bind (h.userConversion he i .bool) fun result => ?_
    split <;> exact h.pure _
  all_goals exact h.pure _

theorem length (v : Value) : P (length e v) := by
  unfold Classlet.length
  split
  case h_1 => exact h.pure _
  case h_2 => exact h.readMemory _
  case h_3 => exact h.pure _
  case h_4 i =>
    refine h.bind (h.userConversion he i .len) fun result => ?_
    split
    · exact h.pure _
    · exact h.failWithType _ _
  case h_5 => exact h.failWithType _ _

/-! ### Binary operators -/

theorem equalElements (a b : Value) : P (equalElements e a b) :=
  h.bind (he.binary .eq a b) fun result => h.truthy he result

theorem allEqual : ∀ as bs : List Value, P (allEqual e as bs)
  | [], _ => h.pure true
  | _ :: _, [] => h.pure true
  | a :: as, b :: bs =>
      h.bind (h.equalElements he a b) fun _ => h.ite (allEqual as bs) (h.pure false)

theorem orderAtDifference (op : BinaryOp) : ∀ as bs : List Value, P (orderAtDifference e op as bs)
  | [], _ => h.pure none
  | _ :: _, [] => h.pure none
  | a :: as, b :: bs =>
      h.bind (h.equalElements he a b) fun _ => h.ite (orderAtDifference op as bs)
        (h.bind (he.binary op a b) fun result => h.pure (some result))

theorem onSequences (op : BinaryOp) (left right : List Value) {make : List Value → Eval Value}
    (hmake : ∀ vs, P (make vs)) : P (onSequences e op left right make) := by
  cases op
  case add => exact h.bind (hmake _) fun v => h.pure (some v)
  case eq | ne =>
    exact h.ite (h.bind (h.allEqual he left right) fun _ => h.pure _)
      (h.bind (h.pure false) fun _ => h.pure _)
  case lt | le | gt | ge =>
    refine h.bind (h.orderAtDifference he _ left right) fun result => ?_
    cases result <;> exact h.pure _
  all_goals exact h.pure none

omit he in
theorem repeatedList (l : ListRef) (n : Int64) : P (repeatedList l n) :=
  h.bind (h.readMemory _) fun _ => h.bind (h.ofExcept _) fun vs =>
    h.bind (h.newListValue vs) fun v => h.pure (some v)

omit he in
theorem repeatedTuple (vs : List Value) (n : Int64) : P (repeatedTuple vs n) :=
  h.bind (h.ofExcept _) fun _ => h.pure _

theorem builtinBinary (op : BinaryOp) (left right : Value) : P (builtinBinary e op left right) := by
  unfold Classlet.builtinBinary
  refine h.ite (h.pure _) (h.ite (h.ofExcept _) ?_)
  split
  case h_1 => exact h.ite (h.pure _) (h.pure _)
  case h_2 => exact h.ite (h.ofExcept _) (h.pure _)
  case h_3 => exact h.bind (h.readMemory _) fun _ => h.onSequences he op _ _ h.newListOf
  case h_4 => exact h.ite (h.repeatedList _ _) (h.pure _)
  case h_5 => exact h.onSequences he op _ _ fun vs => h.pure (Value.tuple vs)
  case h_6 => exact h.ite (h.repeatedTuple _ _) (h.pure _)
  case h_7 => exact h.pure none

omit he in
theorem builtinReversed (op : BinaryOp) (left right : Value) :
    P (builtinReversed op left right) := by
  unfold Classlet.builtinReversed
  refine h.ite (h.pure _) (h.ite (h.ofExcept _) ?_)
  split
  case h_1 => exact h.ite (h.ofExcept _) (h.pure _)
  case h_2 => exact h.ite (h.repeatedList _ _) (h.pure _)
  case h_3 => exact h.ite (h.repeatedTuple _ _) (h.pure _)
  case h_4 => exact h.pure none

theorem definedBinary (op : BinaryOp) (i : InstanceRef) (other : Value) :
    P (definedBinary e op i other) := by
  unfold Classlet.definedBinary
  refine h.bind (h.classAttribute? i _) fun found => ?_
  cases found with
  | some method => exact h.bind (h.callMethod he method _ _) fun _ => h.pure _
  | none => exact h.pure none

theorem userBinary (op : BinaryOp) (i : InstanceRef) (other : Value) :
    P (userBinary e op i other) := by
  unfold Classlet.userBinary
  refine h.bind (h.definedBinary he op i other) fun defined => ?_
  cases defined with
  | some result => exact h.pure result
  | none =>
      refine h.ite (h.bind (h.definedBinary he .eq i other) fun equality => ?_) (h.pure none)
      split
      · exact h.bind (h.truthy he _) fun _ => h.pure _
      · exact h.pure none

theorem probe (op : BinaryOp) (left right : Value) : P (probe e op left right) := by
  unfold Classlet.probe
  split
  · exact h.userBinary he op _ right
  · exact h.builtinBinary he op left right

theorem probeReversed (op : BinaryOp) (left right : Value) : P (probeReversed e op left right) := by
  unfold Classlet.probeReversed
  split
  · split
    · exact h.userBinary he _ _ left
    · exact h.pure none
  · exact h.builtinReversed op left right

theorem binaryOperation (op : BinaryOp) (left right : Value) :
    P (binaryOperation e op left right) := by
  unfold Classlet.binaryOperation
  refine h.bind (h.probe he op left right) fun answer => ?_
  cases answer with
  | some v => exact h.pure v
  | none =>
      dsimp only
      refine h.ite (h.bind (h.pure none) fun answer => ?_)
        (h.bind (h.probeReversed he op left right) fun answer => ?_)
      all_goals
        cases answer with
        | some v => exact h.pure v
        | none =>
            dsimp only
            split
            · exact h.pure _
            · exact h.pure _
            · exact h.bind (h.readMemory _) fun _ => h.fail _

/-! ### Unary operators and sequences -/

theorem unaryOperation (op : UnaryOp) (v : Value) : P (unaryOperation e op v) := by
  unfold Classlet.unaryOperation
  dsimp only
  split
  case h_1 i =>
    refine h.bind (h.classAttribute? i _) fun found => ?_
    cases found with
    | some method =>
        refine h.bind (h.callMethod he method _ _) fun result => ?_
        cases notNil result with
        | some w => exact h.pure w
        | none => exact h.failWithType _ _
    | none => exact h.failWithType _ _
  case h_2 =>
    refine h.bind (h.ofExcept _) fun result => ?_
    cases result with
    | some w => exact h.pure w
    | none => exact h.failWithType _ _
  all_goals
    refine h.bind (h.pure _) fun result => ?_
    cases result with
    | some w => exact h.pure w
    | none => exact h.failWithType _ _

omit he in
theorem positionOf (kind : SequenceKind) (length : Nat) (index : Value) :
    P (positionOf kind length index) := by
  unfold Classlet.positionOf
  split
  · exact h.ofExcept _
  · exact h.failWithType index _

theorem indexOperation (object index : Value) : P (indexOperation e object index) := by
  unfold Classlet.indexOperation
  split
  case h_1 => exact h.bind (h.positionOf _ _ _) fun _ => h.pure _
  case h_2 =>
    exact h.bind (h.readMemory _) fun _ => h.bind (h.positionOf _ _ _) fun _ => h.readMemory _
  case h_3 => exact h.bind (h.positionOf _ _ _) fun _ => h.pure _
  case h_4 j =>
    refine h.bind (h.classAttribute? j _) fun found => ?_
    cases found with
    | some method => exact h.callMethod he method _ _
    | none => exact h.failWithType _ _
  case h_5 => exact h.failWithType _ _

omit he in
theorem sliceBound (length omitted : Nat) (bound : Value) :
    P (sliceBound length omitted bound) := by
  unfold Classlet.sliceBound
  split
  · exact h.pure _
  · exact h.ite (h.pure _) (h.pure _)
  · exact h.failWithType _ _

omit he in
theorem sliceBounds (length : Nat) (start stop : Value) : P (sliceBounds length start stop) :=
  h.bind (h.sliceBound _ _ _) fun _ => h.bind (h.sliceBound _ _ _) fun _ => h.pure _

omit he in
theorem sliceOperation (object start stop : Value) : P (sliceOperation object start stop) := by
  unfold Classlet.sliceOperation
  split
  case h_1 => exact h.bind (h.sliceBounds _ _ _) fun _ => h.pure _
  case h_2 =>
    exact h.bind (h.readMemory _) fun _ => h.bind (h.sliceBounds _ _ _) fun _ =>
      h.bind (h.readMemory _) fun vs => h.newListValue vs
  case h_3 => exact h.bind (h.sliceBounds _ _ _) fun _ => h.pure _
  case h_4 => exact h.failWithType _ _

theorem elementsFrom (object : Value) : ∀ count i : Nat, P (elementsFrom e object count i)
  | 0, _ => h.pure []
  | count + 1, i =>
      h.bind (h.indexOperation he object _) fun v => h.bind (elementsFrom object count (i + 1))
        fun more => h.pure (v :: more)

omit he in
theorem reserve (count : Nat) : P (reserve count) := by
  unfold Classlet.reserve
  split
  · exact h.pure ()
  · exact h.stop _ fun _ => nofun

theorem elementsOf (v : Value) : P (elementsOf e v) := by
  unfold Classlet.elementsOf
  split
  case h_1 => exact h.pure _
  case h_2 => exact h.readMemory _
  case h_3 => exact h.pure _
  case h_4 i =>
    refine h.bind (h.classAttribute? i _) fun found => ?_
    cases found with
    | some method =>
      exact h.bind (h.length he _) fun _ => h.bind (h.reserve _) fun _ => h.elementsFrom he _ _ _
    | none => exact h.failWithType _ _
  case h_5 => exact h.failWithType _ _

/-! ### Texts -/

theorem reprAll : ∀ vs : List Value, P (reprAll e vs)
  | [] => h.pure []
  | v :: vs => h.bind (he.repr v) fun s => h.bind (reprAll vs) fun more => h.pure (s :: more)

theorem sequenceText (v : Value) : P (sequenceText e v) := by
  unfold Classlet.sequenceText
  split
  · exact h.bind (h.readMemory _) fun vs => h.bind (h.reprAll he vs) fun _ => h.pure _
  · exact h.bind (h.reprAll he _) fun _ => h.pure _
  · exact h.readMemory _

theorem reprOperation (v : Value) : P (reprOperation e v) := by
  unfold Classlet.reprOperation
  split
  case h_1 => exact h.pure _
  case h_2 i =>
    refine h.bind (h.userConversion he i .repr) fun result => ?_
    split
    · exact h.pure _
    · exact h.readMemory _
  case h_3 => exact h.sequenceText he v

theorem strOperation (v : Value) : P (strOperation e v) := by
  unfold Classlet.strOperation
  split
  case h_1 => exact h.pure _
  case h_2 i =>
    refine h.bind (h.userConversion he i .str) fun result => ?_
    split
    · exact h.pure _
    · exact h.reprOperation he _
  case h_3 => exact h.sequenceText he v

/-! ### Parts of built-in functions -/

omit he in
theorem keywordText (keywords : KeywordValues) (name omitted : String) :
    P (keywordText keywords name omitted) := by
  unfold Classlet.keywordText
  split
  · exact h.pure _
  · exact h.pure _
  · exact h.pure _
  · exact h.failWithType _ _

theorem strAll : ∀ vs : List Value, P (strAll e vs)
  | [] => h.pure []
  | v :: vs =>
      h.bind (h.strOperation he v) fun s => h.bind (strAll vs) fun more => h.pure (s :: more)

theorem assertTrue (condition : Value) (text : Option Value) : P (assertTrue e condition text) := by
  unfold Classlet.assertTrue
  refine h.bind (h.truthy he condition) fun holds => ?_
  refine h.ite (h.pure _) ?_
  cases text with
  | some v => exact h.bind (h.strOperation he v) fun _ => h.fail _
  | none => exact h.bind (h.pure _) fun _ => h.fail _

theorem makeInt (v : Value) : P (makeInt e v) := by
  unfold Classlet.makeInt
  split
  case h_1 => exact h.pure _
  case h_2 => exact h.pure _
  case h_3 => exact h.ite (h.pure _) (h.fail _)
  case h_4 =>
    split
    · exact h.pure _
    · exact h.fail _
  case h_5 => exact h.convert he _ _
  case h_6 => exact h.failWithType _ _

omit he in
theorem makeReal (v : Value) : P (makeReal v) := by
  unfold Classlet.makeReal
  split
  case h_4 =>
    split
    · exact h.pure _
    · exact h.fail _
  case h_5 => exact h.failWithType _ _
  all_goals exact h.pure _

end Eval.Gentle

namespace Eval.Closed

/-- Two closed properties together are closed. -/
theorem and {P Q : ∀ ⦃α : Type⦄, Eval α → Prop} (hP : Closed P) (hQ : Closed Q) :
    Closed fun _ x => P x ∧ Q x where
  toGentle := hP.toGentle.and hQ.toGentle
  newInstance c _ hfields := ⟨hP.newInstance c hfields, hQ.newInstance c hfields⟩
  bindField i name v := ⟨hP.bindField i name v, hQ.bindField i name v⟩
  modifyList a l f := ⟨hP.modifyList a l f, hQ.modifyList a l f⟩
  print text := ⟨hP.print text, hQ.print text⟩

variable {P : ∀ ⦃α : Type⦄, Eval α → Prop} (h : Closed P) {e : Engine} (he : e.Satisfies P)
include h

theorem newException (c : ClassRef) (message : String) :
    P (remember fun m => m.newInstance c [("message", .str message)]) :=
  h.newInstance c fun p hp => by
    rw [List.mem_singleton.mp hp]
    rfl

/-! ### Elements of lists -/

include he

theorem setIndexOperation (object index value : Value) :
    P (setIndexOperation e object index value) := by
  unfold Classlet.setIndexOperation
  split
  case h_1 l =>
    exact h.bind (h.readMemory _) fun _ => h.bind (h.positionOf _ _ _) fun i =>
      h.bind (h.copied value) fun w => h.modifyList () l fun vs => vs.setIfInBounds i w
  case h_2 j =>
    refine h.bind (h.classAttribute? j _) fun found => ?_
    cases found with
    | some method => exact h.bind (h.callMethod he method _ _) fun _ => h.pure _
    | none => exact h.failWithType _ _
  case h_3 => exact h.failWithType _ _

/-! ### Built-in functions -/

theorem printValues (arguments : List Value) (keywords : KeywordValues) :
    P (printValues e arguments keywords) :=
  h.bind (h.keywordText _ _ _) fun _ => h.bind (h.keywordText _ _ _) fun _ =>
    h.bind (h.strAll he arguments) fun _ => h.bind (h.print _) fun _ => h.pure _

omit he in
theorem appendTo (target v : Value) : P (appendTo target v) := by
  unfold Classlet.appendTo
  split
  · exact h.bind (h.copied v) fun w => h.modifyList _ _ fun vs => vs.push w
  · exact h.failWithType _ _

theorem runBuiltin (f : Builtin) (arguments : List Value) (keywords : KeywordValues) :
    P (runBuiltin e f arguments keywords) := by
  unfold Classlet.runBuiltin
  split
  case h_1 => exact h.printValues he arguments keywords
  case h_2 => exact h.bind (h.length he _) fun _ => h.pure _
  case h_3 => exact h.bind (h.reprOperation he _) fun _ => h.pure _
  case h_4 => exact h.pure _
  case h_5 => exact h.readMemory _
  case h_6 => exact h.fail _
  case h_7 => exact h.assertTrue he _ _
  case h_8 => exact h.assertTrue he _ _
  case h_9 => exact h.appendTo _ _
  case h_10 => exact h.pure _

theorem callBuiltin (f : Builtin) (arguments : List Value) (keywords : KeywordValues) :
    P (callBuiltin e f arguments keywords) :=
  h.bind (h.ofExcept _) fun _ => h.runBuiltin he f arguments keywords

/-! ### Built-in classes -/

theorem makeError (c : ClassRef) (arguments : List Value) (keywords : KeywordValues) :
    P (makeError e c arguments keywords) := by
  unfold Classlet.makeError
  refine h.bind (h.readMemory _) fun name => h.bind (h.ofExcept _) fun text => ?_
  cases text with
  | none =>
      exact h.bind (h.pure _) fun _ => h.bind (h.newException c _) fun i => h.pure _
  | some v =>
      exact h.bind (h.strOperation he v) fun _ => h.bind (h.newException c _) fun i => h.pure _

theorem construct (construction : Construction) (c : ClassRef) (arguments : List Value)
    (keywords : KeywordValues) : P (construct e construction c arguments keywords) := by
  unfold Classlet.construct
  split
  case h_1 => exact h.makeError he c arguments keywords
  case h_2 =>
    refine h.bind (h.readMemory _) fun name => h.bind (h.ofExcept _) fun argument => ?_
    split
    case h_2 => exact h.bind (h.truthy he _) fun _ => h.pure _
    case h_4 => exact h.makeInt he _
    case h_6 => exact h.makeReal _
    case h_8 => exact h.bind (h.strOperation he _) fun _ => h.pure _
    case h_9 => exact h.newListOf _
    case h_10 => exact h.bind (h.elementsOf he _) fun vs => h.newListOf vs
    case h_12 => exact h.bind (h.elementsOf he _) fun _ => h.pure _
    all_goals exact h.pure _

end Eval.Closed

end Classlet
