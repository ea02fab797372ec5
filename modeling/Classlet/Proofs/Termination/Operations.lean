import Classlet.Proofs.Memory.Nesting
import Classlet.Proofs.Termination.Level

/-! # Operators and conversions end

`Program.MethodsHalt` is what operators need of calls: that functions of classes end, which they do
as long as a call goes one level deeper.  Operators of classes are functions, since no name of an
attribute is the key of an operator.

Comparing and showing sequences goes into their elements.  The elements of a list are older
than the list, so these walks end by induction on the lists that a value mentions and, for tuples,
on its size (`Halts.binary`, `Halts.repr`). -/

namespace Classlet

open Eval

/-! ### Fitting values -/

def FitsIf (o : Option Value) (m : Memory) : Prop := ∀ v, o = some v → v.FitsIn m

def AllFit (vs : List Value) (m : Memory) : Prop := ∀ v ∈ vs, v.FitsIn m

/-- Nothing is asked of an answer. -/
abbrev Anything {α : Type} (_ : α) (_ : Memory) : Prop := True

variable {P : Program} {α : Type} {s t : State} {b : Nat}

/-- Functions of classes end when they are called at a level of at most `b`. -/
def Program.MethodsHalt (P : Program) (b : Nat) : Prop :=
  ∀ (f : FunctionRef) (arguments : List Value) (s : State), s.Ready P b →
    AllFit arguments s.memory →
      Halts P (fun e => e.call (.function f) true arguments []) s Value.FitsIn

theorem FitsIf.none {m : Memory} : FitsIf none m := fun _ h => by cases h

theorem FitsIf.some {m : Memory} {v : Value} (h : v.FitsIn m) : FitsIf (some v) m := by
  intro w hw
  cases hw
  exact h

theorem FitsIf.of_map {m : Memory} {x : Except Cause Value} {o : Option Value}
    (h : x.map Option.some = .ok o) (hx : ∀ v, x = .ok v → v.FitsIn m) : FitsIf o m := by
  cases x with
  | ok v =>
      cases h
      exact .some (hx v rfl)
  | error c => cases h

theorem AllFit.nil {m : Memory} : AllFit [] m := fun _ h => by cases h

theorem AllFit.cons {m : Memory} {v : Value} {vs : List Value} (hv : v.FitsIn m)
    (hvs : AllFit vs m) : AllFit (v :: vs) m :=
  List.forall_mem_cons.mpr ⟨hv, hvs⟩

theorem AllFit.tuple {m : Memory} {vs : List Value} (h : AllFit vs m) : (Value.tuple vs).FitsIn m :=
  Value.allWithin_iff.mpr h

theorem AllFit.of_tuple {m : Memory} {vs : List Value} (h : (Value.tuple vs).FitsIn m) :
    AllFit vs m :=
  Value.allWithin_iff.mp h

theorem State.Reaches.allFit {vs : List Value} (h : s.Reaches P t) (hvs : AllFit vs s.memory) :
    AllFit vs t.memory :=
  fun v hv => h.fits (hvs v hv)

/-! ### Numbers -/

namespace Arithmetic

variable {m : Memory} {op : BinaryOp}

theorem fitsIf_compareAs {o : Ordering} : FitsIf ((compareAs op o).map .bool) m := by
  intro v hv
  obtain ⟨b, -, rfl⟩ := Option.map_eq_some_iff.mp hv
  trivial

theorem fits_of_checked {n : Int} {v : Value} (h : checked n = .ok v) : v.FitsIn m := by
  unfold checked at h
  split at h
  · cases h
    trivial
  · cases h

theorem fits_of_power {base : Int} {exponent : Nat} {v : Value} (h : power base exponent = .ok v) :
    v.FitsIn m := by
  unfold power at h
  split at h
  · cases h
  · split at h
    · exact fits_of_checked h
    · split at h
      · cases h
      · exact fits_of_checked h

theorem fits_of_shiftLeft {a : Int64} {k : Nat} {v : Value} (h : shiftLeft a k = .ok v) :
    v.FitsIn m := by
  unfold shiftLeft at h
  dsimp only at h
  split at h
  · cases h
    trivial
  · cases h

theorem fitsIf_of_onInts {a b : Int64} {o : Option Value} (h : onInts op a b = .ok o) :
    FitsIf o m := by
  unfold onInts at h
  cases op
  case add | sub | mul => exact .of_map h fun _ => fits_of_checked
  case div =>
    dsimp only at h
    split at h
    · cases h
    · exact .of_map h fun _ => fits_of_checked
  case mod =>
    dsimp only at h
    split at h
    · cases h
    · cases h
      exact .some trivial
  case pow =>
    dsimp only at h
    split at h
    · exact .of_map h fun _ => fits_of_power
    · split at h
      · cases h
      · cases h
        exact .some trivial
  case shl =>
    dsimp only at h
    cases hk : shiftAmount b with
    | ok k =>
        rw [hk] at h
        change (shiftLeft a k >>= fun v => Except.ok (some v)) = .ok o at h
        exact .of_map h fun _ => fits_of_shiftLeft
    | error c =>
        rw [hk] at h
        cases h
  case shr =>
    dsimp only at h
    cases hk : shiftAmount b with
    | ok k =>
        rw [hk] at h
        cases h
        exact .some trivial
    | error c =>
        rw [hk] at h
        cases h
  case bitAnd | bitOr | bitXor =>
    cases h
    exact .some trivial
  all_goals
    cases h
    exact fitsIf_compareAs

theorem fitsIf_of_onReals {a b : Float} {o : Option Value} (h : onReals op a b = .ok o) :
    FitsIf o m := by
  unfold onReals at h
  cases op
  case div | mod | pow =>
    dsimp only at h
    split at h
    · cases h
    · first
      | cases h
        exact .some trivial
      | split at h
        · cases h
        · cases h
          exact .some trivial
  all_goals
    cases h
    first
    | exact .some trivial
    | exact .none

theorem fitsIf_of_numeric {left right : Value} {o : Option Value}
    (h : numeric op left right = .ok o) : FitsIf o m := by
  unfold numeric at h
  split at h
  · cases op
    case bitAnd | bitOr | bitXor =>
      cases h
      exact .some trivial
    all_goals exact fitsIf_of_onInts h
  · exact fitsIf_of_onReals h
  · exact fitsIf_of_onReals h
  · exact fitsIf_of_onInts h

end Arithmetic
namespace Halts

variable {Q : α → Memory → Prop}

theorem readMemory_bind {β : Type} {f : Memory → β} {F : β → Engine → Eval α}
    (h : Halts P (F (f s.memory)) s Q) :
    Halts P (fun e => Eval.readMemory f >>= fun a => F a e) s Q :=
  h.congr fun _ => rfl

theorem ofExcept_bind {β : Type} {x : Except Cause β} {F : β → Engine → Eval α} (hs : s.Tame P)
    (h : ∀ a, x = .ok a → Halts P (F a) s Q) :
    Halts P (fun e => Eval.ofExcept x >>= fun a => F a e) s Q := by
  cases x with
  | ok a => exact (h a rfl).congr fun _ => rfl
  | error c => exact (Halts.fail hs c).congr fun _ => rfl

/-- A class is asked for one of its operators, which is a function if there is one. -/
theorem operator_bind {i : InstanceRef} {key symbol : String} {F : Option Value → Engine → Eval α}
    (hs : s.Tame P) (hkey : key = operatorKey symbol) (hnone : Halts P (F none) s Q)
    (hsome : ∀ f, Halts P (F (some (.function f))) s Q) :
    Halts P (fun e => classAttribute? i key >>= fun a => F a e) s Q := by
  refine .readMemory_bind (f := fun m => m.findAttribute? i.ofClass key) ?_
  subst hkey
  cases hfound : s.memory.findAttribute? i.ofClass (operatorKey symbol) with
  | none => exact hnone
  | some v =>
      obtain ⟨f, rfl⟩ := hs.memory.operator_function hfound
      exact hsome f

theorem matchSome {v : Value} {c : String → Cause} {o : Option Value} (hs : s.Tame P)
    (ho : FitsIf o s.memory) :
    Halts P (fun _ => match o with
      | some w => Pure.pure w
      | none => Eval.failWithType v c) s Value.FitsIn := by
  cases o with
  | some w => exact .pure hs (ho w rfl)
  | none => exact .failWithType hs v c

/-! ### Conversions -/

section operators
variable (hm : P.MethodsHalt b) (hs : s.Ready P b)
include hm hs

theorem callMethod (f : FunctionRef) {receiver : Value} (hreceiver : receiver.Fits s)
    {arguments : List Value} (hargs : AllFit arguments s.memory) :
    Halts P (fun e => e.callMethod (.function f) receiver arguments) s Value.FitsIn :=
  hm f _ s hs (.cons hreceiver hargs)

theorem userConversion {i : InstanceRef} (hi : (Value.instance i).Fits s)
    (conversion : Conversion) : Halts P (fun e => userConversion e i conversion) s FitsIf := by
  unfold Classlet.userConversion
  refine .operator_bind hs.tame rfl (.pure hs.tame .none) fun f => ?_
  refine .bind (callMethod hm hs f hi .nil) fun result t ht hresult => ?_
  refine .ite (fun _ => .pure ht.tame (.some hresult)) fun _ => ?_
  exact .readMemory_bind (.fail ht.tame _)

theorem convert {v : Value} (hv : v.Fits s) (conversion : Conversion) :
    Halts P (fun e => convert e v conversion) s Value.FitsIn := by
  unfold Classlet.convert
  cases v
  case «instance» i =>
    exact .bind (userConversion hm hs hv conversion) fun result t ht hresult =>
      .matchSome ht.tame hresult
  all_goals exact .bind (.pure hs.tame .none) fun result t ht hresult => .matchSome ht.tame hresult

theorem truthy {v : Value} (hv : v.Fits s) : Halts P (fun e => truthy e v) s Anything := by
  unfold Classlet.truthy
  cases v
  case list => exact .readMemory hs.tame trivial
  case «instance» i =>
    refine .bind (userConversion hm hs hv .bool) fun result t ht _ => ?_
    rcases result with _ | (_ | _ | _) <;> exact .pure ht.tame trivial
  all_goals exact .pure hs.tame trivial

theorem length {v : Value} (hv : v.Fits s) : Halts P (fun e => length e v) s Anything := by
  unfold Classlet.length
  cases v
  case str => exact .pure hs.tame trivial
  case list => exact .readMemory hs.tame trivial
  case tuple => exact .pure hs.tame trivial
  case «instance» i =>
    refine .bind (userConversion hm hs hv .len) fun result t ht _ => ?_
    rcases result with _ | (_ | _ | _) <;>
      first
      | exact .pure ht.tame trivial
      | exact .failWithType ht.tame _ _
  all_goals exact .failWithType hs.tame _ _

end operators

end Halts

/-! ### Walks into sequences -/

/-- What holds of a value if it holds of its elements later on holds of every value that fits.  The
induction is on the lists that the value mentions, and on its size. -/
theorem State.Ready.parts_induction {C : State → Value → Prop}
    (hstep : ∀ s v, s.Ready P b → v.Fits s →
      (∀ a ∈ s.memory.parts v, ∀ t, s.Reaches P t → C t a) → C s v) :
    ∀ s v, s.Ready P b → v.Fits s → C s v := by
  have hall : ∀ n k, ∀ s v, s.Ready P b → n ≤ s.memory.lists.size →
      v.Within n s.memory.classes.size → sizeOf v < k → C s v := by
    intro n
    induction n using Nat.strong_induction_on with
    | _ n older =>
        intro k
        induction k with
        | zero => exact fun _ _ _ _ _ hk => absurd hk (Nat.not_lt_zero _)
        | succ k smaller =>
            intro s v hs hn hv hk
            refine hstep s v hs (hv.mono hn le_rfl) fun a ha t ht => ?_
            cases v
            case list l =>
              have hl : l.index < n := hv
              have hle := (hl.le.trans hn).trans ht.lists
              refine older l.index hl _ t a (ht.ready hs) hle (ht.within ?_) (Nat.lt_succ_self _)
              exact hs.tame.memory.elements_within l (Array.mem_toList_iff.mp ha)
            case tuple vs =>
              have hmem : a ∈ vs := ha
              have hsize := List.sizeOf_lt_of_mem hmem
              simp only [Value.tuple.sizeOf_spec] at hk
              exact smaller t a (ht.ready hs) (hn.trans ht.lists)
                (ht.within (Value.allWithin_iff.mp hv a hmem)) (by omega)
            all_goals cases ha
  exact fun s v hs hv => hall _ _ s v hs le_rfl hv (Nat.lt_succ_self _)

theorem State.Tame.allFit_parts {v : Value} (hs : s.Tame P) (hv : v.Fits s) :
    AllFit (s.memory.parts v) s.memory := by
  cases v
  case list l => exact fun a ha => hs.memory.elements_fit hv (Array.mem_toList_iff.mp ha)
  case tuple vs => exact .of_tuple hv
  all_goals exact .nil

/-- A value can be compared with others from now on. -/
def Compares (P : Program) (s : State) (v : Value) : Prop :=
  ∀ (op : BinaryOp) (w : Value) (t : State), s.Reaches P t → w.Fits t →
    Halts P (fun e => e.binary op v w) t Value.FitsIn

theorem Compares.later {v : Value} (h : Compares P s v) (ht : s.Reaches P t) : Compares P t v :=
  fun op w u hu hw => h op w u (ht.trans hu) hw

namespace Halts

/-! ### Binary operators -/

theorem repeated {m : Memory} {vs ws : Array Value} {n : Int64} (h : repeatedValues vs n = .ok ws)
    (hvs : ∀ v ∈ vs, v.FitsIn m) : ∀ v ∈ ws, v.FitsIn m := by
  have hrepeat : ∀ (k : Nat) (acc : Array Value), (∀ v ∈ acc, v.FitsIn m) →
      ∀ v ∈ repeatValues vs k acc, v.FitsIn m := by
    intro k
    induction k with
    | zero => exact fun _ hacc => hacc
    | succ k ih =>
        intro acc hacc
        refine ih _ fun v hv => ?_
        rcases Array.mem_append.mp hv with hv | hv
        · exact hacc v hv
        · exact hvs v hv
  unfold repeatedValues at h
  cases hk : copies vs.size n with
  | error c =>
      rw [hk] at h
      cases h
  | ok k =>
      rw [hk] at h
      cases h
      split
      · simp
      · exact hrepeat k #[] (by simp)

theorem repeatedList (hs : s.Tame P) {l : ListRef} (hl : l.index < s.memory.lists.size)
    (n : Int64) : Halts P (fun _ => Classlet.repeatedList l n) s FitsIf := by
  refine .readMemory_bind (.ofExcept_bind hs fun vs hvs => ?_)
  refine .bind (.newList hs ?_) fun v t ht hv => .pure ht.tame (.some hv)
  exact repeated hvs fun v hv => hs.memory.elements_fit hl hv

theorem repeatedTuple (hs : s.Tame P) {vs : List Value} (hvs : AllFit vs s.memory) (n : Int64) :
    Halts P (fun _ => Classlet.repeatedTuple vs n) s FitsIf := by
  refine .ofExcept_bind hs fun ws hws => .pure hs (.some (AllFit.tuple fun v hv => ?_))
  exact repeated hws (fun v hv => hvs v (List.mem_toArray.mp hv)) v (Array.mem_toList_iff.mp hv)

theorem repeatedText {m : Memory} {text : String} {n : Int64} {o : Option Value}
    (h : (Classlet.repeated text n).map some = .ok o) : FitsIf o m := by
  refine .of_map h fun v hv => ?_
  unfold Classlet.repeated at hv
  cases hk : copies text.utf8ByteSize n with
  | ok k =>
      rw [hk] at hv
      cases hv
      trivial
  | error c =>
      rw [hk] at hv
      cases hv

theorem nilEquality {m : Memory} (op : BinaryOp) (other : Value) :
    FitsIf (Classlet.nilEquality op other) m := by
  cases op
  case eq | ne => exact .some trivial
  all_goals exact .none

theorem builtinReversed (hs : s.Tame P) (op : BinaryOp) {left right : Value}
    (hright : right.Fits s) :
    Halts P (fun _ => Classlet.builtinReversed op left right) s FitsIf := by
  unfold Classlet.builtinReversed
  refine .ite (fun _ => .pure hs (nilEquality _ _)) fun _ => ?_
  refine .ite (fun _ => .ofExcept hs fun o ho => Arithmetic.fitsIf_of_numeric ho) fun _ => ?_
  split
  case h_1 => exact .ite (fun _ => .ofExcept hs fun o ho => repeatedText ho) fun _ => .pure hs .none
  case h_2 => exact .ite (fun _ => .repeatedList hs hright _) fun _ => .pure hs .none
  case h_3 => exact .ite (fun _ => .repeatedTuple hs (.of_tuple hright) _) fun _ => .pure hs .none
  case h_4 => exact .pure hs .none

section operators
variable (hm : P.MethodsHalt b) (hs : s.Ready P b)
include hm hs

theorem equalElements {a c : Value} (ha : Compares P s a) (hc : c.Fits s) :
    Halts P (fun e => equalElements e a c) s Anything :=
  .bind (ha .eq c s (.refl hs.tame) hc) fun _ _ ht hv => .truthy hm (ht.ready hs) hv

omit hs in
theorem allEqual : ∀ {as bs : List Value} {s : State}, s.Ready P b → (∀ a ∈ as, Compares P s a) →
    AllFit bs s.memory → Halts P (fun e => allEqual e as bs) s Anything
  | [], _, _, hs, _, _ => .pure hs.tame trivial
  | _ :: _, [], _, hs, _, _ => .pure hs.tame trivial
  | a :: as, c :: bs, s, hs, has, hbs => by
      have hhead := equalElements hm hs (has a List.mem_cons_self) (hbs c List.mem_cons_self)
      refine .bind hhead fun same t ht _ => .ite (fun _ => ?_) fun _ => .pure ht.tame trivial
      refine allEqual (ht.ready hs) (fun x hx => ?_) (ht.allFit fun x hx => ?_)
      · exact (has x (List.mem_cons_of_mem _ hx)).later ht
      · exact hbs x (List.mem_cons_of_mem _ hx)

omit hs in
theorem orderAtDifference (op : BinaryOp) : ∀ {as bs : List Value} {s : State}, s.Ready P b →
    (∀ a ∈ as, Compares P s a) → AllFit bs s.memory →
      Halts P (fun e => orderAtDifference e op as bs) s FitsIf
  | [], _, _, hs, _, _ => .pure hs.tame .none
  | _ :: _, [], _, hs, _, _ => .pure hs.tame .none
  | a :: as, c :: bs, s, hs, has, hbs => by
      have ha := has a List.mem_cons_self
      have hc := hbs c List.mem_cons_self
      refine .bind (equalElements hm hs ha hc) fun same t ht _ => .ite (fun _ => ?_) fun _ => ?_
      · refine orderAtDifference op (ht.ready hs) (fun x hx => ?_) (ht.allFit fun x hx => ?_)
        · exact (has x (List.mem_cons_of_mem _ hx)).later ht
        · exact hbs x (List.mem_cons_of_mem _ hx)
      · exact .bind (ha op c t ht (ht.fits hc)) fun v u hu hv => .pure hu.tame (.some hv)

theorem onSequences (op : BinaryOp) {left right : List Value} {make : List Value → Eval Value}
    (hleft : ∀ a ∈ left, Compares P s a) (hfits : AllFit left s.memory)
    (hright : AllFit right s.memory)
    (hmake : ∀ vs, AllFit vs s.memory → Halts P (fun _ => make vs) s Value.FitsIn) :
    Halts P (fun e => onSequences e op left right make) s FitsIf := by
  cases op
  case add =>
    refine .bind (hmake _ (List.forall_mem_append.mpr ⟨hfits, hright⟩)) fun v t ht hv => ?_
    exact .pure ht.tame (.some hv)
  case eq | ne =>
    refine .ite (fun _ => ?_) fun _ => ?_
    · exact .bind (allEqual hm hs hleft hright) fun _ t ht _ => .pure ht.tame (.some trivial)
    · exact .bind (.pure hs.tame (Q := Anything) trivial) fun _ t ht _ =>
        .pure ht.tame (.some trivial)
  case lt | le | gt | ge =>
    refine .bind (orderAtDifference hm _ hs hleft hright) fun result t ht hresult => ?_
    cases result with
    | some v => exact .pure ht.tame hresult
    | none => exact .pure ht.tame Arithmetic.fitsIf_compareAs
  all_goals exact .pure hs.tame .none

/-- The operation of a built-in left operand, whose elements can be compared. -/
theorem builtinBinary (op : BinaryOp) {left right : Value} (hleft : left.Fits s)
    (hright : right.Fits s) (hparts : ∀ a ∈ s.memory.parts left, Compares P s a) :
    Halts P (fun e => builtinBinary e op left right) s FitsIf := by
  have hfits := hs.tame.allFit_parts hleft
  have hothers := hs.tame.allFit_parts hright
  unfold Classlet.builtinBinary
  refine .ite (fun _ => .pure hs.tame (nilEquality _ _)) fun _ => ?_
  refine .ite (fun _ => .ofExcept hs.tame fun o ho => Arithmetic.fitsIf_of_numeric ho) fun _ => ?_
  have hnone : Halts P (fun _ => Pure.pure none) s FitsIf := .pure hs.tame .none
  cases left
  case str text =>
    cases right
    case str => 
      exact .ite (fun _ => .pure hs.tame (.some trivial)) fun _ =>
        .pure hs.tame Arithmetic.fitsIf_compareAs
    case int => exact .ite (fun _ => .ofExcept hs.tame fun o ho => repeatedText ho) fun _ => hnone
    all_goals exact hnone
  case list l =>
    cases right
    case list =>
      exact .readMemory_bind (onSequences hm hs op hparts hfits hothers fun vs hvs =>
        .newListOf hs.tame hvs)
    case int => exact .ite (fun _ => .repeatedList hs.tame hleft _) fun _ => hnone
    all_goals exact hnone
  case tuple vs =>
    cases right
    case tuple =>
      exact onSequences hm hs op hparts hfits hothers fun vs hvs => .pure hs.tame hvs.tuple
    case int => exact .ite (fun _ => .repeatedTuple hs.tame hfits _) fun _ => hnone
    all_goals exact hnone
  all_goals exact hnone

theorem definedBinary (op : BinaryOp) {i : InstanceRef} (hi : (Value.instance i).Fits s)
    {other : Value} (hother : other.Fits s) :
    Halts P (fun e => definedBinary e op i other) s fun o m => ∀ result, o = some result →
      FitsIf result m := by
  unfold Classlet.definedBinary
  refine .operator_bind hs.tame rfl (.pure hs.tame fun _ h => by cases h) fun f => ?_
  refine .bind (callMethod hm hs f hi (.cons hother .nil)) fun result t ht hresult => ?_
  refine .pure ht.tame fun answer ha => ?_
  cases ha
  unfold notNil
  split
  · exact .none
  · exact .some hresult

theorem userBinary (op : BinaryOp) {i : InstanceRef} (hi : (Value.instance i).Fits s)
    {other : Value} (hother : other.Fits s) :
    Halts P (fun e => userBinary e op i other) s FitsIf := by
  unfold Classlet.userBinary
  refine .bind (definedBinary hm hs op hi hother) fun defined t ht hdefined => ?_
  cases defined with
  | some result => exact .pure ht.tame (hdefined result rfl)
  | none =>
      have hnone : ∀ {t : State}, t.Tame P → Halts P (fun _ => Pure.pure none) t FitsIf :=
        fun ht => .pure ht .none
      refine .ite (fun _ => ?_) fun _ => hnone ht.tame
      refine .bind (definedBinary hm (ht.ready hs) .eq (ht.fits hi) (ht.fits hother))
        fun equality u hu hequality => ?_
      rcases equality with _ | _ | equal
      · exact hnone hu.tame
      · exact hnone hu.tame
      · exact .bind (truthy hm (hu.ready (ht.ready hs)) (hequality _ rfl equal rfl))
          fun _ _ hw _ => .pure hw.tame (.some trivial)

theorem probeReversed (op : BinaryOp) {left right : Value} (hleft : left.Fits s)
    (hright : right.Fits s) : Halts P (fun e => probeReversed e op left right) s FitsIf := by
  cases right
  case «instance» j =>
    cases hmirrored : op.mirrored? with
    | some mirrored =>
        refine (userBinary hm hs mirrored hright hleft).congr fun m => ?_
        simp only [Classlet.probeReversed, hmirrored]
    | none =>
        refine (Halts.pure hs.tame .none).congr (Y := fun _ => Pure.pure none) fun m => ?_
        simp only [Classlet.probeReversed, hmirrored]
  all_goals exact .builtinReversed hs.tame op hright

/-- A binary operation, if the elements of the left operand can be compared. -/
theorem binaryOperation (op : BinaryOp) {left right : Value} (hleft : left.Fits s)
    (hright : right.Fits s) (hparts : ∀ a ∈ s.memory.parts left, Compares P s a) :
    Halts P (fun e => binaryOperation e op left right) s Value.FitsIn := by
  have hprobe : Halts P (fun e => probe e op left right) s FitsIf := by
    cases left
    case «instance» i => exact userBinary hm hs op hleft hright
    all_goals exact builtinBinary hm hs op hleft hright hparts
  unfold Classlet.binaryOperation
  refine .bind hprobe fun answer t ht hanswer => ?_
  cases answer with
  | some v => exact .pure ht.tame (hanswer v rfl)
  | none =>
      refine .ite (fun _ => .bind (.pure ht.tame FitsIf.none) fun answer u hu hanswer => ?_)
        fun _ => .bind (probeReversed hm (ht.ready hs) op (ht.fits hleft) (ht.fits hright))
          fun answer u hu hanswer => ?_
      all_goals
        cases answer with
        | some v => exact .pure hu.tame (hanswer v rfl)
        | none =>
            cases identical? left right <;> cases op <;>
              first
              | exact .pure hu.tame trivial
              | exact .readMemory_bind (.fail hu.tame _)

end operators

/-- **Binary operations end.** -/
theorem binary (hm : P.MethodsHalt b) (hs : s.Ready P b) (op : BinaryOp) {left right : Value}
    (hleft : left.Fits s) (hright : right.Fits s) :
    Halts P (fun e => Classlet.binaryOperation e op left right) s Value.FitsIn := by
  refine State.Ready.parts_induction (C := fun s left => ∀ op right, right.Fits s →
    Halts P (fun e => Classlet.binaryOperation e op left right) s Value.FitsIn) ?_ s left hs hleft
    op right hright
  intro s left hs hleft hparts op right hright
  refine binaryOperation hm hs op hleft hright fun a ha op w t ht hw => ?_
  exact (hparts a ha t ht op w hw).step fun _ => rfl

/-! ### Unary operators and sequences -/

section operators
variable (hm : P.MethodsHalt b) (hs : s.Ready P b)
include hm hs

theorem unaryOperation (op : UnaryOp) {v : Value} (hv : v.Fits s) :
    Halts P (fun e => unaryOperation e op v) s Value.FitsIn := by
  obtain ⟨symbol, hkey⟩ : ∃ symbol, op.key = operatorKey symbol := by
    cases op <;> exact ⟨_, rfl⟩
  have hrest : ∀ (o : Option Value) (t : State), s.Reaches P t → FitsIf o t.memory →
      Halts P (fun _ => match o with
        | some w => Pure.pure w
        | none => Eval.failWithType v (.badOperand op)) t Value.FitsIn :=
    fun _ _ ht ho => .matchSome ht.tame ho
  unfold Classlet.unaryOperation
  cases v
  case «instance» i =>
    refine .operator_bind hs.tame hkey (hrest none s (.refl hs.tame) .none) fun f => ?_
    refine .bind (callMethod hm hs f hv .nil) fun result t ht hresult => hrest _ t ht ?_
    unfold notNil
    split
    · exact .none
    · exact .some hresult
  case int n =>
    cases op
    case neg =>
      exact .ofExcept_bind hs.tame fun o ho => hrest o s (.refl hs.tame)
        (.of_map ho fun _ => Arithmetic.fits_of_checked)
    all_goals exact .bind (.pure hs.tame (FitsIf.some trivial)) hrest
  case real x =>
    cases op
    case invert => exact .bind (.pure hs.tame FitsIf.none) hrest
    all_goals exact .bind (.pure hs.tame (FitsIf.some trivial)) hrest
  case bool => cases op <;> exact .bind (.pure hs.tame (FitsIf.some trivial)) hrest
  all_goals cases op <;> exact .bind (.pure hs.tame FitsIf.none) hrest

omit hm in
theorem positionOf (kind : SequenceKind) (length : Nat) (index : Value) :
    Halts P (fun _ => positionOf kind length index) s Anything := by
  unfold Classlet.positionOf
  split
  · exact .ofExcept hs.tame fun _ _ => trivial
  · exact .failWithType hs.tame _ _

theorem indexOperation {object index : Value} (hobject : object.Fits s) (hindex : index.Fits s) :
    Halts P (fun e => indexOperation e object index) s Value.FitsIn := by
  unfold Classlet.indexOperation
  cases object
  case str => exact .bind (positionOf hs _ _ _) fun _ t ht _ => .pure ht.tame trivial
  case list l =>
    refine .readMemory_bind (.bind (positionOf hs _ _ _) fun i t ht _ => .readMemory ht.tame ?_)
    cases hi : (t.memory.elements l)[i]? with
    | none => trivial
    | some v => exact ht.tame.memory.elements_fit (ht.fits hobject) (Array.mem_of_getElem? hi)
  case tuple vs =>
    refine .bind (positionOf hs _ _ _) fun i t ht _ => .pure ht.tame ?_
    cases hi : vs[i]? with
    | none => trivial
    | some v => exact ht.fits (AllFit.of_tuple hobject v (List.mem_of_getElem? hi))
  case «instance» j =>
    refine .operator_bind hs.tame rfl (.failWithType hs.tame _ _) fun f => ?_
    exact callMethod hm hs f hobject (.cons hindex .nil)
  all_goals exact .failWithType hs.tame _ _

omit hm in
theorem sliceBound (length omitted : Nat) (bound : Value) :
    Halts P (fun _ => sliceBound length omitted bound) s Anything := by
  unfold Classlet.sliceBound
  split
  · exact .pure hs.tame trivial
  · exact .ite (fun _ => .pure hs.tame trivial) fun _ => .pure hs.tame trivial
  · exact .failWithType hs.tame _ _

omit hm in
theorem sliceBounds (length : Nat) (start stop : Value) :
    Halts P (fun _ => sliceBounds length start stop) s Anything :=
  .bind (sliceBound hs _ _ _) fun _ _ ht _ => .bind (sliceBound (ht.ready hs) _ _ _)
    fun _ _ hu _ => .pure hu.tame trivial

omit hm in
theorem sliceOperation {object : Value} (hobject : object.Fits s) (start stop : Value) :
    Halts P (fun _ => sliceOperation object start stop) s Value.FitsIn := by
  unfold Classlet.sliceOperation
  cases object
  case str => exact .bind (sliceBounds hs _ _ _) fun _ _ ht _ => .pure ht.tame trivial
  case list l =>
    refine .readMemory_bind (.bind (sliceBounds hs _ _ _) fun bounds t ht _ => ?_)
    refine .readMemory_bind (.newList ht.tame fun v hv => ?_)
    obtain ⟨k, hk, rfl⟩ := Array.mem_extract_iff_getElem.mp hv
    exact ht.tame.memory.elements_fit (ht.fits hobject) (Array.getElem_mem _)
  case tuple vs =>
    refine .bind (sliceBounds hs _ _ _) fun _ _ ht _ => .pure ht.tame (AllFit.tuple fun v hv => ?_)
    exact ht.fits (AllFit.of_tuple hobject v (List.mem_of_mem_take (List.mem_of_mem_drop hv)))
  all_goals exact .failWithType hs.tame _ _

/-- An instance is put back into its container. -/
theorem setIndexOperation {object index : Value} (hobject : object.Fits s)
    (hindex : index.Fits s) {i : InstanceRef} (hi : (Value.instance i).Fits s) :
    Halts P (fun e => setIndexOperation e object index (.instance i)) s Anything := by
  unfold Classlet.setIndexOperation
  cases object
  case list l =>
    refine .readMemory_bind (.bind (positionOf hs _ _ _) fun k t ht _ => ?_)
    refine .bind (.copied ht.tame (v := .instance i) (ht.fits hi)) fun w u hu hw => ?_
    obtain ⟨j, rfl⟩ : ∃ j, w = .instance j := by
      have hclass := t.memory.sameClass_copyForBinding (.instance i)
      rw [← hw.2] at hclass
      cases w
      case «instance» j => exact ⟨j, rfl⟩
      all_goals cases hclass
    refine .remember hu.tame (isolated_closed.modifyList () l _)
      (hu.tame.memory.setElement l k hw.1) ?_ trivial
    simp [Memory.modifyList]
  case «instance» j =>
    refine .operator_bind hs.tame rfl (.failWithType hs.tame _ _) fun f => ?_
    exact .bind (callMethod hm hs f hobject (.cons hindex (.cons hi .nil))) fun _ _ ht _ =>
      .pure ht.tame trivial
  all_goals exact .failWithType hs.tame _ _

omit hs in
theorem elementsFrom {object : Value} : ∀ (count i : Nat) {s : State}, s.Ready P b →
    object.Fits s → Halts P (fun e => elementsFrom e object count i) s AllFit
  | 0, _, _, hs, _ => .pure hs.tame .nil
  | count + 1, i, _, hs, hobject =>
      .bind (indexOperation hm hs hobject trivial) fun _ _ ht hv =>
        .bind (elementsFrom count (i + 1) (ht.ready hs) (ht.fits hobject)) fun _ _ hu hvs =>
          .pure hu.tame (.cons (hu.fits hv) hvs)

omit hs hm in
theorem reserve (hs : s.Tame P) (count : Nat) :
    Halts P (fun _ => Classlet.reserve count) s fun _ _ => True := by
  unfold Classlet.reserve
  split
  · exact .pure hs trivial
  · exact .stop hs rfl

theorem elementsOf {v : Value} (hv : v.Fits s) : Halts P (fun e => elementsOf e v) s AllFit := by
  unfold Classlet.elementsOf
  cases v
  case str =>
    refine .pure hs.tame fun w hw => ?_
    obtain ⟨_, -, rfl⟩ := List.mem_map.mp hw
    trivial
  case list l => exact .readMemory hs.tame (hs.tame.allFit_parts hv)
  case tuple vs => exact .pure hs.tame (.of_tuple hv)
  case «instance» i =>
    refine .operator_bind hs.tame rfl (.failWithType hs.tame _ _) fun f => ?_
    exact .bind (length hm hs hv) fun n t ht _ => .bind (reserve ht.tame _) fun _ u hu _ =>
      elementsFrom hm _ _ ((ht.trans hu).ready hs) ((ht.trans hu).fits hv)
  all_goals exact .failWithType hs.tame _ _

end operators

end Halts

end Classlet
