import Classlet.Interpreter
import Classlet.Proofs.Operation.Dispatch
import Mathlib.Data.Int.Bitwise

/-! # Integer arithmetic is exact or refused

The operators compute with the integers that truth values and integers of 64 bits stand for
(`Value.integer?`).  An integer that 64 bits can hold is the answer, any other one is refused
(`isExact_checked`).  So division fails for a divisor of zero and for `-2 ^ 63 / -1` only, and a
remainder always fits.  The bits of an integer are those of its two's complement, which go on
forever (`testBit_toInt`).

`integer_operations` puts the operators together.  Powers are exact too, for exponents of 32 bits
(`power_is_exact`). -/

namespace Classlet

open Eval Numeral

/-- The integer that a truth value or an integer stands for. -/
def Value.integer? : Value → Option Int
  | .bool b => some (if b then 1 else 0)
  | .int n => some n.toInt
  | _ => none

namespace Arithmetic

/-! ### What an answer should be -/

/-- An answer is an error of a kind, with a text. -/
def Refuses (kind : ErrorKind) (text : String) (a : Except Cause Value) : Prop :=
  ∃ c, a = .error c ∧ c.kind = kind ∧ c.message = text

def IsInteger (n : Int) (a : Except Cause Value) : Prop :=
  ∃ k : Int64, k.toInt = n ∧ a = .ok (.int k)

/-- An answer is the integer `n`, unless 64 bits cannot hold it. -/
def IsExact (n : Int) (a : Except Cause Value) : Prop :=
  if -2 ^ 63 ≤ n ∧ n < 2 ^ 63 then IsInteger n a else Refuses .value "integer overflow" a

/-- An answer is the quotient of `x` and `y`, truncated toward zero. -/
def IsQuotient (x y : Int) (a : Except Cause Value) : Prop :=
  if y = 0 then Refuses .zeroDivision "division by zero" a
  else if x = -2 ^ 63 ∧ y = -1 then Refuses .value "integer overflow" a
  else IsInteger (x.tdiv y) a

/-- An answer is the remainder of `x` divided by `y`, which has the sign of `x`. -/
def IsRemainder (x y : Int) (a : Except Cause Value) : Prop :=
  if y = 0 then Refuses .zeroDivision "division by zero" a
  else ∃ q m : Int, x = q * y + m ∧ m.natAbs < y.natAbs ∧ (m = 0 ∨ m.sign = x.sign) ∧ IsInteger m a

/-- An answer is that of a shift by `y` bits, if there can be one. -/
def IsShift (shift : Nat → Except Cause Value → Prop) (y : Int) (a : Except Cause Value) : Prop :=
  if 0 ≤ y ∧ y < 64 then shift y.toNat a
  else Refuses .value ("shift count out of range: " ++ Numeral.ofInt y) a

/-- An answer combines the bits of two operands.  It is a truth value if both operands are. -/
def IsBitwise (f : Bool → Bool → Bool) (l r : Value) (x y : Int) (a : Except Cause Value) : Prop :=
  ∃ v n, a = .ok v ∧ v.integer? = some n ∧ (∀ i, n.testBit i = f (x.testBit i) (y.testBit i)) ∧
    v.classRef = if l.classRef = .bool ∧ r.classRef = .bool then .bool else .int

/-- What an operator answers to operands `l` and `r` that stand for `x` and `y`. -/
def Computes (l r : Value) (x y : Int) : BinaryOp → Except Cause Value → Prop
  | .add => IsExact (x + y)
  | .sub => IsExact (x - y)
  | .mul => IsExact (x * y)
  | .div => IsQuotient x y
  | .mod => IsRemainder x y
  | .shl => IsShift (fun k => IsExact (x * 2 ^ k)) y
  -- the quotient of a shift to the right is rounded down
  | .shr => IsShift (fun k => IsInteger (x.fdiv (2 ^ k))) y
  | .bitAnd => IsBitwise and l r x y
  | .bitOr => IsBitwise or l r x y
  | .bitXor => IsBitwise xor l r x y
  | _ => fun _ => False

/-- The operators that integers answer with an integer, but for the power. -/
def integerOperators : List BinaryOp :=
  [.add, .sub, .mul, .div, .mod, .shl, .shr, .bitAnd, .bitOr, .bitXor]

/-! ### Integers of 64 bits -/

theorem inRange_toInt (k : Int64) : InRange k.toInt := ⟨k.le_toInt, k.toInt_lt⟩

theorem checked_of_inRange {n : Int} (h : InRange n) : IsInteger n (checked n) := by
  refine ⟨Int64.ofInt n, Int64.toInt_ofInt_of_le h.1 h.2, ?_⟩
  rw [checked, int64?, if_pos h]

theorem checked_of_not_inRange {n : Int} (h : ¬ InRange n) : checked n = .error .overflow := by
  rw [checked, int64?, if_neg h]

theorem refuses_overflow : Refuses .value "integer overflow" (.error .overflow) :=
  ⟨_, rfl, rfl, rfl⟩

theorem refuses_divisionByZero :
    Refuses .zeroDivision "division by zero" (.error .divisionByZero) :=
  ⟨_, rfl, rfl, rfl⟩

theorem isExact_checked (n : Int) : IsExact n (checked n) := by
  unfold IsExact
  split
  case isTrue h => exact checked_of_inRange h
  case isFalse h =>
      rw [checked_of_not_inRange h]
      exact refuses_overflow

/-! ### Division -/

section division
variable {x y : Int}

/-- A quotient is not greater than the dividend, so that only its sign can take it out of range. -/
theorem inRange_tdiv_iff (hx : InRange x) (hzero : y ≠ 0) :
    InRange (x.tdiv y) ↔ ¬ (x = -2 ^ 63 ∧ y = -1) := by
  have habs := Int.natAbs_tdiv x y
  unfold InRange at *
  rcases eq_or_ne y.natAbs 1 with hone | hone
  · rcases Int.natAbs_eq_iff.mp hone with rfl | rfl
    · rw [Nat.cast_one, Int.tdiv_one]
      omega
    · rw [Nat.cast_one, Int.tdiv_neg, Int.tdiv_one]
      omega
  · have hhalf : x.natAbs / y.natAbs ≤ x.natAbs / 2 := Nat.div_le_div_left (by omega) (by decide)
    have hquotient : (x.tdiv y).natAbs = x.natAbs / y.natAbs := habs
    omega

theorem isQuotient_div (hx : InRange x) :
    IsQuotient x y (if y = 0 then .error .divisionByZero else checked (x.tdiv y)) := by
  unfold IsQuotient
  split
  case isTrue hzero => exact refuses_divisionByZero
  case isFalse hzero =>
      have hrange := inRange_tdiv_iff hx hzero
      split
      case isTrue hmin =>
          rw [checked_of_not_inRange (fun h => hrange.mp h hmin)]
          exact refuses_overflow
      case isFalse hmin => exact checked_of_inRange (hrange.mpr hmin)

theorem toInt_remainder? {a b : Int64} (hzero : b.toInt ≠ 0) :
    ((remainder? a b).getD 0).toInt = a.toInt.tmod b.toInt := by
  have hb : b ≠ 0 := fun h => hzero (congrArg Int64.toInt h)
  unfold remainder?
  split
  case isTrue h =>
      obtain ⟨-, rfl⟩ := h.resolve_left hb
      exact (Int.tmod_eq_zero_of_dvd (Int.neg_dvd.mpr (one_dvd _))).symm
  case isFalse => exact Int64.toInt_mod a b

/-- A remainder is smaller than the divisor, and has the sign of the dividend. -/
theorem isRemainder_mod (a b : Int64) : IsRemainder a.toInt b.toInt
    (if b.toInt = 0 then .error .divisionByZero else .ok (.int ((remainder? a b).getD 0))) := by
  unfold IsRemainder
  split
  case isTrue hzero => exact refuses_divisionByZero
  case isFalse hzero =>
      generalize hx : a.toInt = x
      generalize hy : b.toInt = y at hzero
      have habs := Int.natAbs_tmod x y
      have hlt : (x.tmod y).natAbs < y.natAbs := by
        rw [habs]
        exact Nat.mod_lt _ (Int.natAbs_pos.mpr hzero)
      have hsign : x.tmod y = 0 ∨ (x.tmod y).sign = x.sign := by
        by_cases hdvd : y ∣ x
        · exact .inl (Int.tmod_eq_zero_of_dvd hdvd)
        · right
          rw [Int.sign_tmod, if_neg hdvd]
      have hrem : ((remainder? a b).getD 0).toInt = x.tmod y := by
        rw [toInt_remainder? (hy ▸ hzero), hx, hy]
      exact ⟨x.tdiv y, x.tmod y, (Int.tdiv_mul_add_tmod x y).symm, hlt, hsign, _, hrem, rfl⟩

end division

/-! ### Shifts -/

section shifts
variable {b : Int64}

theorem shiftAmount_cases (b : Int64) :
    (0 ≤ b.toInt ∧ b.toInt < 64 ∧ shiftAmount b = .ok b.toInt.toNat) ∨
      (¬ (0 ≤ b.toInt ∧ b.toInt < 64) ∧ shiftAmount b = .error (.shiftCount b)) := by
  unfold shiftAmount
  dsimp only
  split
  case isTrue h =>
      rw [Bool.and_eq_true, decide_eq_true_iff, decide_eq_true_iff] at h
      exact .inl ⟨h.1, h.2, rfl⟩
  case isFalse h =>
      rw [Bool.and_eq_true, decide_eq_true_iff, decide_eq_true_iff] at h
      exact .inr ⟨h, rfl⟩

/-- A shift is made if its count is right, and refused otherwise. -/
theorem isShift_of {shift : Nat → Except Cause Value → Prop} {f : Nat → Except Cause Value}
    (h : ∀ k < 64, shift k (f k)) : IsShift shift b.toInt (shiftAmount b >>= f) := by
  unfold IsShift
  rcases shiftAmount_cases b with ⟨h₀, h₁, hb⟩ | ⟨hnot, hb⟩
  · rw [if_pos ⟨h₀, h₁⟩, hb]
    exact h _ (by omega)
  · rw [if_neg hnot, hb]
    exact ⟨_, rfl, rfl, rfl⟩

theorem bind_some (x : Except Cause Nat) (f : Nat → Except Cause Value) :
    (x >>= fun k => f k >>= fun v => .ok (some v)) = (x >>= f).map some := by
  cases x <;> rfl

theorem toInt_wrappingShl (a : Int64) {k : Nat} (hk : k < 64) :
    (wrappingShl a k).toInt = (a.toInt * 2 ^ k).bmod (2 ^ 64) := by
  have htoInt : a.toInt = (a.toBitVec.toNat : Int).bmod (2 ^ 64) := BitVec.toInt_eq_toNat_bmod _
  rw [wrappingShl, Int64.toInt_ofBitVec, Nat.mod_eq_of_lt hk, BitVec.toInt_shiftLeft,
    Nat.shiftLeft_eq, htoInt, Int.bmod_mul_bmod, Nat.cast_mul, Nat.cast_pow]
  rfl

theorem toInt_signedShr (a : Int64) (k : Nat) : (signedShr a k).toInt = a.toInt / 2 ^ k := by
  rw [signedShr, Int64.toInt_ofBitVec, BitVec.toInt_sshiftRight, Int.shiftRight_eq_div_pow,
    Nat.cast_pow]
  rfl

/-- Nothing is lost at the top exactly if the product fits. -/
theorem toInt_wrappingShl_eq_iff (a : Int64) {k : Nat} (hk : k < 64) :
    (wrappingShl a k).toInt = a.toInt * 2 ^ k ↔ InRange (a.toInt * 2 ^ k) := by
  constructor
  · intro h
    rw [← h]
    exact inRange_toInt _
  · intro h
    rw [toInt_wrappingShl a hk]
    exact Int.bmod_eq_of_le h.1 h.2

/-- The shift back gives the operand exactly if nothing was lost: what is left of the bits is a
multiple of `2 ^ k`, also when some of them are gone. -/
theorem signedShr_wrappingShl_iff (a : Int64) {k : Nat} (hk : k < 64) :
    signedShr (wrappingShl a k) k = a ↔ InRange (a.toInt * 2 ^ k) := by
  have hpos : (2 : Int) ^ k ≠ 0 := pow_ne_zero k (by decide)
  have hmultiple : (2 : Int) ^ k ∣ (wrappingShl a k).toInt := by
    have hword : (2 : Int) ^ k ∣ ((2 ^ 64 : Nat) : Int) :=
      ⟨2 ^ (64 - k), by rw [← pow_add, Nat.add_sub_cancel' (Nat.le_of_lt hk)]; rfl⟩
    have hparts := Int.bmod_add_bdiv (a.toInt * 2 ^ k) (2 ^ 64)
    rw [toInt_wrappingShl a hk]
    exact (Int.dvd_add_left (hword.mul_right _)).mp (hparts ▸ Dvd.intro_left a.toInt rfl)
  rw [← Int64.toInt_inj, toInt_signedShr, ← toInt_wrappingShl_eq_iff a hk]
  constructor
  · intro h
    rw [← h, Int.ediv_mul_cancel hmultiple]
  · intro h
    rw [h, Int.mul_ediv_cancel _ hpos]

/-- A shift to the left is the product with a power of two, or refused. -/
theorem isExact_shiftLeft (a : Int64) {k : Nat} (hk : k < 64) :
    IsExact (a.toInt * 2 ^ k) (shiftLeft a k) := by
  have hback := signedShr_wrappingShl_iff a hk
  unfold IsExact shiftLeft
  split
  case isTrue hrange =>
      rw [if_pos (hback.mpr hrange)]
      exact ⟨_, (toInt_wrappingShl_eq_iff a hk).mpr hrange, rfl⟩
  case isFalse hrange =>
      rw [if_neg fun h => hrange (hback.mp h)]
      exact refuses_overflow

/-- A shift to the right never leaves the range. -/
theorem isInteger_signedShr (a : Int64) (k : Nat) :
    IsInteger (a.toInt.fdiv (2 ^ k)) (.ok (.int (signedShr a k))) := by
  refine ⟨_, ?_, rfl⟩
  rw [toInt_signedShr, Int.fdiv_eq_ediv_of_nonneg _ (Int.le_of_lt (Int.pow_pos (by decide)))]

end shifts

/-! ### Bits -/

/-- The bits of an integer of a width are those of its representation, and then its sign. -/
theorem testBit_toInt {w : Nat} (v : BitVec w) (i : Nat) :
    v.toInt.testBit i = if i < w then v.getLsbD i else v.msb := by
  cases hmsb : v.msb with
  | false =>
      rw [BitVec.toInt_eq_toNat_of_msb hmsb]
      show v.toNat.testBit i = _
      rw [BitVec.testBit_toNat]
      split
      case isTrue => rfl
      case isFalse hi => exact BitVec.getLsbD_of_ge v i (by omega)
  | true =>
      have hnot : v.toInt = Int.negSucc (~~~v).toNat := by
        have hlt := v.isLt
        rw [BitVec.toInt_eq_msb_cond, if_pos hmsb, BitVec.toNat_not, Int.negSucc_eq]
        omega
      rw [hnot]
      show (!(~~~v).toNat.testBit i) = _
      rw [BitVec.testBit_toNat, BitVec.getLsbD_not]
      split
      case isTrue hi => simp [hi]
      case isFalse hi => simp [hi]

theorem testBit_of_bits {f : Bool → Bool → Bool} {a b c : Int64}
    (h : ∀ i, i < 64 →
      c.toBitVec.getLsbD i = f (a.toBitVec.getLsbD i) (b.toBitVec.getLsbD i)) (i : Nat) :
    c.toInt.testBit i = f (a.toInt.testBit i) (b.toInt.testBit i) := by
  have hbits : ∀ k : Int64, k.toInt.testBit i =
      if i < 64 then k.toBitVec.getLsbD i else k.toBitVec.msb :=
    fun k => testBit_toInt k.toBitVec i
  rw [hbits, hbits, hbits]
  split
  case isTrue hi => exact h i hi
  case isFalse =>
      simp only [BitVec.msb_eq_getLsbD_last]
      exact h 63 (by decide)

theorem testBit_and (a b : Int64) (i : Nat) :
    (a &&& b).toInt.testBit i = (a.toInt.testBit i && b.toInt.testBit i) :=
  testBit_of_bits (f := and) (fun i _ => by rw [Int64.toBitVec_and, BitVec.getLsbD_and]) i

theorem testBit_or (a b : Int64) (i : Nat) :
    (a ||| b).toInt.testBit i = (a.toInt.testBit i || b.toInt.testBit i) :=
  testBit_of_bits (f := or) (fun i _ => by rw [Int64.toBitVec_or, BitVec.getLsbD_or]) i

theorem testBit_xor (a b : Int64) (i : Nat) :
    (a ^^^ b).toInt.testBit i = (a.toInt.testBit i ^^ b.toInt.testBit i) :=
  testBit_of_bits (f := xor) (fun i _ => by rw [Int64.toBitVec_xor, BitVec.getLsbD_xor]) i

/-! ### Operands -/

theorem toInt_ofBool (p : Bool) : (ofBool p).toInt = if p then 1 else 0 := by
  cases p <;> decide

theorem owns_of_integers {l r : Value} {x y : Int} (hl : l.integer? = some x)
    (hr : r.integer? = some y) : owns l r = true ∨ owns r l = true := by
  cases l <;> cases hl <;> cases r <;> cases hr
  case bool.refl.int.refl => exact .inr rfl
  all_goals exact .inl rfl

/-- Operands that are not both truth values are taken as integers. -/
theorem exists_integers {l r : Value} {x y : Int} (hl : l.integer? = some x)
    (hr : r.integer? = some y) : ∃ a b : Int64, a.toInt = x ∧ b.toInt = y ∧
      ((∃ p q, l = .bool p ∧ r = .bool q ∧ a = ofBool p ∧ b = ofBool q) ∨
        (¬ (l.classRef = .bool ∧ r.classRef = .bool) ∧ ∀ op, numeric op l r = onInts op a b)) := by
  cases l <;> cases hl <;> cases r <;> cases hr
  case bool.refl.bool.refl p q =>
      exact ⟨_, _, toInt_ofBool p, toInt_ofBool q, .inl ⟨p, q, rfl, rfl, rfl, rfl⟩⟩
  case bool.refl.int.refl p b =>
      exact ⟨_, b, toInt_ofBool p, rfl, .inr ⟨by simp [Value.classRef, ClassRef.bool, ClassRef.int],
        fun _ => rfl⟩⟩
  case int.refl.bool.refl a q =>
      exact ⟨a, _, rfl, toInt_ofBool q, .inr ⟨by simp [Value.classRef, ClassRef.bool, ClassRef.int],
        fun _ => rfl⟩⟩
  case int.refl.int.refl a b =>
      exact ⟨a, b, rfl, rfl, .inr ⟨by simp [Value.classRef, ClassRef.bool, ClassRef.int],
        fun _ => rfl⟩⟩

/-! ### The operators -/

/-- The operators that do not look at bits take truth values as integers. -/
theorem onInts_computes {op : BinaryOp} (hop : op ∈ integerOperators)
    (hbits : op ≠ .bitAnd ∧ op ≠ .bitOr ∧ op ≠ .bitXor) (a b : Int64) (l r : Value) :
    ∃ answer, onInts op a b = answer.map some ∧ Computes l r a.toInt b.toInt op answer := by
  cases op
  case add | sub | mul => exact ⟨_, rfl, isExact_checked _⟩
  case div =>
      refine ⟨_, ?_, isQuotient_div (inRange_toInt a)⟩
      rw [apply_ite (Except.map some)]
      rfl
  case mod =>
      refine ⟨_, ?_, isRemainder_mod a b⟩
      rw [apply_ite (Except.map some)]
      rfl
  case shl =>
      have hshift : IsShift (fun k => IsExact (a.toInt * 2 ^ k)) b.toInt
          (shiftAmount b >>= fun k => shiftLeft a k) :=
        isShift_of fun k hk => isExact_shiftLeft a hk
      exact ⟨_, bind_some _ _, hshift⟩
  case shr =>
      have hshift : IsShift (fun k => IsInteger (a.toInt.fdiv (2 ^ k))) b.toInt
          (shiftAmount b >>= fun k => .ok (.int (signedShr a k))) :=
        isShift_of fun k _ => isInteger_signedShr a k
      refine ⟨_, ?_, hshift⟩
      unfold onInts
      cases shiftAmount b <;> rfl
  case bitAnd | bitOr | bitXor => simp at hbits
  all_goals simp [integerOperators] at hop

/-- Truth values have one bit, and combine to a truth value. -/
theorem isBitwise_bool {f : Bool → Bool → Bool} {p q : Bool} {c : Int64}
    (hc : c = ofBool (f p q))
    (hbits : ∀ i, c.toInt.testBit i =
      f ((ofBool p).toInt.testBit i) ((ofBool q).toInt.testBit i)) :
    IsBitwise f (.bool p) (.bool q) (ofBool p).toInt (ofBool q).toInt (.ok (.bool (f p q))) := by
  refine ⟨_, c.toInt, rfl, ?_, hbits, rfl⟩
  rw [hc, toInt_ofBool]
  rfl

theorem isBitwise_int {f : Bool → Bool → Bool} {l r : Value} {a b c : Int64}
    (hint : ¬ (l.classRef = .bool ∧ r.classRef = .bool))
    (hbits : ∀ i, c.toInt.testBit i = f (a.toInt.testBit i) (b.toInt.testBit i)) :
    IsBitwise f l r a.toInt b.toInt (.ok (.int c)) := by
  refine ⟨_, c.toInt, rfl, rfl, hbits, ?_⟩
  rw [if_neg hint]
  rfl

/-- **Integer arithmetic is exact or refused**, and it makes no difference which operand answers. -/
theorem integer_operations {op : BinaryOp} (hop : op ∈ integerOperators) {l r : Value} {x y : Int}
    (hl : l.integer? = some x) (hr : r.integer? = some y) :
    ∃ answer, Computes l r x y op answer ∧ (owns l r = true ∨ owns r l = true) ∧ ∀ e : Engine,
      binaryOperation e op l r = ofExcept answer ∧
      (owns l r = true → probe e op l r = ofExcept (answer.map some)) ∧
      (owns r l = true → probeReversed e op l r = ofExcept (answer.map some)) := by
  have howns := owns_of_integers hl hr
  suffices h : ∃ answer, numeric op l r = answer.map some ∧ Computes l r x y op answer by
    obtain ⟨answer, hnumeric, hcomputes⟩ := h
    refine ⟨answer, hcomputes, howns, fun e => ⟨?_, fun h => ?_, fun h => ?_⟩⟩
    · exact binaryOperation_of_owns e op howns hnumeric
    · rw [probe_of_owns e op h, hnumeric]
    · rw [probeReversed_of_owns e op h, hnumeric]
  obtain ⟨a, b, rfl, rfl, ⟨p, q, rfl, rfl, rfl, rfl⟩ | ⟨hint, hnumeric⟩⟩ := exists_integers hl hr
  · cases op
    case bitAnd =>
        exact ⟨_, rfl, isBitwise_bool (by cases p <;> cases q <;> rfl) (testBit_and _ _)⟩
    case bitOr =>
        exact ⟨_, rfl, isBitwise_bool (by cases p <;> cases q <;> rfl) (testBit_or _ _)⟩
    case bitXor =>
        exact ⟨_, rfl, isBitwise_bool (by cases p <;> cases q <;> rfl) (testBit_xor _ _)⟩
    all_goals exact onInts_computes hop (by simp) _ _ _ _
  · rw [hnumeric]
    cases op
    case bitAnd => exact ⟨_, rfl, isBitwise_int hint (testBit_and a b)⟩
    case bitOr => exact ⟨_, rfl, isBitwise_int hint (testBit_or a b)⟩
    case bitXor => exact ⟨_, rfl, isBitwise_int hint (testBit_xor a b)⟩
    all_goals exact onInts_computes hop (by simp) _ _ _ _

/-- The least integer is subtracted from a truth value, which the integer answers. -/
theorem integer_operations_true_minus_least :
    BinaryOp.sub ∈ integerOperators ∧ (Value.bool true).integer? = some 1 ∧
      (Value.int Int64.minValue).integer? = some (-2 ^ 63) ∧
      ∃ answer, Refuses .value "integer overflow" answer ∧ ∀ e : Engine,
        binaryOperation e .sub (.bool true) (.int Int64.minValue) = ofExcept answer ∧
        probeReversed e .sub (.bool true) (.int Int64.minValue) = ofExcept (answer.map some) := by
  have hop : BinaryOp.sub ∈ integerOperators := by decide
  have hleast : (Value.int Int64.minValue).integer? = some (-2 ^ 63) := by decide
  obtain ⟨answer, hcomputes, -, hanswers⟩ := integer_operations (l := .bool true) hop rfl hleast
  refine ⟨hop, rfl, hleast, answer, hcomputes, fun e => ⟨(hanswers e).1, (hanswers e).2.2 rfl⟩⟩

/-! ### Powers -/

section powers
variable {x : Int} {n : Nat}

/-- Only small bases have large powers within 64 bits. -/
theorem not_inRange_pow (hx : 2 ≤ x.natAbs) (hn : 64 ≤ n) : ¬ InRange (x ^ n) := by
  have habs : (x ^ n).natAbs = x.natAbs ^ n := Int.natAbs_pow x n
  have hbase : 2 ^ 64 ≤ x.natAbs ^ n :=
    calc 2 ^ 64 ≤ 2 ^ n := Nat.pow_le_pow_right (by decide) hn
      _ ≤ x.natAbs ^ n := Nat.pow_le_pow_left hx n
  unfold InRange
  omega

/-- The powers of `-1`, `0` and `1` depend on whether the exponent is zero, even or odd. -/
theorem pow_of_small (hx : x.natAbs ≤ 1) :
    (if n = 0 then 1 else if n % 2 = 0 then x * x else x) = x ^ n := by
  have hcases : x = 0 ∨ x = 1 ∨ x = -1 := by omega
  split
  case isTrue hzero => rw [hzero, Int.pow_zero]
  case isFalse hzero =>
      obtain rfl | rfl | rfl := hcases
      · rw [Int.zero_pow hzero, Int.mul_zero, ite_self]
      · rw [Int.one_pow, Int.mul_one, ite_self]
      · split
        case isTrue heven => exact (Even.neg_one_pow (Nat.even_iff.mpr heven)).symm
        case isFalse hodd =>
            exact (Odd.neg_one_pow (Nat.odd_iff.mpr (Nat.mod_two_ne_zero.mp hodd))).symm

theorem inRange_pow_of_small (hx : x.natAbs ≤ 1) (n : Nat) : InRange (x ^ n) := by
  have habs : (x ^ n).natAbs ≤ 1 :=
    calc (x ^ n).natAbs = x.natAbs ^ n := Int.natAbs_pow x n
      _ ≤ 1 ^ n := Nat.pow_le_pow_left hx n
      _ = 1 := Nat.one_pow n
  unfold InRange
  omega

/-- A power is exact, unless the exponent has more than 32 bits. -/
theorem isExact_power (hn : n < 2 ^ 32) : IsExact (x ^ n) (power x n) := by
  have hbits : ¬ twoTo 32 ≤ n := Nat.not_le.mpr hn
  unfold power
  rw [if_neg hbits]
  split
  case isTrue hsmall =>
      rw [pow_of_small hsmall]
      exact isExact_checked _
  case isFalse hlarge =>
      split
      case isTrue hexponent =>
          have hrange : ¬ (-2 ^ 63 ≤ x ^ n ∧ x ^ n < 2 ^ 63) :=
            not_inRange_pow (by omega) hexponent
          unfold IsExact
          rw [if_neg hrange]
          exact refuses_overflow
      case isFalse => exact isExact_checked _

/-- Of the powers that are refused for their exponent, those of `-1`, `0` and `1` would fit. -/
theorem inRange_pow_iff (hn : 2 ^ 32 ≤ n) : InRange (x ^ n) ↔ x.natAbs ≤ 1 := by
  constructor
  · intro hrange
    by_contra hlarge
    exact not_inRange_pow (by omega) (by omega) hrange
  · intro hsmall
    exact inRange_pow_of_small hsmall n

theorem power_of_bits (hn : 2 ^ 32 ≤ n) : power x n = .error .overflow := by
  have hbits : twoTo 32 ≤ n := hn
  unfold power
  rw [if_pos hbits]

end powers

/-- **Powers are exact**, but for exponents of more than 32 bits: these are refused whatever the
base, though the powers of `-1`, `0` and `1` fit. -/
theorem power_is_exact {x y : Int64} (hy : 0 ≤ y.toInt) :
    ∃ answer, (∀ e : Engine, binaryOperation e .pow (.int x) (.int y) = ofExcept answer) ∧
      if y.toInt < 2 ^ 32 then IsExact (x.toInt ^ y.toInt.toNat) answer
      else Refuses .value "integer overflow" answer ∧
        ((-2 ^ 63 ≤ x.toInt ^ y.toInt.toNat ∧ x.toInt ^ y.toInt.toNat < 2 ^ 63) ↔
          x.toInt.natAbs ≤ 1) := by
  have hnumeric : numeric .pow (.int x) (.int y) = (power x.toInt y.toInt.toNat).map some :=
    if_pos hy
  refine ⟨power x.toInt y.toInt.toNat, fun e => binaryOperation_of_owns e .pow (.inl rfl) hnumeric,
    ?_⟩
  split
  case isTrue hbits => exact isExact_power (by omega)
  case isFalse hbits =>
      have hlarge : 2 ^ 32 ≤ y.toInt.toNat := by omega
      rw [power_of_bits hlarge]
      exact ⟨refuses_overflow, inRange_pow_iff hlarge⟩

/-- The least integer is a power. -/
theorem power_is_exact_least :
    0 ≤ (63 : Int64).toInt ∧ ∃ answer, IsInteger (-2 ^ 63) answer ∧
      ∀ e : Engine, binaryOperation e .pow (.int (-2)) (.int 63) = ofExcept answer := by
  have hexponent : 0 ≤ (63 : Int64).toInt := by decide
  obtain ⟨answer, hanswers, hexact⟩ := power_is_exact (x := -2) hexponent
  exact ⟨hexponent, answer, hexact, hanswers⟩

/-- A power of `1` is refused for its exponent, although it is `1`. -/
theorem power_of_one_is_refused :
    (1 : Int) ^ (4294967296 : Int64).toInt.toNat = 1 ∧
      (binaryOperation (engine {} (fun _ => .unknown) 1) .pow (.int 1) (.int 4294967296)
        .initial).1.cause? = some .overflow :=
  ⟨Int.one_pow, rfl⟩

end Arithmetic

end Classlet
