import Classlet.Numeral.Format
import Classlet.Numeral.Read

/-! # Digits of integers

The digits that are written for a natural number are read as that number (`signedDigits_digits`),
and digits without a sign are never read as a negative one (`toInt_nonneg_of_digits`).  The text of
an integer is read as that integer (`readInt_ofInt`). -/

namespace Classlet.Numeral

theorem extend_eq_ofDigitChars (n : Nat) (ds : List Char) :
    extend n ds = Nat.ofDigitChars 10 ds n := by
  induction ds generalizing n with
  | nil => rfl
  | cons c cs ih => rw [extend, Nat.ofDigitChars_cons, ih, digitValue, Nat.add_comm]

theorem digits_ne_nil (n : Nat) : digits n ≠ [] := Nat.toDigits_ne_nil

theorem isDigit_of_mem_digits {n : Nat} {c : Char} (h : c ∈ digits n) : c.isDigit = true :=
  Nat.isDigit_of_mem_toDigits (by decide) (by decide) h

theorem extend_digits (n : Nat) : extend 0 (digits n) = n := by
  rw [extend_eq_ofDigitChars, digits, Nat.ofDigitChars_ten_toDigits]

theorem digitsUpTo_digits {bound n : Nat} (h : n ≤ bound) :
    digitsUpTo? bound (digits n) = some n := by
  have hdigits : (!(digits n).isEmpty && (digits n).all Char.isDigit) = true := by
    rw [Bool.and_eq_true, Bool.not_eq_true', List.isEmpty_eq_false_iff, List.all_eq_true]
    exact ⟨digits_ne_nil n, fun _ => isDigit_of_mem_digits⟩
  rw [digitsUpTo?, if_pos hdigits, extendUpTo?_eq bound 0 _ (Nat.zero_le bound), extend_digits,
    if_neg (Nat.not_lt.mpr h)]

/-- What is written for the absolute value of a number of the range is read, behind a sign, as that
number. -/
theorem signedDigits_natAbs (negative : Bool) {n : Nat}
    (h : InRange (if negative then -(n : Int) else n)) :
    signedDigits? negative (digits n) =
      some (Int64.ofInt (if negative then -(n : Int) else n)) := by
  have hbound : n ≤ twoTo 63 := by
    rw [show twoTo 63 = 9223372036854775808 from rfl]
    obtain ⟨hlow, hhigh⟩ := h
    cases negative with
    | false =>
        rw [if_neg (by decide)] at hhigh
        omega
    | true =>
        rw [if_pos rfl] at hlow
        omega
  rw [signedDigits?, digitsUpTo_digits hbound]
  exact if_pos h

/-- What is written for a number of the range is read as that number. -/
theorem signedDigits_digits {n : Nat} (h : InRange n) :
    signedDigits? false (digits n) = some (Int64.ofInt n) :=
  signedDigits_natAbs false h

theorem splitSign_digits (n : Nat) : splitSign (digits n) = (false, digits n) := by
  have hdigits : ∀ c ∈ digits n, c.isDigit = true := fun _ => isDigit_of_mem_digits
  unfold splitSign
  split
  case h_1 hds =>
    rw [hds] at hdigits
    exact absurd (hdigits '-' List.mem_cons_self) (by decide)
  case h_2 hds =>
    rw [hds] at hdigits
    exact absurd (hdigits '+' List.mem_cons_self) (by decide)
  case h_3 => rfl

/-- The text of an integer is read as that integer, up to both ends of the range. -/
theorem readInt_ofInt (n : Int64) : readInt? (ofInt n.toInt) = some n := by
  have hrange : InRange n.toInt := ⟨n.le_toInt, n.toInt_lt⟩
  by_cases hneg : n.toInt < 0
  · have hvalue : -(n.toInt.natAbs : Int) = n.toInt := by omega
    have hread := signedDigits_natAbs true (n := n.toInt.natAbs) (by rwa [if_pos rfl, hvalue])
    rw [if_pos rfl, hvalue, Int64.ofInt_toInt] at hread
    rw [readInt?, ofInt, if_pos hneg, String.toList_ofList]
    exact hread
  · have hvalue : (n.toInt.natAbs : Int) = n.toInt := by omega
    rw [readInt?, ofInt, if_neg hneg, String.toList_ofList, splitSign_digits]
    dsimp only
    rw [signedDigits_digits (by rwa [hvalue]), hvalue, Int64.ofInt_toInt]

theorem mem_ofInt {n : Int} {c : Char} (h : c ∈ (ofInt n).toList) : c = '-' ∨ c.isDigit = true := by
  unfold ofInt at h
  split at h
  · rw [String.toList_ofList] at h
    exact (List.mem_cons.mp h).imp id isDigit_of_mem_digits
  · rw [String.toList_ofList] at h
    exact .inr (isDigit_of_mem_digits h)

/-- Digits without a sign are no negative number. -/
theorem toInt_nonneg_of_digits {ds : List Char} {n : Int64}
    (h : signedDigits? false ds = some n) : 0 ≤ n.toInt := by
  unfold signedDigits? at h
  split at h
  case h_1 m _ =>
    simp only [Bool.false_eq_true, if_false, int64?] at h
    split at h <;> cases h
    case isTrue hrange =>
      rw [Int64.toInt_ofInt_of_le hrange.1 hrange.2]
      exact Int.natCast_nonneg m
  case h_2 => cases h

end Classlet.Numeral
