import Classlet.Numeral.Binary64

/-! # Reading numbers

`Numeral.readInt?` reads a signed decimal integer of the 64-bit range.  `Numeral.readReal?` reads a
decimal with an optional fraction and exponent, or one of the words for infinity and `NaN` in any
case, and rounds it correctly.  Both refuse blanks, and both look at each digit of a long text
once. -/

namespace Classlet.Numeral

def digitValue (c : Char) : Nat := c.toNat - '0'.toNat

/-- The number whose digits are those of `n` and then some more. -/
def extend : Nat → List Char → Nat
  | n, [] => n
  | n, c :: cs => extend (digitValue c + 10 * n) cs

/-- The number a list of decimal digits stands for, most significant digit first. -/
def ofDigits (ds : List Char) : Nat := extend 0 ds

/-- More digits never make a number smaller. -/
theorem le_extend (n : Nat) (ds : List Char) : n ≤ extend n ds := by
  induction ds generalizing n with
  | nil => exact Nat.le_refl n
  | cons c cs ih =>
    rw [extend]
    exact Nat.le_trans (by omega) (ih (digitValue c + 10 * n))

/-- The number whose digits are those of `n` and then some more, unless it is above a bound. -/
def extendUpTo? (bound : Nat) : Nat → List Char → Option Nat
  | n, [] => some n
  | n, c :: cs =>
    let next := digitValue c + 10 * n
    if bound < next then none else extendUpTo? bound next cs

/-- It is enough to compare with the bound digit by digit. -/
theorem extendUpTo?_eq (bound n : Nat) (ds : List Char) (h : n ≤ bound) :
    extendUpTo? bound n ds = if bound < extend n ds then none else some (extend n ds) := by
  induction ds generalizing n with
  | nil => simp [extendUpTo?, extend, Nat.not_lt.2 h]
  | cons c cs ih =>
    have grows := le_extend (digitValue c + 10 * n) cs
    rw [extendUpTo?, extend]
    split
    next above => simp [Nat.lt_of_lt_of_le above grows]
    next within => exact ih _ (Nat.not_lt.1 within)

/-- The number that a non-empty run of decimal digits and nothing else stands for, unless it is
above a bound. -/
def digitsUpTo? (bound : Nat) (cs : List Char) : Option Nat :=
  if !cs.isEmpty && cs.all Char.isDigit then extendUpTo? bound 0 cs else none

def InRange (n : Int) : Prop := -9223372036854775808 ≤ n ∧ n < 9223372036854775808

instance (n : Int) : Decidable (InRange n) := inferInstanceAs (Decidable (_ ∧ _))

/-- The 64-bit integer equal to `n`, unless `n` is out of range. -/
def int64? (n : Int) : Option Int64 := if InRange n then some (Int64.ofInt n) else none

/-- Split an optional sign off a text. -/
def splitSign : List Char → Bool × List Char
  | '-' :: cs => (true, cs)
  | '+' :: cs => (false, cs)
  | cs => (false, cs)

/-- The 64-bit integer that a sign and a run of decimal digits stand for. -/
def signedDigits? (negative : Bool) (ds : List Char) : Option Int64 :=
  match digitsUpTo? (twoTo 63) ds with
  | some n => int64? (if negative then -(n : Int) else n)
  | none => none

/-- Read a signed decimal integer of the 64-bit range. -/
def readInt? (text : String) : Option Int64 :=
  let (negative, ds) := splitSign text.toList
  signedDigits? negative ds

/-- The number nearest to `± coefficient * 10 ^ exponent`.  Beyond the powers of ten `310` and
`-400` the answer is infinite or zero whatever the digits are. -/
def ofDecimal (negative : Bool) (coefficient : Nat) (exponent : Int) : Float :=
  let order : Int := exponent + (Nat.toDigits 10 coefficient).length
  if coefficient == 0 || order < -400 then Binary64.nearest negative 0 1
  else if 310 < order then Binary64.nearest negative (twoTo 1024) 1
  else if 0 ≤ exponent then Binary64.nearest negative (coefficient * tenTo exponent.toNat) 1
  else Binary64.nearest negative coefficient (tenTo (-exponent).toNat)

/-- As many significant digits of a decimal as decide how it is rounded.  A point half way between
two floating point numbers has fewer, so of the digits behind these it only matters whether one
of them is not zero. -/
def decisiveDigits : Nat := 800

/-- The number nearest to `± whole.fraction * 10 ^ exponent`. -/
def ofParts (negative : Bool) (whole fraction : List Char) (exponent : Int) : Float :=
  let digits := (whole ++ fraction).dropWhile (· == '0')
  let decisive := digits.take decisiveDigits
  let rest := digits.drop decisiveDigits
  let exponent := exponent - fraction.length + rest.length
  if rest.all (· == '0') then ofDecimal negative (ofDigits decisive) exponent
  else ofDecimal negative (ofDigits (decisive ++ ['1'])) (exponent - 1)

/-- The exponent that digits stand for.  Once it has reached 65536 no further digit counts. -/
def exponentOfDigits (ds : List Char) : Nat :=
  ds.foldl (fun n c => if n < 65536 then digitValue c + 10 * n else n) 0

/-- Read the exponent part of a decimal; an empty text is the exponent zero. -/
def readExponent? : List Char → Option Int
  | [] => some 0
  | c :: cs =>
    if c == 'e' || c == 'E' then
      let (negative, ds) := splitSign cs
      if ds.isEmpty || !ds.all Char.isDigit then none
      else some (if negative then -(exponentOfDigits ds : Int) else exponentOfDigits ds)
    else none

/-- Read a decimal behind its sign: digits, of which some can stand behind a point, and an optional
exponent. -/
def readDecimal? (negative : Bool) (cs : List Char) : Option Float :=
  let whole := cs.takeWhile Char.isDigit
  let rest := cs.dropWhile Char.isDigit
  let (fraction, rest) := match rest with
    | '.' :: more => (more.takeWhile Char.isDigit, more.dropWhile Char.isDigit)
    | _ => ([], rest)
  if whole.isEmpty && fraction.isEmpty then none
  else (readExponent? rest).map fun e => ofParts negative whole fraction e

def readReal? (text : String) : Option Float :=
  let (negative, cs) := splitSign text.toList
  match String.ofList (cs.map Char.toLower) with
  | "inf" | "infinity" => some (Binary64.nearest negative (twoTo 1024) 1)
  | "nan" => some (0.0 / 0.0)
  | _ => readDecimal? negative cs

end Classlet.Numeral
