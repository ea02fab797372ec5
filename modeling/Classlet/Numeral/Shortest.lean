import Classlet.Numeral.Binary64

/-! # The shortest decimal that reads back

`Decimal.shortest m e` is the decimal with the fewest digits that lies in the interval of numbers
rounding to `m * 2 ^ e`; of two such decimals it is the nearer one, and the larger one of two
that are equally near.  The interval reaches half way to each neighbour and holds its ends
exactly when `m` is even, because a tie is read as the even neighbour.

The search tries the two neighbours of the number on the grids of 1, 2, …, 17 digits; seventeen
digits always suffice. -/

namespace Classlet

/-- The decimal number `coefficient * 10 ^ exponent`. -/
structure Decimal where
  coefficient : Nat
  exponent : Int
  deriving Repr, DecidableEq

namespace Decimal

/-- Drop the trailing zeros of a coefficient of at most `fuel` digits. -/
def stripZeros : Nat → Decimal → Decimal
  | 0, d => d
  | fuel + 1, d =>
    if d.coefficient != 0 && d.coefficient % 10 == 0 then
      stripZeros fuel ⟨d.coefficient / 10, d.exponent + 1⟩
    else d

/-- The comparison of `c * 10 ^ k` with the fraction `num / den`. -/
def compareAt (c : Nat) (k : Int) (num den : Nat) : Ordering :=
  if 0 ≤ k then compare (c * Numeral.tenTo k.toNat * den) num
  else compare (c * den) (num * Numeral.tenTo (-k).toNat)

/-- The whole part of `num / den` in units of `10 ^ k`. -/
def floorAt (k : Int) (num den : Nat) : Nat :=
  if 0 ≤ k then num / (den * Numeral.tenTo k.toNat) else num * Numeral.tenTo (-k).toNat / den

/-- The exponent of the first digit of `m * 2 ^ e`, for a positive `m`. -/
def leadingExponent (m : Nat) (e : Int) : Int :=
  let low := ((m.log2 : Int) + e) * 30103 / 100000
  let (num, den) := Binary64.scaled m e
  if compareAt 1 (low + 1) num den == .gt then low else low + 1

/-- The interval of the numbers that are read as `m * 2 ^ e`, in units of `2 ^ (e - 2)`.  Below a
power of two the neighbour is only half as far away. -/
def interval (m : Nat) (e : Int) : Nat × Nat :=
  (if m == Numeral.twoTo 52 && -1074 < e then 4 * m - 1 else 4 * m - 2, 4 * m + 2)

/-- The decimal on the grid of `10 ^ k` that reads back as `m * 2 ^ e`, if there is one. -/
def onGrid? (m : Nat) (e : Int) (k : Int) : Option Decimal :=
  let (num, den) := Binary64.scaled m e
  let c := floorAt k num den
  let (low, high) := interval m e
  let (lowNum, lowDen) := Binary64.scaled low (e - 2)
  let (highNum, highDen) := Binary64.scaled high (e - 2)
  let closed := m % 2 == 0
  let belowFits := match compareAt c k lowNum lowDen with
    | .gt => true
    | .eq => closed
    | .lt => false
  let aboveFits := match compareAt (c + 1) k highNum highDen with
    | .lt => true
    | .eq => closed
    | .gt => false
  if belowFits && aboveFits then
    -- twice the number against the sum of the two candidates
    if compareAt (2 * c + 1) k (2 * num) den == .gt then some ⟨c, k⟩ else some ⟨c + 1, k⟩
  else if belowFits then some ⟨c, k⟩
  else if aboveFits then some ⟨c + 1, k⟩
  else none

/-- The shortest decimal that reads back as `m * 2 ^ e`, without trailing zeros. -/
def shortest (m : Nat) (e : Int) : Decimal :=
  if m == 0 then ⟨0, 0⟩
  else
    let top := leadingExponent m e
    let grid := (List.range 17).findSome? fun (n : Nat) => onGrid? m e (top - n)
    stripZeros 18 (grid.getD ⟨0, 0⟩)

end Decimal

end Classlet
