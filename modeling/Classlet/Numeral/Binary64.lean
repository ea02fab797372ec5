import Classlet.Numeral.Power

/-! # Binary64 numbers as exact dyadic fractions

A real of the language is a 64-bit binary floating point number.  Printing, reading and the
remainder need its exact value, so this module takes the number apart and puts it together again
with natural number arithmetic only.

* `Binary64.ofFloat` reads a number as `NaN`, an infinity or `± mantissa * 2 ^ exponent`.
* `Binary64.nearest` is the number nearest to a given fraction; a fraction half way between two
  numbers goes to the one with the even mantissa.
* `Binary64.remainder` is the remainder of the truncated quotient.  It is exact: the remainder of
  two representable numbers is representable. -/

namespace Classlet

open Numeral (twoTo)

/-- What a 64-bit floating point word stands for. -/
inductive Binary64 where
  | nan
  | infinite (negative : Bool)
  /-- The number `± mantissa * 2 ^ exponent`. -/
  | finite (negative : Bool) (mantissa : Nat) (exponent : Int)
  deriving Repr, DecidableEq

namespace Binary64

/-- Decode the sign, exponent and fraction fields of a word. -/
def ofFloat (x : Float) : Binary64 :=
  let bits := x.toBits.toNat
  let negative := bits / twoTo 63 == 1
  let field : Nat := bits / twoTo 52 % twoTo 11
  let fraction := bits % twoTo 52
  if field == 2047 then
    if fraction == 0 then .infinite negative else .nan
  else if field == 0 then
    .finite negative fraction (-1074)
  else
    .finite negative (fraction + twoTo 52) ((field : Int) - 1075)

/-- The quotient `n / d` rounded to the nearest natural number, a half to the even neighbour. -/
def roundDiv (n d : Nat) : Nat :=
  let q := n / d
  let r := n % d
  if d < 2 * r || (2 * r == d && q % 2 == 1) then q + 1 else q

/-- `n * 2 ^ e` as a numerator and a denominator. -/
def scaled (n : Nat) (e : Int) : Nat × Nat :=
  if 0 ≤ e then (n * twoTo e.toNat, 1) else (n, twoTo (-e).toNat)

/-- The word for infinity; every word above it, sign bit aside, is a `NaN`. -/
def infinityBits : Nat := 2047 * twoTo 52

/-- The bits of the number nearest to the positive fraction `num / den`.  With the rounded mantissa
`m` and the exponent `e` the word is `(e + 1074) * 2 ^ 52 + m`, also for subnormal numbers and when
rounding carries into the next power of two. -/
def nearestBits (num den : Nat) : Nat :=
  let guess : Int := (num.log2 : Int) - den.log2 - 53
  let quotient (e : Int) : Nat :=
    if 0 ≤ e then num / (den * twoTo e.toNat) else num * twoTo (-e).toNat / den
  let e := max (-1074) (if quotient guess < twoTo 53 then guess else guess + 1)
  let m :=
    if 0 ≤ e then roundDiv num (den * twoTo e.toNat) else roundDiv (num * twoTo (-e).toNat) den
  min infinityBits ((e + 1074).toNat * twoTo 52 + m)

/-- The floating point number nearest to `± num / den`. -/
def nearest (negative : Bool) (num den : Nat) : Float :=
  let magnitude := if num == 0 then 0 else nearestBits num den
  Float.ofBits (.ofNat (if negative then twoTo 63 + magnitude else magnitude))

/-- The remainder of `x` divided by `y`, with the sign of `x`. -/
def remainder (x y : Float) : Float :=
  match ofFloat x, ofFloat y with
  | .finite negative m e, .finite _ m' e' =>
    if m' == 0 then 0.0 / 0.0
    else
      let low := min e e'
      let r := m * twoTo (e - low).toNat % (m' * twoTo (e' - low).toNat)
      let (num, den) := scaled r low
      nearest negative num den
  | .finite .., .infinite _ => x
  | _, _ => 0.0 / 0.0

/-- The integer a number is equal to, if it is one. -/
def integral? : Binary64 → Option Int
  | .finite negative m e =>
    let (num, den) := scaled m e
    if num % den == 0 then
      some (if negative then -(num / den : Nat) else (num / den : Nat))
    else none
  | _ => none

end Binary64

end Classlet
