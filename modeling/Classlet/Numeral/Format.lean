import Classlet.Numeral.Shortest

/-! # The texts of reals

Three formats write a real.  All of them take the shortest digits that read back.

* `Numeral.display` is how a value shows itself: positional, with `.0` behind an integral number
  below `10 ^ 16`.
* `Numeral.literal` is how a literal is written in source text: an integral number has all its
  digits and `.0`.
* `Numeral.inspect` is how a token shows its literal: always with a point, and with an exponent
  outside of `10 ^ -4 … 10 ^ 16`. -/

namespace Classlet.Numeral

/-- The decimal digits of a natural number. -/
def digits (n : Nat) : List Char := Nat.toDigits 10 n

/-- The decimal text of an integer. -/
def ofInt (n : Int) : String :=
  if n < 0 then String.ofList ('-' :: digits n.natAbs) else String.ofList (digits n.natAbs)

/-- The digits of `d` with a point where it belongs, and no exponent. -/
def positional (d : Decimal) : List Char :=
  let ds := digits d.coefficient
  if 0 ≤ d.exponent then ds ++ List.replicate d.exponent.toNat '0'
  else
    let places := (-d.exponent).toNat
    if places < ds.length then ds.take (ds.length - places) ++ '.' :: ds.drop (ds.length - places)
    else '0' :: '.' :: List.replicate (places - ds.length) '0' ++ ds

/-- The digits of `d` with a point behind the first one and an exponent. -/
def withExponent (d : Decimal) : List Char :=
  match digits d.coefficient with
  | [] => []
  | c :: more =>
    let e : Int := d.exponent + more.length
    c :: ((if more.isEmpty then [] else '.' :: more) ++ 'e' :: (ofInt e).toList)

def signed (negative : Bool) (cs : List Char) : String :=
  String.ofList (if negative then '-' :: cs else cs)

/-- Whether `m * 2 ^ e` is a whole number, and then which. -/
def whole? (m : Nat) (e : Int) : Option Nat :=
  let (num, den) := Binary64.scaled m e
  if num % den == 0 then some (num / den) else none

/-- How a real value shows itself. -/
def display (x : Float) : String :=
  match Binary64.ofFloat x with
  | .nan => "NaN"
  | .infinite negative => signed negative "inf".toList
  | .finite negative m e =>
    match whole? m e with
    | some n =>
      if n < tenTo 16 then signed negative (digits n ++ ['.', '0'])
      else signed negative (positional (Decimal.shortest m e))
    | none => signed negative (positional (Decimal.shortest m e))

/-- How a real literal is written in source text. -/
def literal (x : Float) : String :=
  match Binary64.ofFloat x with
  | .nan => "NaN"
  | .infinite negative => signed negative "inf".toList
  | .finite negative m e =>
    match whole? m e with
    | some n => signed negative (digits n ++ ['.', '0'])
    | none => signed negative (positional (Decimal.shortest m e))

/-- How a token shows a real literal. -/
def inspect (x : Float) : String :=
  match Binary64.ofFloat x with
  | .nan => "NaN"
  | .infinite negative => signed negative "inf".toList
  | .finite negative m e =>
    let d := Decimal.shortest m e
    let leading : Int := d.exponent + (digits d.coefficient).length - 1
    if m != 0 && (leading < -4 || 16 ≤ leading) then signed negative (withExponent d)
    else
      let cs := positional d
      signed negative (if cs.contains '.' then cs else cs ++ ['.', '0'])

end Classlet.Numeral
