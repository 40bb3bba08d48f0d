/-
The shortest decimal text of a double.

A double stands for every real number that rounds to it, an interval whose ends belong to it
when its significand is even.  Its shortest text is the decimal with the fewest digits in that
interval, and the one closest to the double if there are two.

* `Decimal` — digits and a power of ten;
* `Decimal.shortest` — the shortest decimal of a finite double other than zero;
* `Decimal.toText` — positional notation, never an exponent.
-/
import XPath.Number.Binary

namespace XPath.Number

/-- The decimal `digits * 10 ^ power / 10 ^ Decimal.scale`. -/
structure Decimal where
  digits : Nat
  power : Nat
  deriving DecidableEq, Repr

namespace Decimal

/-- One is written as this power of ten, so that every double has a whole number of at least
17 digits. -/
def scale : Nat := 340

/-- Decimal digits of a natural number, most significant first. -/
def digitsOf (n : Nat) : List Char := Nat.toDigits 10 n

/-- A double with its neighbourhood, in quarters of a grain: the points from `low` to `high`
round to `middle`, the two ends only if `closed`. -/
structure Neighbourhood where
  low : Nat
  middle : Nat
  high : Nat
  closed : Bool

/-- The neighbourhood of `significand * 2 ^ shift` grains.  Below a power of two the next double
is only half as far away as above it. -/
def Neighbourhood.of (significand shift : Nat) : Neighbourhood :=
  let below := if significand = twoTo 52 ∧ 0 < shift then 1 else 2
  { low := (4 * significand - below) * twoTo shift
    middle := 4 * significand * twoTo shift
    high := (4 * significand + 2) * twoTo shift
    closed := significand % 2 == 0 }

/-- Quarters of a grain in one. -/
def quarters : Nat := 4 * one

/-- Whether a decimal lies in a neighbourhood. -/
def Neighbourhood.contains (n : Neighbourhood) (d : Decimal) : Bool :=
  let point := d.digits * tenTo d.power * quarters
  let low := n.low * tenTo scale
  let high := n.high * tenTo scale
  if n.closed then low ≤ point && point ≤ high else low < point && point < high

/-- The decimal with `count` digits that lies in the neighbourhood, if one does: of the two that
enclose the middle the nearer, and the upper one if they are equally near. -/
def Neighbourhood.decimal? (n : Neighbourhood) (size count : Nat) : Option Decimal :=
  let power := size - count
  let unit := tenTo power * quarters
  let middle := n.middle * tenTo scale
  let lower : Decimal := ⟨middle / unit, power⟩
  let upper : Decimal := ⟨middle / unit + 1, power⟩
  match n.contains lower, n.contains upper with
  | true, true => some (if 2 * (middle % unit) < unit then lower else upper)
  | true, false => some lower
  | false, true => some upper
  | false, false => none

/-- The first of the counts from `count` on that has a decimal, within `fuel` tries. -/
def Neighbourhood.search (n : Neighbourhood) (size : Nat) : Nat → Nat → Decimal
  | 0, _ => ⟨n.middle * tenTo scale / quarters, 0⟩
  | fuel + 1, count => (n.decimal? size count).getD (n.search size fuel (count + 1))

/-- The shortest decimal that rounds to `significand * 2 ^ shift` grains; 17 digits always
suffice. -/
def shortest (significand shift : Nat) : Decimal :=
  let n := Neighbourhood.of significand shift
  n.search (digitsOf (n.middle * tenTo scale / quarters)).length 17 1

/-- Digits without the zeros at their end. -/
def trimZeros (digits : List Char) : List Char :=
  (digits.reverse.dropWhile (· == '0')).reverse

/-- Positional notation: zeros fill the places between the digits and the point, there is no
point without a digit after it, and always a digit before it. -/
def toText (d : Decimal) : String :=
  let digits := digitsOf d.digits
  if scale ≤ d.power then String.ofList (digits ++ List.replicate (d.power - scale) '0')
  else
    let places := scale - d.power
    let padded := List.replicate (places + 1 - digits.length) '0' ++ digits
    let whole := padded.take (padded.length - places)
    let fraction := trimZeros (padded.drop (padded.length - places))
    String.ofList (if fraction.isEmpty then whole else whole ++ '.' :: fraction)

end Decimal

end XPath.Number
