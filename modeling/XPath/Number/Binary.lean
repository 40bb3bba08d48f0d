/-
Doubles taken apart and put together with whole numbers.

A finite double is a whole number of *grains*, where one grain is the least positive
double `2 ^ -1074`.  Everything that has to be exact about a number (rounding, remainders,
decimal text) is said about its grains and needs no floating-point reasoning.

Main definitions:
* `parts` — sign and grains of a double, or the fact that it has none;
* `nearestMagnitude` — the bit pattern of the double closest to a fraction of grains, ties
  to the even pattern, infinity past the largest double;
* `ofGrains`, `ofRatio`, `ofNat` — doubles closest to an exact value;
* `floor`, `ceiling`, `remainder` — the integer functions on doubles.
-/

namespace XPath.Number

def twoTo (k : Nat) : Nat := Nat.pow 2 k

def tenTo (k : Nat) : Nat := Nat.pow 10 k

/-- The number of grains in one. -/
def one : Nat := twoTo 1074

/-- The bit pattern of positive infinity. -/
def infinityBits : Nat := 2047 * twoTo 52

/-- What a double is made of. -/
inductive Parts where
  | nan
  /-- One of the two infinities. -/
  | infinite (negative : Bool)
  /-- `significand * 2 ^ shift` grains, with a sign that zero has too. -/
  | finite (negative : Bool) (significand shift : Nat)
  deriving DecidableEq, Repr

/-- Takes the bit pattern of a double without its sign apart. -/
def Parts.ofMagnitude (negative : Bool) (magnitude : Nat) : Parts :=
  if infinityBits < magnitude then .nan
  else if magnitude = infinityBits then .infinite negative
  else
    let biased := magnitude / twoTo 52
    let fraction := magnitude % twoTo 52
    if biased = 0 then .finite negative fraction 0
    else .finite negative (fraction + twoTo 52) (biased - 1)

/-- Takes a double apart. -/
def parts (x : Float) : Parts :=
  let bits := x.toBits.toNat
  .ofMagnitude (twoTo 63 ≤ bits) (bits % twoTo 63)

/-- The double with this sign and this bit pattern below the sign. -/
def ofMagnitude (negative : Bool) (magnitude : Nat) : Float :=
  Float.ofBits (UInt64.ofNat (if negative then twoTo 63 + magnitude else magnitude))

def nan : Float := ofMagnitude false (infinityBits + twoTo 51)

/-- Infinity, of either sign. -/
def infinity (negative : Bool) : Float := ofMagnitude negative infinityBits

/-- The bit pattern of the double closest to `numerator / denominator` grains.  The quotient is
cut to 53 bits, and what was cut decides the last one: more than half rounds up, exactly half
rounds to the even pattern.  A carry out of the significand lands in the exponent, which is
where it belongs, and past the largest double lies infinity. -/
def nearestMagnitude (numerator denominator : Nat) : Nat :=
  let shift := (numerator / denominator).log2 - 52
  let scale := denominator * twoTo shift
  let quotient := numerator / scale
  let rest := 2 * (numerator % scale)
  let up := scale < rest || (scale == rest && quotient % 2 == 1)
  min infinityBits (shift * twoTo 52 + quotient + if up then 1 else 0)

/-- The double closest to a fraction of grains. -/
def ofGrains (negative : Bool) (numerator denominator : Nat) : Float :=
  ofMagnitude negative (nearestMagnitude numerator denominator)

/-- The double closest to `numerator / denominator`. -/
def ofRatio (negative : Bool) (numerator denominator : Nat) : Float :=
  ofGrains negative (numerator * one) denominator

/-- The double closest to a natural number. -/
def ofNat (n : Nat) : Float := ofRatio false n 1

/-- Whether a double is neither an infinity nor NaN and has no fractional part. -/
def isInteger (x : Float) : Bool :=
  match parts x with
  | .finite _ significand shift => significand * twoTo shift % one == 0
  | _ => false

/-- The whole part of the magnitude of a finite double. -/
def wholePart (x : Float) : Nat :=
  match parts x with
  | .finite _ significand shift => significand * twoTo shift / one
  | _ => 0

/-- The largest integer that is not above `x`. -/
def floor (x : Float) : Float :=
  match parts x with
  | .finite negative significand shift =>
    let grains := significand * twoTo shift
    if grains % one = 0 then x
    else if negative then ofRatio true (grains / one + 1) 1
    else ofRatio false (grains / one) 1
  | _ => x

/-- The smallest integer that is not below `x`; what lies between minus one and zero becomes
negative zero. -/
def ceiling (x : Float) : Float :=
  match parts x with
  | .finite negative significand shift =>
    let grains := significand * twoTo shift
    if grains % one = 0 then x
    else if negative then ofRatio true (grains / one) 1
    else ofRatio false (grains / one + 1) 1
  | _ => x

/-- What is left of `x` after taking `y` away as often as it goes, with the sign of `x`.  The
result is a whole number of grains below both operands, so it is exact. -/
def remainder (x y : Float) : Float :=
  match parts x, parts y with
  | .finite negative m s, .finite _ n t =>
    if n = 0 then nan
    else ofGrains negative (m * twoTo s % (n * twoTo t)) 1
  | .finite _ _ _, .infinite _ => x
  | _, _ => nan

/-- Rounds to the next integer, a half going up: adds one half and takes the floor.  NaN, the
infinities and both zeros stay, and what lies from minus one half up to zero becomes negative
zero. -/
def round (x : Float) : Float :=
  if x.isNaN || x.isInf || x == 0 then x
  else if -0.5 ≤ x && x < 0 then -0.0
  else floor (x + 0.5)

end XPath.Number
