/-
Floating-point numbers as text.

The grammar of floating-point numbers is wider than that of numbers in the language: a sign of
either kind, digits with at most one point among or around them and maybe an exponent behind them,
or a name for infinity or NaN, in upper and lower case.  A number is read as the double that is
closest to it.

* `Literal`, `Literal.split?` — a sign and the digits on both sides of a point;
* `Literal.value`, `Literal.scaled` — the double closest to a literal, without an exponent and with
  one;
* `parse?` — text to number.
-/
import XPath.Number.Binary

namespace XPath.Number

/-- Decimal digits on both sides of a point, and a sign. -/
structure Literal where
  negative : Bool
  whole : List Char
  fraction : List Char
  deriving DecidableEq, Repr

namespace Literal

/-- Takes digits with at most one point off the front of a text.  There must be at least one digit.
What is behind them is left. -/
def split? (negative : Bool) (s : List Char) : Option (Literal × List Char) :=
  let whole := s.takeWhile Char.isDigit
  let (fraction, rest) := match s.dropWhile Char.isDigit with
    | '.' :: rest => (rest.takeWhile Char.isDigit, rest.dropWhile Char.isDigit)
    | rest => ([], rest)
  if whole.isEmpty && fraction.isEmpty then none else some (⟨negative, whole, fraction⟩, rest)

/-- The natural number that decimal digits write. -/
def digitsValue (digits : List Char) : Nat :=
  digits.foldl (fun n c => 10 * n + (c.toNat - '0'.toNat)) 0

/-- The double closest to a literal. -/
def value (l : Literal) : Float :=
  ofRatio l.negative (digitsValue (l.whole ++ l.fraction)) (tenTo l.fraction.length)

/-- The double closest to a literal times a power of ten. -/
def scaled (l : Literal) (exponent : Int) : Float :=
  ofRatio l.negative (digitsValue (l.whole ++ l.fraction) * tenTo exponent.toNat)
    (tenTo (l.fraction.length + (-exponent).toNat))

end Literal

/-- Reads the digits of an exponent behind its sign. -/
def exponent? : List Char → Option Int
  | '-' :: digits => (magnitude? digits).map fun n => -n
  | '+' :: digits => magnitude? digits
  | digits => magnitude? digits
where
  magnitude? (digits : List Char) : Option Int :=
    if digits.isEmpty || !digits.all Char.isDigit then none
    else some (Literal.digitsValue digits)

/-- The double that a name stands for. -/
def named? (negative : Bool) (s : List Char) : Option Float :=
  match String.ofList (s.map Char.toLower) with
  | "inf" | "infinity" => some (infinity negative)
  | "nan" => some nan
  | _ => none

/-- Reads a floating-point number behind its sign. -/
def parseUnsigned? (negative : Bool) (s : List Char) : Option Float :=
  match Literal.split? negative s with
  | some (l, []) => some l.value
  | some (l, c :: rest) => if c == 'e' || c == 'E' then (exponent? rest).map l.scaled else none
  | none => named? negative s

/-- Reads a floating-point number. -/
def parse? : List Char → Option Float
  | '-' :: s => parseUnsigned? true s
  | '+' :: s => parseUnsigned? false s
  | s => parseUnsigned? false s

end XPath.Number
