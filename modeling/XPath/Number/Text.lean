/-
Numbers as text.

The grammar of a number is an optional minus sign and decimal digits with at most one point
among or around them, between XML blanks; it has no exponent, no plus sign and no names for
special values.  `read` counts what stands in a text to see that there is nothing else, and leaves
the text to the wider grammar of floating-point numbers.  `write` gives the shortest text that
reads back.

* `Tally` — how many digits and points a text has;
* `read` — text to number;
* `write` — number to text, as the language prints it;
* `source` — number to text, as a literal in an expression is written.
-/
import XPath.Number.Decimal
import XPath.Number.Literal
import XPath.Text.Blank

namespace XPath.Number

/-- The digits and points of a text, counted in 32 bits: with the 2 ^ 32nd one a count is zero
again. -/
structure Tally where
  digits : Int32
  points : Int32
  deriving DecidableEq

namespace Tally

/-- Counts a character; anything but digits and points is refused. -/
def add (t : Tally) (c : Char) : Option Tally :=
  if c.isDigit then some { t with digits := t.digits + 1 }
  else if c == '.' then some { t with points := t.points + 1 }
  else none

/-- Counts the characters of a text. -/
def of? (s : List Char) : Option Tally := s.foldlM add ⟨0, 0⟩

/-- Whether there are digits, and at most one point. -/
def passes (t : Tally) : Bool := !(t.digits == 0 || t.points > 1)

end Tally

/-- A text without the minus sign at its front. -/
def dropMinus : List Char → List Char
  | '-' :: rest => rest
  | s => s

/-- The number that a text stands for, NaN if it is no number. -/
def read (s : String) : Float :=
  let body := Text.strip Text.isXmlBlank s.toList
  match Tally.of? (dropMinus body) with
  | none => nan
  | some tally => if tally.passes then (parse? body).getD nan else nan

/-- The shortest digits of a finite double, without a sign. -/
def digitText (significand shift : Nat) : String :=
  if significand = 0 then "0" else (Decimal.shortest significand shift).toText

/-- The text of a number as a value: the special values are spelled out and zero has no
sign. -/
def write (x : Float) : String :=
  match parts x with
  | .nan => "NaN"
  | .infinite negative => if negative then "-Infinity" else "Infinity"
  | .finite negative significand shift =>
    let digits := digitText significand shift
    if negative && significand != 0 then "-" ++ digits else digits

/-- The text of a number as it stands in an expression: zero keeps its sign and infinity is
cut short. -/
def source (x : Float) : String :=
  match parts x with
  | .nan => "NaN"
  | .infinite negative => if negative then "-inf" else "inf"
  | .finite negative significand shift =>
    let digits := digitText significand shift
    if negative then "-" ++ digits else digits

end XPath.Number
