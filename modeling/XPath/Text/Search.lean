/-
Finding and cutting texts.

All of it is about characters, that is Unicode code points, and works on lists of them.

* `cutAt?` — what comes before and after the first occurrence of a text;
* `startsWith`, `contains`, `before`, `after` — the string functions built on it;
* `between` — the characters at the positions between two numbers;
* `translate` — characters replaced one by one or left out.
-/
import XPath.Number.Binary

namespace XPath.Text

/-- What remains of a list after a leading part. -/
def dropPrefix? : List Char → List Char → Option (List Char)
  | [], s => some s
  | _ :: _, [] => none
  | c :: t, d :: s => if c = d then dropPrefix? t s else none

/-- What comes before and after the first occurrence of a pattern. -/
def cutAt? (pattern : List Char) : List Char → Option (List Char × List Char)
  | [] => (dropPrefix? pattern []).map fun rest => ([], rest)
  | c :: s =>
    match dropPrefix? pattern (c :: s) with
    | some rest => some ([], rest)
    | none => (cutAt? pattern s).map fun (first, rest) => (c :: first, rest)

/-- Whether a text begins with a pattern. -/
def startsWith (s pattern : String) : Bool := (dropPrefix? pattern.toList s.toList).isSome

/-- Whether a pattern occurs in a text. -/
def contains (s pattern : String) : Bool := (cutAt? pattern.toList s.toList).isSome

/-- The text before the first occurrence of a pattern, empty if there is none. -/
def before (s pattern : String) : String :=
  String.ofList (((cutAt? pattern.toList s.toList).map (·.1)).getD [])

/-- The text after the first occurrence of a pattern, empty if there is none. -/
def after (s pattern : String) : String :=
  String.ofList (((cutAt? pattern.toList s.toList).map (·.2)).getD [])

/-- The members of a list whose position, counted from `position`, is at least `first` and less
than `stop`. -/
def betweenFrom (first stop : Float) (position : Nat) : List Char → List Char
  | [] => []
  | c :: s =>
    let place := Number.ofNat position
    let rest := betweenFrom first stop (position + 1) s
    if first ≤ place && place < stop then c :: rest else rest

/-- The characters of a text whose position, counted from one, is at least `first` and less
than `stop`.  No position compares with NaN, so a NaN bound selects nothing. -/
def between (s : String) (first stop : Float) : String :=
  String.ofList (betweenFrom first stop 1 s.toList)

/-- Replaces each character that occurs in `source` by the one at the same place in `target`, and
leaves it out if there is none; the first occurrence counts. -/
def translate (s source target : String) : String :=
  let target := target.toList
  String.ofList <| s.toList.filterMap fun c =>
    match source.toList.idxOf? c with
    | some i => target[i]?
    | none => some c

end XPath.Text
