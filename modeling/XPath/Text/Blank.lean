/-
Which characters count as blank.

Three sets occur in the language and must not be mixed up:
* `isXmlBlank` — the four blanks of XML, which numbers and `normalize-space` know;
* `isAsciiBlank` — those and the form feed, which separate the tokens of `id`;
* `isBlank` — the `White_Space` property of Unicode, which is trimmed off source text.
-/

namespace XPath.Text

/-- The blanks of XML: space, tab, carriage return and line feed. -/
def isXmlBlank (c : Char) : Bool := c == ' ' || c == '\t' || c == '\r' || c == '\n'

/-- The blanks of XML and the form feed. -/
def isAsciiBlank (c : Char) : Bool := isXmlBlank c || c == '\x0c'

/-- The characters with the Unicode property `White_Space`. -/
def isBlank (c : Char) : Bool :=
  let n := c.toNat
  (9 ≤ n && n ≤ 13) || n == 0x20 || n == 0x85 || n == 0xa0 || n == 0x1680 ||
  (0x2000 ≤ n && n ≤ 0x200a) || n == 0x2028 || n == 0x2029 || n == 0x202f || n == 0x205f ||
  n == 0x3000

/-- The list without the leading and trailing members that satisfy `blank`. -/
def strip (blank : Char → Bool) (s : List Char) : List Char :=
  ((s.dropWhile blank).reverse.dropWhile blank).reverse

/-- The text without Unicode white space at its ends. -/
def trim (s : String) : String := String.ofList (strip isBlank s.toList)

/-- The run of characters that are not blank at the front of a list, and the runs after it. -/
def splitRuns (blank : Char → Bool) : List Char → List Char × List (List Char)
  | [] => ([], [])
  | c :: s =>
    let (run, others) := splitRuns blank s
    if blank c then ([], if run.isEmpty then others else run :: others) else (c :: run, others)

/-- The maximal runs of characters that are not blank, in order. -/
def runs (blank : Char → Bool) (s : List Char) : List (List Char) :=
  let (run, others) := splitRuns blank s
  if run.isEmpty then others else run :: others

/-- The words of a text: its maximal runs of characters that are not blank. -/
def words (blank : Char → Bool) (s : String) : List String :=
  (runs blank s.toList).map String.ofList

/-- The words of a text, between XML blanks, with one space between neighbours. -/
def normalizeSpace (s : String) : String := " ".intercalate (words isXmlBlank s)

end XPath.Text
