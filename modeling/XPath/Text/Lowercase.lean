/-
Lower case of a text, by the rules of Unicode.

Most characters have one lower case of their own.  The capital sigma has two: it is final
after a letter and before anything but a letter, where marks between the letters do not count.
The capital I with a dot is the only character whose lower case has two characters.
-/
import XPath.Text.CaseTable

namespace XPath.Text

/-- Whether a character lies in one of the ranges. -/
def inRanges (ranges : List (Nat × Nat)) (c : Char) : Bool :=
  ranges.any fun (low, high) => low ≤ c.toNat && c.toNat ≤ high

/-- Whether a character is a letter with a case. -/
def isCased (c : Char) : Bool := inRanges casedRanges c

/-- Whether a character is passed over between letters. -/
def isCaseIgnorable (c : Char) : Bool := inRanges caseIgnorableRanges c

/-- Whether a run holds a character. -/
def LowercaseRun.holds (r : LowercaseRun) (c : Char) : Bool :=
  r.first ≤ c.toNat && c.toNat ≤ r.last && (c.toNat - r.first) % r.step == 0

/-- The lower case of a character where it does not depend on its neighbours. -/
def lowercaseChar (c : Char) : List Char :=
  if c == 'İ' then ['i', '\u0307']
  else match lowercaseRuns.find? (·.holds c) with
    | some r => [Char.ofNat (c.toNat + r.offset).toNat]
    | none => [c]

/-- Whether the next character that counts is a letter. -/
def meetsLetter (s : List Char) : Bool :=
  match s.dropWhile isCaseIgnorable with
  | c :: _ => isCased c
  | [] => false

/-- The lower case of characters; `before` holds those that come before them, nearest first. -/
def lowercaseFrom (before : List Char) : List Char → List Char
  | [] => []
  | c :: rest =>
    let lower :=
      -- The final sigma comes after a letter and before none.
      if c == 'Σ' then [if meetsLetter before && !meetsLetter rest then 'ς' else 'σ']
      else lowercaseChar c
    lower ++ lowercaseFrom (c :: before) rest

def lowercase (s : String) : String := String.ofList (lowercaseFrom [] s.toList)

end XPath.Text
