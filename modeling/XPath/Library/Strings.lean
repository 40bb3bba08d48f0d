/-
The core functions about strings: `string`, `concat`, `starts-with`, `contains`,
`substring-before`, `substring-after`, `substring`, `string-length`, `normalize-space` and
`translate`.
-/
import XPath.Library.Arguments
import XPath.Text.Search

namespace XPath.Core

def string : Function := .optional "string" fun c a => do
  return .string (← c.stringOrContext a)

/-- `concat(string, string, string*)`: the arguments one after the other. -/
def concat : Function := .twoOrMore "concat" fun c arguments => do
  return .string (String.join (← arguments.mapM c.string))

/-- A function of two strings, the first of which is evaluated first. -/
def ofStrings (name : String) (f : String → String → Value) : Function :=
  .binary name fun c a b => do
    let s ← c.string a
    let t ← c.string b
    return f s t

def startsWith : Function := ofStrings "starts-with" fun s t => .boolean (Text.startsWith s t)

def contains : Function := ofStrings "contains" fun s t => .boolean (Text.contains s t)

def substringBefore : Function := ofStrings "substring-before" fun s t => .string (Text.before s t)

def substringAfter : Function := ofStrings "substring-after" fun s t => .string (Text.after s t)

/-- `substring(string, number, number?)`: the characters from a position on, as many as the third
argument says or all.  Both numbers are rounded before they are added up. -/
def substring : Function := .twoOrThree "substring" fun c a start length? => do
  let s ← c.string a
  let first := Number.round (← c.number start)
  let stop ← match length? with
    | some length => do pure (first + Number.round (← c.number length))
    | none => pure (Number.infinity false)
  return .string (Text.between s first stop)

/-- `string-length(string?)`: how many characters a string has. -/
def stringLength : Function := .optional "string-length" fun c a => do
  return .number (Number.ofNat (← c.stringOrContext a).length)

/-- `normalize-space(string?)`. -/
def normalizeSpace : Function := .optional "normalize-space" fun c a => do
  return .string (Text.normalizeSpace (← c.stringOrContext a))

def translate : Function := .ternary "translate" fun c a source target => do
  let s ← c.string a
  let source ← c.string source
  let target ← c.string target
  return .string (Text.translate s source target)

end XPath.Core
