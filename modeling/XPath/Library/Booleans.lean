/-
The core functions about truth values: `boolean`, `not`, `true`, `false` and `lang`.
-/
import XPath.Library.Arguments
import XPath.Text.Lowercase

namespace XPath.Core

def boolean : Function := .unary "boolean" fun c a => do return .boolean (← c.truth a)

def not : Function := .unary "not" fun c a => do return .boolean !(← c.truth a)

def trueFunction : Function := .nullary "true" fun _ => pure (.boolean true)

def falseFunction : Function := .nullary "false" fun _ => pure (.boolean false)

/-- Whether an attribute declares a language: it is named `lang`, in the namespace of `xml` or with
that qualifier. -/
def isLanguage (l : Links) (a : Node) : Bool :=
  (l.name? a).any fun name =>
    name.localPart == "lang" && (name.uri == some xmlNamespace || name.qualifier == some "xml")

/-- The language of a node: what it or its nearest ancestor that declares one declares. -/
def language? (l : Links) (n : Node) : Option String :=
  ((n :: l.ancestors n).findSome? fun m => (l.attributes m).find? (isLanguage l)).map l.stringValue

/-- Whether a language is the wanted one or a part of it: what follows begins with a hyphen.  Case
does not count. -/
def isLanguageOf (declared wanted : String) : Bool :=
  match Text.dropPrefix? (Text.lowercase wanted).toList (Text.lowercase declared).toList with
  | some [] => true
  | some (c :: _) => c == '-'
  | none => false

/-- `lang(string)`: whether the context node is in a language. -/
def lang : Function := .unary "lang" fun c a => do
  let wanted ← c.string a
  return .boolean ((language? c.view.toLinks c.context.node).any fun s => isLanguageOf s wanted)

end XPath.Core
