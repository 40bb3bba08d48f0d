/-
Names.

* `QName` — a name as an expression writes it: an optional qualifier and a local part, divided
  at the first colon;
* `NodeName` — the name of a node: the same parts and the namespace they stand for.
-/
import XPath.Text.Search

namespace XPath

/-- The namespace that the qualifier `xml` is bound to, always. -/
def xmlNamespace : String := "http://www.w3.org/XML/1998/namespace"

/-- The parts of a text before and after its first colon. -/
def splitColon? (s : String) : Option (String × String) :=
  (Text.cutAt? [':'] s.toList).map fun (first, rest) => (String.ofList first, String.ofList rest)

/-- A name as written in an expression. -/
structure QName where
  qualifier : Option String
  localPart : String
  deriving DecidableEq, Repr

namespace QName

/-- Divides a text at its first colon; without a colon there is no qualifier. -/
def ofText (s : String) : QName :=
  match splitColon? s with
  | some (qualifier, localPart) => ⟨some qualifier, localPart⟩
  | none => ⟨none, s⟩

def toText (n : QName) : String :=
  match n.qualifier with
  | some qualifier => qualifier ++ ":" ++ n.localPart
  | none => n.localPart

end QName

/-- The name of a node.  A namespace node is named by the qualifier it declares, a processing
instruction by its target. -/
structure NodeName where
  qualifier : Option String
  localPart : String
  uri : Option String
  deriving DecidableEq, Repr

namespace NodeName

/-- The name that a text writes.  Without a namespace of its own the qualifier `xml` has the one
it is bound to, and any other has none. -/
def ofText (s : String) (uri : Option String) : NodeName :=
  let written := QName.ofText s
  let implied := if written.qualifier = some "xml" then some xmlNamespace else none
  ⟨written.qualifier, written.localPart, uri <|> implied⟩

/-- The name as a document writes it; an empty qualifier is left out. -/
def toText (n : NodeName) : String :=
  match n.qualifier with
  | some qualifier => if qualifier.isEmpty then n.localPart else qualifier ++ ":" ++ n.localPart
  | none => n.localPart

end NodeName

end XPath
