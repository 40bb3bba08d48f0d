/-
The core functions about nodes: `last`, `position`, `count`, `id`, `local-name`, `namespace-uri`
and `name`.
-/
import XPath.Library.Arguments

namespace XPath.Core

/-- `last()`: the size of the context. -/
def last : Function := .nullary "last" fun c => do
  return .number (Number.ofNat (← c.context.size))

/-- `position()`: the position in the context. -/
def position : Function := .nullary "position" fun c =>
  pure (.number (Number.ofNat c.context.position))

/-- `count(nodes)`: how many nodes there are. -/
def count : Function := .unary "count" fun c a => do
  return .number (Number.ofNat (← c.nodes "count" a).size)

/-- The text that lists identifiers: of a node-set, the string-values of all its nodes. -/
def identifierText (v : View) : Value → String
  | .nodeSet s => " ".intercalate (s.nodes.map v.stringValue)
  | other => other.toText v

/-- Whether an attribute identifies its element: it is named `id`, in no namespace or that of
`xml`. -/
def isIdentifier (l : Links) (a : Node) : Bool :=
  (l.name? a).any fun name =>
    name.localPart == "id" && (name.uri == none || name.uri == some xmlNamespace)

/-- Whether an element has an identifier that is wanted. -/
def isIdentified (l : Links) (wanted : List String) (n : Node) : Bool :=
  l.isElement n &&
    (l.attributes n).any fun a => isIdentifier l a && wanted.contains (l.stringValue a)

/-- The elements of a document with an identifier that is wanted, in document order. -/
def identified (v : View) (document : Node) (wanted : List String) : List Node :=
  (v.descendants document).filter (isIdentified v.toLinks wanted)

/-- `id(object)`: the elements of the document that the words of the argument identify. -/
def id : Function := .unary "id" fun c a => do
  let wanted := Text.words Text.isAsciiBlank (identifierText c.view (← a.value c.context))
  if wanted.isEmpty then return .nodeSet .empty
  return .nodeSet ⟨identified c.view c.setting.document wanted⟩

/-- `local-name(nodes?)`: the local part of the name of the first node. -/
def localName : Function := .optional "local-name" fun c a => do
  let name? := (← c.nodeOrContext "local-name" a).bind c.view.name?
  return .string ((name?.map (·.localPart)).getD "")

/-- `namespace-uri(nodes?)`: the namespace of the first node, if it is an element or an
attribute. -/
def namespaceUri : Function := .optional "namespace-uri" fun c a => do
  let node? := (← c.nodeOrContext "namespace-uri" a).filter fun n =>
    c.view.isElement n || c.view.isAttribute n
  return .string (((node?.bind c.view.name?).bind (·.uri)).getD "")

/-- `name(nodes?)`: the name of the first node as its document writes it. -/
def name : Function := .optional "name" fun c a => do
  let name? := (← c.nodeOrContext "name" a).bind c.view.name?
  return .string ((name?.map (·.toText)).getD "")

end XPath.Core
