/-
What qualifiers stand for.

An expression is evaluated with a binding of qualifiers to namespaces; asked for no qualifier, it
gives the namespace of element names that are written without one.

* `Namespaces.none` — knows only the qualifier `xml`;
* `Namespaces.fixed` — bindings given beforehand;
* `Namespaces.ofNode` — the namespace nodes of the element that a node is in.
-/
import XPath.Tree.View

namespace XPath

/-- The namespace of a qualifier, or of unqualified element names. -/
abbrev Namespaces := Option String → Option String

namespace Namespaces

/-- Only the qualifier `xml` is bound. -/
def none : Namespaces
  | some "xml" => some xmlNamespace
  | _ => Option.none

/-- The given bindings, of which a later one replaces an earlier one, then that of `xml`. -/
def fixed (bindings : List (String × String)) (unqualified : Option String) : Namespaces
  | Option.none => unqualified
  | some qualifier => bindings.reverse.lookup qualifier <|> none (some qualifier)

/-- The nearest element that is a node or one of its ancestors, the topmost node if there is
none. -/
def scope (l : Links) (n : Node) : Node :=
  ((n :: l.ancestors n).find? l.isElement).getD (l.document n)

/-- The namespace nodes of the element that a node is in.  Element names without a qualifier are
in no namespace, and `xml` cannot be bound anew. -/
def ofNode (l : Links) (n : Node) : Namespaces
  | Option.none => Option.none
  | some qualifier =>
    if qualifier = "xml" then some xmlNamespace
    else
      let declares := fun m => (l.name? m).any fun name => name.localPart == qualifier
      ((l.namespaces (scope l n)).find? declares).map l.stringValue

end Namespaces

end XPath
