/-
Tables of functions.

* `Registry` — functions by name; adding one under a name replaces the one before;
* `Registry.core` — the 27 functions that every expression can count on.
-/
import XPath.Library.Booleans
import XPath.Library.Nodes
import XPath.Library.Numbers
import XPath.Library.Strings

namespace XPath

/-- Functions by name. -/
structure Registry where
  entries : List (QName × Function)

namespace Registry

def empty : Registry := ⟨[]⟩

/-- The table with a function added, in place of the one of that name. -/
def add (r : Registry) (name : QName) (f : Function) : Registry :=
  ⟨r.entries.filter (·.1 ≠ name) ++ [(name, f)]⟩

/-- The function of a name. -/
def find? (r : Registry) (name : QName) : Option Function := r.entries.lookup name

/-- Whether there is a function of a name. -/
def contains (r : Registry) (name : QName) : Bool := (r.find? name).isSome

def size (r : Registry) : Nat := r.entries.length

/-- The names of the functions, in the order of their characters. -/
def names (r : Registry) : List String :=
  (r.entries.map (·.1.toText)).mergeSort fun a b => a ≤ b

/-- The library of a table: what is found does not depend on the context. -/
def library (r : Registry) : Library := fun name _ _ => r.find? name

def coreFunctions : List (String × Function) :=
  [("last", Core.last), ("position", Core.position), ("count", Core.count), ("id", Core.id),
   ("local-name", Core.localName), ("namespace-uri", Core.namespaceUri), ("name", Core.name),
   ("string", Core.string), ("concat", Core.concat), ("starts-with", Core.startsWith),
   ("contains", Core.contains), ("substring-before", Core.substringBefore),
   ("substring-after", Core.substringAfter), ("substring", Core.substring),
   ("string-length", Core.stringLength), ("normalize-space", Core.normalizeSpace),
   ("translate", Core.translate), ("boolean", Core.boolean), ("not", Core.not),
   ("true", Core.trueFunction), ("false", Core.falseFunction), ("lang", Core.lang),
   ("number", Core.number), ("sum", Core.sum), ("floor", Core.floor), ("ceiling", Core.ceiling),
   ("round", Core.round)]

/-- The table of the core functions. -/
def core : Registry := ⟨coreFunctions.map fun (name, f) => (⟨none, name⟩, f)⟩

end Registry

end XPath
