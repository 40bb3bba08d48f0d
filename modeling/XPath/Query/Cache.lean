/-
The compiled expressions that are kept for another use.

Expressions are kept under the whole syntax tree they were compiled from.  When there is no room
left, the one that was not used for the longest time makes way.  A tree that does not compile is
not kept.

* `Compiled` — a compiled expression and the number of its compilation;
* `Cache` — the kept expressions, most recently used first;
* `Cache.compile` — compiles a tree, or takes what is kept for it.
-/
import XPath.Expr.OfSyntax

namespace XPath

/-- A compiled expression. Two of them are the same compilation if they have the same number. -/
structure Compiled where
  serial : Nat
  expr : Expr

/-- The kept expressions, most recently used first. -/
structure Cache where
  capacity : Nat
  entries : List (SyntaxTree × Compiled)
  /-- How many trees have been compiled so far. -/
  compilations : Nat

namespace Cache

def empty (capacity : Nat) : Cache := ⟨capacity, [], 0⟩

/-- How many expressions are kept. -/
def size (c : Cache) : Nat := c.entries.length

/-- What is kept for a tree. -/
def find? (c : Cache) (t : SyntaxTree) : Option Compiled := c.entries.lookup t

/-- Puts an expression first and keeps no more than there is room for. -/
def use (c : Cache) (t : SyntaxTree) (compiled : Compiled) : Cache :=
  { c with entries := ((t, compiled) :: c.entries.filter (·.1 ≠ t)).take c.capacity }

/-- Compiles a tree, or takes what is kept for it. -/
def compile (c : Cache) (t : SyntaxTree) : Except Error Compiled × Cache :=
  match c.find? t with
  | some compiled => (.ok compiled, c.use t compiled)
  | none =>
    match Expr.ofSyntax t with
    -- What does not compile takes up no room and is not counted.
    | .error e => (.error e, c)
    | .ok expr =>
      let compiled : Compiled := ⟨c.compilations, expr⟩
      (.ok compiled, { c.use t compiled with compilations := c.compilations + 1 })

end Cache

end XPath
