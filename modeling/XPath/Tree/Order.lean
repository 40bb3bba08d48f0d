/-
Lists of nodes and document order.

* `View.sort` — stable sorting by document order;
* `View.first?` — the node of a list that comes first in document order;
* `firstOccurrences` — a list without repetitions.
-/
import XPath.Tree.View

namespace XPath

/-- A list with only the first occurrence of each member; members of `seen` are left out. -/
def occurrencesAfter {α : Type} [DecidableEq α] (seen : List α) : List α → List α
  | [] => []
  | a :: rest =>
    if a ∈ seen then occurrencesAfter seen rest else a :: occurrencesAfter (a :: seen) rest

/-- A list with only the first occurrence of each member. -/
def firstOccurrences {α : Type} [DecidableEq α] (xs : List α) : List α := occurrencesAfter [] xs

theorem mem_occurrencesAfter {α : Type} [DecidableEq α] {seen xs : List α} {a : α} :
    a ∈ occurrencesAfter seen xs ↔ a ∈ xs ∧ a ∉ seen := by
  fun_induction occurrencesAfter seen xs with
  | case1 => simp
  | case2 seen b rest h ih => grind
  | case3 seen b rest h ih => grind

theorem nodup_occurrencesAfter {α : Type} [DecidableEq α] (seen xs : List α) :
    (occurrencesAfter seen xs).Nodup := by
  fun_induction occurrencesAfter seen xs with
  | case1 => simp
  | case2 seen b rest h ih => exact ih
  | case3 seen b rest h ih => exact List.nodup_cons.2 ⟨by simp [mem_occurrencesAfter], ih⟩

/-- Taking first occurrences changes no membership. -/
theorem mem_firstOccurrences {α : Type} [DecidableEq α] {xs : List α} {a : α} :
    a ∈ firstOccurrences xs ↔ a ∈ xs := by
  simp [firstOccurrences, mem_occurrencesAfter]

/-- First occurrences are all different. -/
theorem nodup_firstOccurrences {α : Type} [DecidableEq α] (xs : List α) :
    (firstOccurrences xs).Nodup :=
  nodup_occurrencesAfter [] xs

theorem occurrencesAfter_of_nodup {α : Type} [DecidableEq α] {seen xs : List α} (h : xs.Nodup)
    (hseen : ∀ a ∈ xs, a ∉ seen) : occurrencesAfter seen xs = xs := by
  induction xs generalizing seen with
  | nil => rfl
  | cons a rest ih =>
    obtain ⟨ha, hrest⟩ := List.nodup_cons.1 h
    rw [occurrencesAfter, if_neg (hseen a List.mem_cons_self), ih hrest]
    intro b hb
    rw [List.mem_cons, not_or]
    exact ⟨fun hba => ha (hba ▸ hb), hseen b (List.mem_cons_of_mem a hb)⟩

/-- A list without repetitions is its own first occurrences. -/
theorem firstOccurrences_of_nodup {α : Type} [DecidableEq α] {xs : List α} (h : xs.Nodup) :
    firstOccurrences xs = xs :=
  occurrencesAfter_of_nodup h fun _ _ => List.not_mem_nil

namespace View

variable (v : View)

/-- Puts a node into a list that is sorted from last to first: past the nodes that come after
it. -/
def insertBackward (n : Node) : List Node → List Node
  | [] => [n]
  | m :: rest => if v.order n m = .lt then m :: insertBackward n rest else n :: m :: rest

/-- Sorts nodes into document order.  Nodes that neither comes before the other keep their
order. -/
def sort (nodes : List Node) : List Node :=
  (nodes.foldl (fun sorted n => v.insertBackward n sorted) []).reverse

theorem insertBackward_perm (n : Node) (nodes : List Node) :
    (v.insertBackward n nodes).Perm (n :: nodes) := by
  induction nodes with
  | nil => exact .refl _
  | cons m rest ih =>
    rw [insertBackward]
    split
    · exact (ih.cons m).trans (.swap n m rest)
    · exact .refl _

/-- Sorting moves nodes around and nothing else. -/
theorem sort_perm (nodes : List Node) : (v.sort nodes).Perm nodes := by
  have fold : ∀ (nodes sorted : List Node),
      (nodes.foldl (fun sorted n => v.insertBackward n sorted) sorted).Perm (nodes ++ sorted) := by
    intro nodes
    induction nodes with
    | nil => intro sorted; exact .refl _
    | cons n rest ih =>
      intro sorted
      exact (ih _).trans (((v.insertBackward_perm n sorted).append_left rest).trans
        List.perm_middle)
  exact (List.reverse_perm _).trans (by simpa using fold nodes [])

/-- The node that comes first in document order; of several, the one first in the list. -/
def first? : List Node → Option Node
  | [] => none
  | n :: rest => some (rest.foldl (fun best m => if v.order best m = .gt then m else best) n)

end View

end XPath
