/-
What cursors come by.

A cursor sees one link at a time.  That it passes through a subtree as a whole is shown from below:
if it comes by some nodes from where it goes on after a subtree, then from the top of the subtree it
comes by the subtree and these nodes.  For the way down that place is the end of the climb; for the
way back it is the predecessor of the top.

* `Cursor.Yields` — what a cursor comes by, in how many steps;
* `Cursor.Yields.unvisited` — what is left when visited nodes are passed over;
* `View.Presents.climb_eq`, `View.Presents.predecessor_eq` — one step, among the children of a node;
* `View.Presents.yields_subtree`, `View.Presents.yields_subtree_reverse` — a run through a subtree;
* `View.Presents.descendants_eq`, `View.Presents.descendantsOrSelf_eq` — the walks down.
-/
import XPath.Tree.Axis
import XPath.Tree.Order
import XPath.Proofs.Tree.Presentation

namespace XPath

open Std (IterStep)

namespace Cursor

variable {σ : Type} {step : σ → IterStep σ Node} {steps fuel : Nat} {c c' : σ} {n : Node}
  {nodes : List Node}

/-- From here a cursor comes by these nodes and ends, in so many steps before the last one. -/
inductive Yields (step : σ → IterStep σ Node) : Nat → σ → List Node → Prop where
  | done {c : σ} (h : step c = .done) : Yields step 0 c []
  | skip {c c' : σ} {steps : Nat} {nodes : List Node} (h : step c = .skip c')
      (rest : Yields step steps c' nodes) : Yields step (steps + 1) c nodes
  | yield {c c' : σ} {steps : Nat} {n : Node} {nodes : List Node} (h : step c = .yield c' n)
      (rest : Yields step steps c' nodes) : Yields step (steps + 1) c (n :: nodes)

/-- With enough steps all of it is collected. -/
theorem Yields.collect_eq (h : Yields step steps c nodes) (hfuel : steps ≤ fuel) :
    collect step fuel c = nodes := by
  induction h generalizing fuel with
  | done h =>
    cases fuel with
    | zero => rfl
    | succ fuel => rw [collect, h]
  | skip h _ ih =>
    obtain _ | fuel := fuel
    · cases hfuel
    rw [collect, h]
    exact ih (Nat.le_of_succ_le_succ hfuel)
  | yield h _ ih =>
    obtain _ | fuel := fuel
    · cases hfuel
    rw [collect, h]
    exact congrArg _ (ih (Nat.le_of_succ_le_succ hfuel))

/-- What comes after a step is all that matters. -/
theorem Yields.of_step_eq (h : Yields step steps c nodes) (heq : step c' = step c) :
    Yields step steps c' nodes := by
  cases h with
  | done h => exact .done (heq.trans h)
  | skip h rest => exact .skip (heq.trans h) rest
  | yield h rest => exact .yield (heq.trans h) rest

/-- A cursor that passes over visited nodes comes by the first occurrences of the others, in as
many steps. -/
theorem Yields.unvisited (h : Yields step steps c nodes) (visited : List Node) :
    Yields (Unvisited.step step) steps ⟨c, visited⟩ (occurrencesAfter visited nodes) := by
  induction h generalizing visited with
  | done h => exact .done (by rw [Unvisited.step, h])
  | skip h _ ih => exact .skip (by rw [Unvisited.step, h]) (ih visited)
  | yield h _ ih =>
    rw [occurrencesAfter]
    split
    · next hn => exact .skip (by rw [Unvisited.step, h]; exact if_pos hn) (ih visited)
    · next hn => exact .yield (by rw [Unvisited.step, h]; exact if_neg hn) (ih _)

/-- Nothing is passed over when no node is come by twice. -/
theorem Yields.unvisited_of_nodup (h : Yields step steps c nodes) (hnodup : nodes.Nodup) :
    Yields (Unvisited.step step) steps ⟨c, []⟩ nodes := by
  have hfirst := h.unvisited []
  rwa [← firstOccurrences, firstOccurrences_of_nodup hnodup] at hfirst

end Cursor

theorem Tree.length_below_le (t : Tree) (i : Nat) :
    ((t.children i).flatMap t.subtree).length ≤ t.size := by
  have hnodup := t.nodup_subtree i
  rw [subtree_eq] at hnodup
  have hsubset : (t.children i).flatMap t.subtree ⊆ List.range t.size := by
    intro j hj
    obtain ⟨c, hc, hj⟩ := List.mem_flatMap.1 hj
    have hc := mem_ordinary.2 ⟨lt_size_of_mem_children hc, (mem_children.1 hc).2⟩
    exact List.mem_range.2 (mem_ordinary.1 (mem_ordinary_of_mem_subtree hc hj)).1
  exact (hnodup.of_cons.subperm hsubset).length_le.trans_eq List.length_range

/-- Climbing does not lead out of the subtree from its top. -/
theorem View.climb_self (v : View) (top : Node) (fuel : Nat) : v.climb top fuel top = none := by
  cases fuel with
  | zero => rfl
  | succ fuel => rw [climb, if_pos rfl]

/-- A walk down from a node without children comes by this node only, if at all. -/
theorem View.descendants_of_firstChild? {v : View} {n : Node} (h : v.firstChild? n = none) :
    v.descendants n = [] ∧ ∀ m ∈ v.descendantsOrSelf n, m = n := by
  have hnone : v.successor n n = none := by rw [successor, h, climb_self]
  have hself : Cursor.Yields (Cursor.Descendants.step v) 1 (.within v n true) [n] :=
    .yield (Cursor.Descendants.step_some v n n) (.done (by rw [hnone]; rfl))
  rw [descendants, descendantsOrSelf]
  cases v.bound with
  | zero => exact ⟨rfl, fun _ hm => nomatch hm⟩
  | succ fuel =>
    rw [hself.collect_eq (Nat.le_add_left 1 fuel)]
    refine ⟨?_, fun _ => List.mem_singleton.1⟩
    rw [Cursor.Descendants.within, h]
    rfl

namespace View.Presents

open Cursor

variable {v : View} {k i j c top : Nat} {t : Tree} (h : v.Presents k t)

include h

/-! ### Down -/

/-- With more fuel than nodes on the way up, more of it leads to the same place. -/
theorem climb_fuel {top : Node} {fuel fuel' : Nat} (hfuel : j < fuel) (hfuel' : j < fuel') :
    v.climb top fuel ⟨k, j⟩ = v.climb top fuel' ⟨k, j⟩ := by
  induction fuel generalizing j fuel' with
  | zero => cases hfuel
  | succ fuel ih =>
    obtain _ | fuel' := fuel'
    · cases hfuel'
    rw [climb, climb, h.parent?]
    cases ho : t.parent? j with
    | none => rfl
    | some owner =>
      have hlt := Tree.parent?_lt ho
      have hparent : v.climb top fuel ⟨k, owner⟩ = v.climb top fuel' ⟨k, owner⟩ :=
        ih (by omega) (by omega)
      rw [Option.map_some]
      dsimp only
      rw [hparent]

/-- After what is below a child the walk goes on at the next child, and after the last child where
it goes on after what is below the parent. -/
theorem climb_eq {before after : List Nat} (hc : t.children j = before ++ c :: after)
    (hne : c ≠ top) :
    v.climb ⟨k, top⟩ v.bound ⟨k, c⟩ =
      (after.head?.map (Node.mk k)).or (v.climb ⟨k, top⟩ v.bound ⟨k, j⟩) := by
  have hmem : c ∈ t.children j := hc ▸ List.mem_append_cons_self
  have hlt := Tree.lt_of_mem_children hmem
  have hsize := Tree.lt_size_of_mem_children hmem
  obtain ⟨ho, hk⟩ := Tree.mem_children.1 hmem
  have hbound := h.size_lt
  obtain ⟨fuel, hfuel⟩ : ∃ fuel, v.bound = fuel + 1 := ⟨v.bound - 1, by omega⟩
  conv_lhs => rw [hfuel, climb, if_neg fun heq => hne (Node.mk_injective heq),
    h.nextSibling? c hk, Tree.nextPeer_eq hc, h.parent?, ho]
  cases after with
  | cons s after => rfl
  | nil =>
    rw [List.head?_nil, Option.map_none, Option.none_or, Option.map_some]
    dsimp only
    split
    · next htop => rw [htop, climb_self]
    · exact h.climb_fuel (by omega) (by omega)

theorem successor_eq {top : Node} (j : Nat) :
    v.successor top ⟨k, j⟩ =
      ((t.children j).head?.map (Node.mk k)).or (v.climb top v.bound ⟨k, j⟩) := by
  rw [successor, h.firstChild?]
  cases (t.children j).head? <;> rfl

/-- From a node on the walk comes by what is below it, then by what it comes by after that. -/
theorem yields_below (htop : top ≤ j) {steps : Nat} {rest : List Node}
    (hrest : Yields (Descendants.step v) steps ⟨⟨k, top⟩, v.climb ⟨k, top⟩ v.bound ⟨k, j⟩⟩ rest) :
    Yields (Descendants.step v) (steps + ((t.children j).flatMap t.subtree).length)
      ⟨⟨k, top⟩, v.successor ⟨k, top⟩ ⟨k, j⟩⟩
      (((t.children j).flatMap t.subtree).map (Node.mk k) ++ rest) := by
  induction j using Tree.subtree_induction (t := t) generalizing steps rest with
  | h j ih =>
    -- From a child on, these are the subtrees of this child and of those after it.
    have hchildren : ∀ before cs, t.children j = before ++ cs →
        Yields (Descendants.step v) (steps + (cs.flatMap t.subtree).length)
          ⟨⟨k, top⟩, (cs.head?.map (Node.mk k)).or (v.climb ⟨k, top⟩ v.bound ⟨k, j⟩)⟩
          ((cs.flatMap t.subtree).map (Node.mk k) ++ rest) := by
      intro before cs
      induction cs generalizing before with
      | nil => exact fun _ => hrest
      | cons c cs ihcs =>
        intro hcs
        have hmem : c ∈ t.children j := hcs ▸ List.mem_append_cons_self
        have hlt := Tree.lt_of_mem_children hmem
        have hafter := ihcs (before ++ [c]) (by rw [hcs, List.append_assoc]; rfl)
        rw [← h.climb_eq hcs (by omega)] at hafter
        have hbelow := Yields.yield (Descendants.step_some v _ _) (ih c hmem (by omega) hafter)
        have hsteps : steps + ((c :: cs).flatMap t.subtree).length =
            steps + (cs.flatMap t.subtree).length +
              ((t.children c).flatMap t.subtree).length + 1 := by
          rw [List.flatMap_cons, Tree.subtree_eq, List.length_append, List.length_cons]
          omega
        rw [hsteps]
        simpa [Tree.subtree_eq t c] using hbelow
    rw [h.successor_eq]
    exact hchildren [] _ rfl

theorem yields_children (i : Nat) :
    Yields (Descendants.step v) ((t.children i).flatMap t.subtree).length
      (.within v ⟨k, i⟩ false) (((t.children i).flatMap t.subtree).map (Node.mk k)) := by
  have hbelow := h.yields_below (Nat.le_refl i) (.done (by rw [climb_self]; rfl))
  rw [h.successor_eq, climb_self, Option.or_none, ← h.firstChild?, Nat.zero_add,
    List.append_nil] at hbelow
  exact hbelow

theorem yields_subtree (i : Nat) :
    Yields (Descendants.step v) (t.subtree i).length (.within v ⟨k, i⟩ true)
      ((t.subtree i).map (Node.mk k)) := by
  have hbelow := h.yields_below (Nat.le_refl i) (.done (by rw [climb_self]; rfl))
  rw [Nat.zero_add, List.append_nil] at hbelow
  rw [Tree.subtree_eq]
  exact .yield (Descendants.step_some v _ _) hbelow

theorem descendants_eq (i : Nat) :
    v.descendants ⟨k, i⟩ = ((t.children i).flatMap t.subtree).map (Node.mk k) := by
  have := h.size_lt
  have := t.length_below_le i
  exact (h.yields_children i).collect_eq (by omega)

/-- A node is below another one at most once. -/
theorem nodup_descendants (i : Nat) : (v.descendants ⟨k, i⟩).Nodup := by
  have hnodup := t.nodup_subtree i
  rw [Tree.subtree_eq] at hnodup
  rw [h.descendants_eq]
  exact hnodup.of_cons.map Node.mk_injective

theorem descendantsOrSelf_eq (i : Nat) :
    v.descendantsOrSelf ⟨k, i⟩ = (t.subtree i).map (Node.mk k) := by
  have := h.size_lt
  have := t.length_below_le i
  exact (h.yields_subtree i).collect_eq (by rw [Tree.subtree_eq, List.length_cons]; omega)

/-! ### Backwards -/

/-- With more fuel than nodes on the way down, more of it leads to the same place. -/
theorem deepestLast_fuel {fuel fuel' : Nat} (hj : j < t.size) (hfuel : t.size ≤ fuel + j)
    (hfuel' : t.size ≤ fuel' + j) : v.deepestLast fuel ⟨k, j⟩ = v.deepestLast fuel' ⟨k, j⟩ := by
  induction fuel generalizing j fuel' with
  | zero => omega
  | succ fuel ih =>
    obtain _ | fuel' := fuel'
    · omega
    rw [deepestLast, deepestLast, h.lastChild?]
    cases hlast : (t.children j).getLast? with
    | none => rfl
    | some c =>
      have hmem := List.mem_of_getLast? hlast
      have := Tree.lt_of_mem_children hmem
      have := Tree.lt_size_of_mem_children hmem
      exact ih (by omega) (by omega) (by omega)

/-- The first node of a subtree that a walk backwards comes by. -/
theorem deepestLast_eq (hj : j < t.size) :
    v.deepestLast v.bound ⟨k, j⟩ =
      ((t.children j).reverse.head?.map fun c => v.deepestLast v.bound ⟨k, c⟩).getD ⟨k, j⟩ := by
  have hbound := h.size_lt
  obtain ⟨fuel, hfuel⟩ : ∃ fuel, v.bound = fuel + 1 := ⟨v.bound - 1, by omega⟩
  rw [List.head?_reverse]
  conv_lhs => rw [hfuel, deepestLast, h.lastChild?]
  cases hlast : (t.children j).getLast? with
  | none => rfl
  | some c =>
    have hmem := List.mem_of_getLast? hlast
    have := Tree.lt_of_mem_children hmem
    have := Tree.lt_size_of_mem_children hmem
    exact h.deepestLast_fuel (by omega) (by omega) (by omega)

/-- Before the subtree of a child comes that of the child before it, and before the first one the
parent itself. -/
theorem predecessor_eq {before after : List Nat}
    (hc : (t.children j).reverse = before ++ c :: after) (hne : c ≠ top) :
    Preceding.predecessor v (some ⟨k, top⟩) ⟨k, c⟩ =
      some ((after.head?.map fun s => v.deepestLast v.bound ⟨k, s⟩).getD ⟨k, j⟩) := by
  have hmem : c ∈ t.children j := List.mem_reverse.1 (hc ▸ List.mem_append_cons_self)
  obtain ⟨ho, hk⟩ := Tree.mem_children.1 hmem
  have hne : ¬ some (Node.mk k c) = some ⟨k, top⟩ :=
    fun heq => hne (Node.mk_injective (Option.some.inj heq))
  rw [Preceding.predecessor, if_neg hne, h.previousSibling? c hk, Tree.previousPeer_eq hc,
    h.parent?, ho]
  cases after <;> rfl

/-- From the last node of a subtree on the walk comes by the subtree, backwards, then by what it
comes by after that. -/
theorem yields_subtree_reverse {root : Node} {anchor? : Option Node} (htop : top ≤ j)
    (hj : j < t.size) {steps : Nat} {rest : List Node}
    (hrest : Yields (Preceding.step v) steps
      ⟨root, anchor?, some ⟨k, top⟩, Preceding.predecessor v (some ⟨k, top⟩) ⟨k, j⟩⟩ rest) :
    Yields (Preceding.step v) (steps + (t.subtree j).length)
      ⟨root, anchor?, some ⟨k, top⟩, some (v.deepestLast v.bound ⟨k, j⟩)⟩
      ((t.subtree j).reverse.map (Node.mk k) ++ rest) := by
  induction j using Tree.subtree_induction (t := t) generalizing steps rest with
  | h j ih =>
    -- From a child on, these are the subtrees of this child and of those before it, and the node.
    have hchildren : ∀ after cs, (t.children j).reverse = after ++ cs →
        Yields (Preceding.step v) (steps + 1 + (cs.flatMap t.subtree).length)
          ⟨root, anchor?, some ⟨k, top⟩,
            some ((cs.head?.map fun c => v.deepestLast v.bound ⟨k, c⟩).getD ⟨k, j⟩)⟩
          ((cs.flatMap fun c => (t.subtree c).reverse).map (Node.mk k) ++ ⟨k, j⟩ :: rest) := by
      intro after cs
      induction cs generalizing after with
      | nil => exact fun _ => .yield rfl hrest
      | cons c cs ihcs =>
        intro hcs
        have hmem : c ∈ t.children j := List.mem_reverse.1 (hcs ▸ List.mem_append_cons_self)
        have hlt := Tree.lt_of_mem_children hmem
        have hbefore := ihcs (after ++ [c]) (by rw [hcs, List.append_assoc]; rfl)
        have hne : c ≠ top := by omega
        rw [← h.predecessor_eq hcs hne] at hbefore
        have hsubtree := ih c hmem (by omega) (Tree.lt_size_of_mem_children hmem) hbefore
        rw [List.flatMap_cons, List.flatMap_cons, List.length_append, List.map_append,
          List.append_assoc, Nat.add_comm (t.subtree c).length, ← Nat.add_assoc]
        exact hsubtree
    have hlength : steps + (t.subtree j).length =
        steps + 1 + ((t.children j).reverse.flatMap t.subtree).length := by
      rw [((List.reverse_perm _).flatMap_right _).length_eq, Tree.subtree_eq, List.length_cons]
      omega
    rw [hlength, h.deepestLast_eq hj, Tree.subtree_eq, List.reverse_cons, List.reverse_flatMap,
      List.map_append, List.append_assoc]
    exact hchildren [] _ rfl

end View.Presents

end XPath
