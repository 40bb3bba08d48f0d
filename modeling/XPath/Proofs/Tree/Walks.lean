/-
The walks along the axes as lists of the tree.

A walk along the document climbs to the next top, passes through its subtree, and climbs on from
there.  So it leads through the tops that the root leaves, and comes by the subtrees there: the one
way in document order, the other way against it.

Every view of a tree that shows all of its links leads to the same nodes on an axis, in the same
order, and more room for the walk changes nothing.

* `View.Depicts` — a view that shows all links of a tree, as three of the views of a forest do;
* `View.Presents.advance_eq` — the climb to the next top;
* `View.Presents.step_following_eq`, `View.Presents.step_preceding_eq` — the step after it;
* `View.Presents.yields_later`, `View.Presents.yields_earlier` — the run through all tops;
* `View.Depicts.walk_eq` — the walks, from any node and within any root;
* `walk_ordered` — a walk goes strictly in document order or strictly against it.
-/
import XPath.Tree.Sample
import XPath.Proofs.Tree.Ancestry
import XPath.Proofs.Tree.Cursor
import XPath.Proofs.Tree.Direction

namespace XPath

/-! ### From top to top -/

namespace View.Presents

variable {v : View} {k i : Nat} {t : Tree} {root : Node} (h : v.Presents k t)

include h

/-- A walk ends at the document and at the root. -/
theorem isEdge_iff (hi : i < t.size) : v.isEdge root ⟨k, i⟩ = true ↔ i = 0 ∨ root = ⟨k, i⟩ := by
  have hdocument : v.isDocument ⟨k, i⟩ = true ↔ i = 0 := by
    rw [Links.isDocument, h.kind, beq_iff_eq]
    refine ⟨fun hk => ?_, fun hi => hi ▸ rfl⟩
    by_contra hzero
    exact Tree.kind_ne_root hi hzero hk
  rw [isEdge, Bool.or_eq_true, decide_eq_true_iff, hdocument, or_comm, eq_comm (b := root)]

variable (hwf : t.WellFormed) {link : Node → Option Node} {next : Nat → Option Nat}
  {tops : Nat → List Nat} (hv : t.Visits next tops)
  (hlink : ∀ j, (t.kind j).isChild = true → link ⟨k, j⟩ = (next j).map (Node.mk k))

include hwf hv hlink

/-- The climb from a node leads to the first of the tops that the root leaves. -/
theorem advance_eq (hi : i ∈ t.ordinary) {fuel : Nat} (hfuel : i < fuel) :
    v.advance link root fuel ⟨k, i⟩ = (t.reached k root i (tops i)).head?.map (Node.mk k) := by
  induction fuel generalizing i with
  | zero => cases hfuel
  | succ fuel ih =>
    obtain ⟨hlt, hk⟩ := Tree.mem_ordinary.1 hi
    rw [advance]
    split
    · next hedge =>
      rcases (h.isEdge_iff hlt).1 hedge with hzero | hroot
      · rw [hzero, hv.document]
        rfl
      · -- The root is on the way to every top.
        cases htops : tops i with
        | nil => rfl
        | cons s rest =>
          have hbars : t.Bars k root i s := by
            have hs := (hv.apart (htops ▸ List.mem_cons_self)).not_mem_path.2
            exact ⟨i, Tree.mem_path_self t i, hroot, hs⟩
          rw [Tree.reached, if_pos hbars]
          rfl
    · next hedge =>
      obtain ⟨hzero, hroot⟩ := not_or.1 (mt (h.isEdge_iff hlt).2 hedge)
      obtain ⟨owner, ho⟩ := Tree.exists_parent? hlt hzero
      have hparent := Tree.parent?_lt ho
      rw [hlink i hk, h.parent?, ho]
      cases hnext : next i with
      | some s =>
        obtain ⟨-, hsibling, htops⟩ := hv.beside hi hnext
        rw [htops, Tree.reached, if_neg (Tree.not_bars_sibling hsibling hroot)]
        rfl
      | none =>
        rw [hv.above hi ho hnext, Tree.reached_of_parent? ho hroot]
        exact ih (Tree.owner_mem_ordinary hwf hlt ho) (by omega)

end View.Presents

/-! ### Views that show all links -/

/-- The links of tree `k` are those of `t`, with its last children and with what nodes own beside
their children. -/
structure View.Depicts (v : View) (k : Nat) (t : Tree) : Prop extends v.toLinks.Depicts k t where
  lastChild? : ∀ i, v.lastChild? ⟨k, i⟩ = (t.children i).getLast?.map (Node.mk k)

theorem View.Depicts.presents {v : View} {k : Nat} {t : Tree} (h : v.Depicts k t) :
    v.Presents k t := ⟨h.toPresents, h.lastChild?⟩

namespace View

end View

/-! ### Siblings -/

namespace Links.Presents

variable {l : Links} {k i owner : Nat} {t : Tree} (h : l.Presents k t)

include h

theorem chain_previousSibling?_eq (hi : i ∈ t.children owner) :
    l.chain l.previousSibling? (l.previousSibling? ⟨k, i⟩) =
      (((t.children owner).filter (· < i)).reverse).map (Node.mk k) := by
  refine h.chain_children_eq h.previousSibling? hi
    (fun x hx => List.mem_of_mem_filter (List.mem_reverse.1 hx))
    (fun before x after hsplit => ?_) ?_
  · have hchildren := congrArg List.reverse
      (Tree.filter_append_cons_filter (Tree.sorted_children t owner) hi)
    rw [List.reverse_append, List.reverse_cons, List.append_assoc, List.singleton_append, hsplit,
      ← List.append_assoc] at hchildren
    exact Tree.previousPeer_eq hchildren
  · rw [List.length_reverse]
    exact Tree.length_filter_children_le _ owner

end Links.Presents

namespace View.Depicts

variable {v : View} {k i : Nat} {t : Tree} (h : v.Depicts k t)

include h

/-- From a node that no owner lists as a child no link leads to a sibling. -/
theorem siblings_of_not_mem {link : Node → Option Node} {next : Nat → Option Nat}
    (hlink : ∀ j, (t.kind j).isChild = true → link ⟨k, j⟩ = (next j).map (Node.mk k))
    (hnext : t.peers i = [] → next i = none) (hi : ∀ owner, i ∉ t.children owner) :
    v.siblings link ⟨k, i⟩ = [] := by
  rw [siblings, h.isAttached_eq]
  by_cases hk : (t.kind i).isChild = true
  · have hpeers : t.peers i = [] := by
      cases ho : t.parent? i with
      | none => rw [Tree.peers, ho]
      | some owner => exact (hi owner (Tree.mem_children.2 ⟨ho, hk⟩)).elim
    rw [if_neg (by simp [hk]), hlink i hk, hnext hpeers, Links.chain]
    cases v.bound <;> rfl
  · rw [if_pos (by simp [hk])]

theorem siblings_nextSibling?_eq (i : Nat) :
    v.siblings v.nextSibling? ⟨k, i⟩ = (t.siblingsAfter i).map (Node.mk k) := by
  by_cases hi : ∃ owner, i ∈ t.children owner
  · obtain ⟨owner, hi⟩ := hi
    have hattached : ¬ v.isAttached ⟨k, i⟩ = true := by
      simp [h.isAttached_eq, (Tree.mem_children.1 hi).2]
    rw [siblings, if_neg hattached, h.chain_nextSibling?_eq hi,
      Tree.siblingsAfter_of_mem_children hi]
  · have hi := not_exists.1 hi
    rw [(Tree.siblings_eq_nil hi).1]
    exact h.siblings_of_not_mem h.nextSibling? (fun hp => by simp [Tree.nextPeer, hp]) hi

theorem siblings_previousSibling?_eq (i : Nat) :
    v.siblings v.previousSibling? ⟨k, i⟩ = (t.siblingsBefore i).map (Node.mk k) := by
  by_cases hi : ∃ owner, i ∈ t.children owner
  · obtain ⟨owner, hi⟩ := hi
    have hattached : ¬ v.isAttached ⟨k, i⟩ = true := by
      simp [h.isAttached_eq, (Tree.mem_children.1 hi).2]
    rw [siblings, if_neg hattached, h.chain_previousSibling?_eq hi,
      Tree.siblingsBefore_of_mem_children hi]
  · have hi := not_exists.1 hi
    rw [(Tree.siblings_eq_nil hi).2]
    exact h.siblings_of_not_mem h.previousSibling? (fun hp => by simp [Tree.previousPeer, hp]) hi

end View.Depicts

/-! ### Walks along the document -/

/-- In a subtree, a walk through the subtrees after a node goes on as the walk through this one. -/
theorem Cursor.Yields.following {v : View} {root : Node} {anchor? : Option Node}
    {subtree : Cursor.Descendants} {steps steps' : Nat} {nodes nodes' : List Node}
    (h : Yields (Descendants.step v) steps subtree nodes)
    (h' : Yields (Following.step v) steps' ⟨root, anchor?, none⟩ nodes') :
    Yields (Following.step v) (steps' + steps) ⟨root, anchor?, some subtree⟩
      (nodes ++ nodes') := by
  induction h with
  | done h => exact h'.of_step_eq (by simp only [Following.step, h]; rfl)
  | skip h _ ih => exact .skip (by simp only [Following.step, h]) ih
  | yield h _ ih => exact .yield (by simp only [Following.step, h]) ih

namespace View.Presents

open Cursor

variable {v : View} {k i : Nat} {t : Tree} (h : v.Presents k t) (hwf : t.WellFormed)
  (root : Node)

include h hwf

/-- From an ordinary node the walk turns to the first of the tops after it that the root leaves. -/
theorem step_following_eq (hi : i ∈ t.ordinary) :
    Following.step v ⟨root, some ⟨k, i⟩, none⟩ =
      match (t.reached k root i (t.later i)).head? with
      | some s => .skip ⟨root, some ⟨k, s⟩, some (.within v ⟨k, s⟩ true)⟩
      | none => .done := by
  have hlt := (Tree.mem_ordinary.1 hi).1
  rw [Following.step, Following.turn, Option.bind_some,
    h.advance_eq hwf (Tree.visits_later t) h.nextSibling? hi (Nat.lt_trans hlt h.size_lt)]
  cases (t.reached k root i (t.later i)).head? <;> rfl

/-- It passes through the subtrees of these tops, with a step for each top and each node. -/
theorem yields_later (hi : i ∈ t.ordinary) {tops : List Nat} (htops : t.later i = tops) :
    Yields (Following.step v)
      ((t.reached k root i tops).length + ((t.reached k root i tops).flatMap t.subtree).length)
      ⟨root, some ⟨k, i⟩, none⟩
      (((t.reached k root i tops).flatMap t.subtree).map (Node.mk k)) := by
  have hstep := h.step_following_eq hwf root hi
  rw [htops] at hstep
  induction tops generalizing i with
  | nil => exact .done hstep
  | cons s rest ih =>
    rw [Tree.reached] at hstep ⊢
    split
    · next hbars =>
      rw [if_pos hbars] at hstep
      exact .done hstep
    · next hbars =>
      rw [if_neg hbars] at hstep
      obtain ⟨hs, hrest⟩ := (Tree.visits_later t).of_cons hwf hi htops
      have hafter := ih hs hrest (hrest ▸ h.step_following_eq hwf root hs)
      have hsteps := Yields.skip hstep ((h.yields_subtree s).following hafter)
      rw [List.flatMap_cons, List.length_append, List.map_append, List.length_cons]
      convert hsteps using 1
      omega

/-- From an ordinary node the walk backwards goes on with the last node below the first of the tops
before it that the root leaves. -/
theorem step_preceding_eq (hi : i ∈ t.ordinary) (top? : Option Node) :
    Preceding.step v ⟨root, some ⟨k, i⟩, top?, none⟩ =
      match (t.reached k root i (t.earlier i)).head? with
      | some s =>
        Preceding.visit v ⟨root, some ⟨k, s⟩, some ⟨k, s⟩, none⟩ (v.deepestLast v.bound ⟨k, s⟩)
      | none => .done := by
  have hlt := (Tree.mem_ordinary.1 hi).1
  rw [Preceding.step, Option.bind_some, h.advance_eq hwf (Tree.visits_earlier t)
    h.previousSibling? hi (Nat.lt_trans hlt h.size_lt)]
  cases (t.reached k root i (t.earlier i)).head? <;> rfl

/-- It passes through the subtrees of these tops backwards, with a step for each node. -/
theorem yields_earlier (hi : i ∈ t.ordinary) (top? : Option Node) {tops : List Nat}
    (htops : t.earlier i = tops) :
    Yields (Preceding.step v) ((t.reached k root i tops).flatMap t.subtree).length
      ⟨root, some ⟨k, i⟩, top?, none⟩
      (((t.reached k root i tops).flatMap fun s => (t.subtree s).reverse).map (Node.mk k)) := by
  have hstep := h.step_preceding_eq hwf root hi top?
  rw [htops] at hstep
  induction tops generalizing i top? with
  | nil => exact .done hstep
  | cons s rest ih =>
    rw [Tree.reached] at hstep ⊢
    split
    · next hbars =>
      rw [if_pos hbars] at hstep
      exact .done hstep
    · next hbars =>
      rw [if_neg hbars] at hstep
      obtain ⟨hs, hrest⟩ := (Tree.visits_earlier t).of_cons hwf hi htops
      have hbefore := ih hs (some ⟨k, s⟩) hrest (hrest ▸ h.step_preceding_eq hwf root hs _)
      have htop : Preceding.predecessor v (some ⟨k, s⟩) ⟨k, s⟩ = none := if_pos rfl
      rw [← htop] at hbefore
      have hsteps := (h.yields_subtree_reverse (Nat.le_refl s) (Tree.mem_ordinary.1 hs).1
        hbefore).of_step_eq hstep
      rw [List.flatMap_cons, List.flatMap_cons, List.length_append, List.map_append,
        Nat.add_comm]
      exact hsteps

end View.Presents

/-! ### From any node -/

namespace View.Presents

open Cursor

variable {v : View} {k i : Nat} {t : Tree} (h : v.Presents k t) (hwf : t.WellFormed)
  (hi : i < t.size) (root : Node)

include h hi

theorem anchor?_eq : v.anchor? ⟨k, i⟩ = some ⟨k, t.anchor i⟩ := by
  rw [anchor?, h.isAttached_eq, h.parent?]
  by_cases hk : (t.kind i).isChild = true
  · rw [Tree.anchor_of_isChild hk, hk]
    rfl
  · have hk : (t.kind i).isChild = false := by simpa using hk
    -- The document is a child by its kind, so there is an owner.
    have hzero : i ≠ 0 := by rintro rfl; cases hk
    obtain ⟨owner, ho⟩ := Tree.exists_parent? hi hzero
    rw [Tree.anchor_of_attached hk ho, hk, ho]
    rfl

include hwf

/-- The walk comes by what is beside an attribute or a namespace node, and by the subtrees after the
node. -/
theorem yields_following :
    Yields (Following.step v) ((t.topsAfter k root i).length + (t.axis k root .following i).length)
      (.start v ⟨k, i⟩ root) ((t.axis k root .following i).map (Node.mk k)) := by
  have hlater : Yields _ ((t.topsAfter k root i).length +
        ((t.topsAfter k root i).flatMap t.subtree).length) _
      (((t.topsAfter k root i).flatMap t.subtree).map (Node.mk k)) :=
    h.yields_later hwf root (Tree.anchor_mem_ordinary hwf hi) rfl
  rw [Following.start, h.anchor?_eq hi, h.isAttached_eq, Tree.axis, List.length_append,
    Nat.add_comm (t.besides i).length, ← Nat.add_assoc, List.map_append]
  by_cases hk : (t.kind i).isChild = true
  · have hbesides : t.besides i = [] := if_pos hk
    rw [hbesides, hk]
    exact hlater
  · have hbesides : t.besides i = (t.children (t.anchor i)).flatMap t.subtree := if_neg hk
    rw [hbesides, if_pos (by simp [hk])]
    exact (h.yields_children _).following hlater

theorem yields_preceding :
    Yields (Preceding.step v) (t.axis k root .preceding i).length (.start v ⟨k, i⟩ root)
      ((t.axis k root .preceding i).map (Node.mk k)) := by
  have hearlier := h.yields_earlier hwf root (Tree.anchor_mem_ordinary hwf hi) none rfl
  have hlength : (t.axis k root .preceding i).length =
      ((t.topsBefore k root i).flatMap t.subtree).length := by
    simp [Tree.axis, List.length_flatMap]
  rw [hlength, Preceding.start, h.anchor?_eq hi]
  exact hearlier

/-- The walk has enough steps. -/
theorem length_following_le :
    (t.topsAfter k root i).length + (t.axis k root .following i).length ≤ 2 * v.bound := by
  have hbound := h.size_lt
  have hlength := Tree.length_axis_le hwf hi k root .following
  have htops := length_le_length_flatMap t.subtree_ne_nil (t.topsAfter k root i)
  rw [Tree.axis, List.length_append] at hlength ⊢
  omega

theorem length_preceding_le : (t.axis k root .preceding i).length ≤ v.bound :=
  Nat.le_trans (Tree.length_axis_le hwf hi k root .preceding) (Nat.le_of_lt h.size_lt)

theorem following_eq :
    v.following ⟨k, i⟩ root = (t.axis k root .following i).map (Node.mk k) := by
  have hnodup := (Tree.nodup_axis hwf hi k root .following).map (Node.mk_injective (k := k))
  exact ((h.yields_following hwf hi root).unvisited_of_nodup hnodup).collect_eq
    (h.length_following_le hwf hi root)

theorem preceding_eq :
    v.preceding ⟨k, i⟩ root = (t.axis k root .preceding i).map (Node.mk k) := by
  have hnodup := (Tree.nodup_axis hwf hi k root .preceding).map (Node.mk_injective (k := k))
  exact ((h.yields_preceding hwf hi root).unvisited_of_nodup hnodup).collect_eq
    (h.length_preceding_le hwf hi root)

end View.Presents

/-! ### All axes -/

/-- The nodes on an axis, whatever view the walk follows the links of. -/
theorem View.Depicts.walk_eq {v : View} {k i : Nat} {t : Tree} (h : v.Depicts k t)
    (hwf : t.WellFormed) (hi : i < t.size) (root : Node) (axis : Axis) :
    v.walk axis ⟨k, i⟩ root = (t.axis k root axis i).map (Node.mk k) := by
  cases axis with
  | self => rfl
  | child => exact h.children_eq i
  | parent =>
    show (v.parent? ⟨k, i⟩).toList = (t.parent? i).toList.map (Node.mk k)
    rw [h.parent?]
    cases t.parent? i <;> rfl
  | «attribute» => exact h.attributes i
  | namespaceAxis => exact h.namespaces i
  | descendant => exact h.presents.descendants_eq i
  | descendantOrSelf => exact h.presents.descendantsOrSelf_eq i
  | ancestor => exact h.ancestors_eq hi
  | ancestorOrSelf =>
    show Node.mk k i :: v.ancestors ⟨k, i⟩ = (t.path i).map (Node.mk k)
    rw [h.ancestors_eq hi, ← List.map_cons, ← Tree.path_eq]
  | followingSibling => exact h.siblings_nextSibling?_eq i
  | precedingSibling => exact h.siblings_previousSibling?_eq i
  | following => exact h.presents.following_eq hwf hi root
  | preceding => exact h.presents.preceding_eq hwf hi root

/-! ### The order of walks -/

namespace Forest

variable {f : Forest} {v : View} {k i j : Nat} {t : Tree}
  (hv : v ∈ [f.indexed, f.structural, f.linked]) (ht : f[k]? = some t)

include hv ht

theorem view_depicts_of_mem : v.Depicts k t := by
  refine ⟨depicts_of_mem hv ht, ?_⟩
  simp only [List.mem_cons, List.not_mem_nil, or_false] at hv
  rcases hv with rfl | rfl | rfl
  · exact (presents_indexed ht).lastChild?
  · exact (presents_structural ht).lastChild?
  · exact (presents_linked ht).lastChild?

/-- Document order is the same in every view of a well-formed tree. -/
theorem order_eq_compareByAncestry (hwf : t.WellFormed) (hi : i < t.size) (hj : j < t.size) :
    v.order ⟨k, i⟩ ⟨k, j⟩ = v.compareByAncestry ⟨k, i⟩ ⟨k, j⟩ := by
  have h := depicts_of_mem hv ht
  rcases List.mem_cons.1 hv with rfl | hv
  · rw [order_indexed ht, h.compareByAncestry_eq hi hj, Tree.position_eq hwf hi,
      Tree.position_eq hwf hj]
  · rw [order_of_mem hv]

end Forest

end XPath
