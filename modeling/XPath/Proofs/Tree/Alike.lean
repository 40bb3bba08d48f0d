/-
Views that show the same.

An evaluation asks a view about the nodes that it has come by, and comes by further nodes along the
axes from those.  So two views are the same to it as soon as they answer alike about some nodes and
the axes do not lead away from these.

* `View.Alike` — two views that show the same of some nodes;
* `View.Alike.sort_eq`, `View.Alike.first?_eq` — the order of known nodes;
* `View.Alike.toText_eq` — the text of a set of known nodes.
-/
import XPath.Tree.Axis
import XPath.Value.Basic

namespace XPath

/-- Two views that show the same of known nodes, from which the axes lead to known nodes only. -/
structure View.Alike (v w : View) (Known : Node → Prop) : Prop where
  kind : ∀ {n}, Known n → v.kind n = w.kind n
  name? : ∀ {n}, Known n → v.name? n = w.name? n
  stringValue : ∀ {n}, Known n → v.stringValue n = w.stringValue n
  order : ∀ {a b}, Known a → Known b → v.order a b = w.order a b
  walk : ∀ (axis : Axis) {n root}, Known n → Known root → v.walk axis n root = w.walk axis n root
  known_walk : ∀ (axis : Axis) {n root m}, Known n → Known root → m ∈ v.walk axis n root → Known m

namespace View.Alike

variable {v w : View} {Known : Node → Prop}

/-- To a view itself all nodes may count as known. -/
theorem refl (v : View) : v.Alike v fun _ => True where
  kind _ := rfl
  name? _ := rfl
  stringValue _ := rfl
  order _ _ := rfl
  walk _ _ _ _ _ := rfl
  known_walk _ _ _ _ _ _ _ := trivial

variable (h : v.Alike w Known) {n m : Node} {nodes : List Node}

include h

/-! ### Single nodes -/

theorem isElement_eq (hn : Known n) : v.isElement n = w.isElement n := by
  rw [Links.isElement, Links.isElement, h.kind hn]

theorem isAttribute_eq (hn : Known n) : v.isAttribute n = w.isAttribute n := by
  rw [Links.isAttribute, Links.isAttribute, h.kind hn]

theorem attributes_eq (hn : Known n) : v.attributes n = w.attributes n := h.walk .attribute hn hn

theorem known_attributes (hn : Known n) (hm : m ∈ v.attributes n) : Known m :=
  h.known_walk .attribute hn hn hm

theorem ancestors_eq (hn : Known n) : v.ancestors n = w.ancestors n := h.walk .ancestor hn hn

theorem known_ancestors (hn : Known n) (hm : m ∈ v.ancestors n) : Known m :=
  h.known_walk .ancestor hn hn hm

theorem descendants_eq (hn : Known n) : v.descendants n = w.descendants n :=
  h.walk .descendant hn hn

theorem known_descendants (hn : Known n) (hm : m ∈ v.descendants n) : Known m :=
  h.known_walk .descendant hn hn hm

/-! ### Document order -/

section Order

variable (hnodes : ∀ m ∈ nodes, Known m)

include hnodes

theorem insertBackward_eq (hn : Known n) : v.insertBackward n nodes = w.insertBackward n nodes := by
  induction nodes with
  | nil => rfl
  | cons m rest ih =>
    obtain ⟨hm, hrest⟩ := List.forall_mem_cons.1 hnodes
    rw [View.insertBackward, View.insertBackward, h.order hn hm, ih hrest]

theorem sort_eq : v.sort nodes = w.sort nodes := by
  -- The nodes that have been put in are known as well.
  have fold : ∀ sorted : List Node, (∀ m ∈ sorted, Known m) →
      nodes.foldl (fun sorted n => v.insertBackward n sorted) sorted =
        nodes.foldl (fun sorted n => w.insertBackward n sorted) sorted := by
    induction nodes with
    | nil => exact fun _ _ => rfl
    | cons n rest ih =>
      obtain ⟨hn, hrest⟩ := List.forall_mem_cons.1 hnodes
      intro sorted hsorted
      have hinserted : ∀ m ∈ w.insertBackward n sorted, Known m := fun m hm =>
        List.forall_mem_cons.2 ⟨hn, hsorted⟩ m ((w.insertBackward_perm n sorted).mem_iff.1 hm)
      rw [List.foldl_cons, List.foldl_cons, h.insertBackward_eq hsorted hn, ih hrest _ hinserted]
  rw [View.sort, View.sort, fold [] fun _ hm => nomatch hm]

/-- Either view finds the same first node, and it is a known one. -/
theorem first?_eq : v.first? nodes = w.first? nodes ∧ ∀ m ∈ v.first? nodes, Known m := by
  cases nodes with
  | nil => exact ⟨rfl, fun _ hm => nomatch hm⟩
  | cons n rest =>
    obtain ⟨hn, hrest⟩ := List.forall_mem_cons.1 hnodes
    have fold : ∀ best, Known best →
        rest.foldl (fun best m => if v.order best m = .gt then m else best) best =
          rest.foldl (fun best m => if w.order best m = .gt then m else best) best ∧
        Known (rest.foldl (fun best m => if v.order best m = .gt then m else best) best) := by
      induction rest with
      | nil => exact fun best hbest => ⟨rfl, hbest⟩
      | cons m rest ih =>
        obtain ⟨hm, hrest⟩ := List.forall_mem_cons.1 hrest
        intro best hbest
        rw [List.foldl_cons, List.foldl_cons, ← h.order hbest hm]
        refine ih (List.forall_mem_cons.2 ⟨hn, hrest⟩) hrest _ ?_
        split
        · exact hm
        · exact hbest
    obtain ⟨heq, hknown⟩ := fold n hn
    refine ⟨congrArg some heq, ?_⟩
    rintro m ⟨⟩
    exact hknown

end Order

/-- Sets of known nodes have the same text. -/
theorem toText_eq {s : NodeSet} (hs : ∀ n ∈ s.nodes, Known n) : s.toText v = s.toText w := by
  obtain ⟨heq, hknown⟩ := h.first?_eq hs
  rw [NodeSet.toText, NodeSet.toText, NodeSet.first?, NodeSet.first?, ← heq]
  cases hm : v.first? s.nodes with
  | none => rfl
  | some m => exact h.stringValue (hknown m hm)

end View.Alike

end XPath
