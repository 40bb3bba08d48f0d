/-
Trees with other qualifiers.

A document chooses the qualifiers that its names are written with.  When the elements and attributes
of a tree are given others, whatever they are, every node keeps its local part, its namespace and
its place: the views of the tree differ in names only, and the axes and document order ask for
none.

* `Tree.requalified`, `Forest.requalified` — the trees with other qualifiers;
* `View.named` — a view with other names;
* `View.walk_named`, `View.sort_named` — axes and document order are those of the view;
* `Forest.views_requalified` — each view of the trees is the view before with other names.
-/
import XPath.Tree.Axis
import XPath.Tree.Forest
import XPath.Tree.Order

namespace XPath

/-! ### Trees -/

/-- What tests look at in the name of a node. -/
def NodeName.expanded (n : NodeName) : String × Option String := (n.localPart, n.uri)

/-- What a node holds, an element or attribute under a name with another qualifier. -/
def Content.requalified (qualifier : Option String) : Content → Content
  | .element name => .element { name with qualifier := qualifier }
  | .attribute name value => .attribute { name with qualifier := qualifier } value
  | content => content

namespace Content

variable (qualifier : Option String) (content : Content)

theorem kind_requalified : (content.requalified qualifier).kind = content.kind := by
  cases content <;> rfl

theorem expanded_requalified :
    (content.requalified qualifier).name?.map NodeName.expanded =
      content.name?.map NodeName.expanded := by
  cases content <;> rfl

end Content

namespace Tree

variable (qualifier : Nat → Option String) (t : Tree)

/-- A tree whose elements and attributes are named with the given qualifiers, by node. -/
def requalified : Tree where
  entries := t.entries.mapIdx fun i e =>
    { e with content := e.content.requalified (qualifier (i + 1)) }
  owner_le i h := by simpa using t.owner_le i (by simpa using h)

theorem size_requalified : (t.requalified qualifier).size = t.size := by
  unfold size requalified
  rw [Array.size_mapIdx]

theorem content?_requalified (i : Nat) :
    (t.requalified qualifier).content? i = (t.content? i).map (·.requalified (qualifier i)) := by
  cases i with
  | zero => rfl
  | succ i => simp [content?, requalified, Function.comp_def]

theorem parent?_requalified (i : Nat) : (t.requalified qualifier).parent? i = t.parent? i := by
  cases i with
  | zero => rfl
  | succ i => simp [parent?, requalified, Function.comp_def]

theorem kind_requalified (i : Nat) : (t.requalified qualifier).kind i = t.kind i := by
  rw [kind, kind, content?_requalified]
  cases t.content? i with
  | none => rfl
  | some content => exact content.kind_requalified _

theorem expanded_requalified (i : Nat) :
    ((t.requalified qualifier).name? i).map NodeName.expanded =
      (t.name? i).map NodeName.expanded := by
  rw [name?, name?, content?_requalified]
  cases t.content? i with
  | none => rfl
  | some content => exact content.expanded_requalified _

/-- A node owns the same nodes. -/
theorem owned_requalified : (t.requalified qualifier).owned = t.owned := by
  funext p i
  rw [owned, owned, size_requalified]
  simp only [parent?_requalified, kind_requalified]

theorem children_requalified : (t.requalified qualifier).children = t.children := by
  funext i
  rw [children, children, owned_requalified]

theorem attributes_requalified : (t.requalified qualifier).attributes = t.attributes := by
  funext i
  rw [attributes, attributes, owned_requalified]

theorem namespaces_requalified : (t.requalified qualifier).namespaces = t.namespaces := by
  funext i
  rw [namespaces, namespaces, owned_requalified]

theorem peers_requalified : (t.requalified qualifier).peers = t.peers := by
  funext i
  rw [peers, peers, parent?_requalified, kind_requalified, attributes_requalified,
    namespaces_requalified, children_requalified]

theorem textBelow_requalified (fuel i : Nat) :
    (t.requalified qualifier).textBelow fuel i = t.textBelow fuel i := by
  induction fuel generalizing i with
  | zero => rfl
  | succ fuel ih =>
    rw [textBelow, textBelow, content?_requalified, children_requalified, funext ih]
    cases t.content? i with
    | none => rfl
    | some content => cases content <;> rfl

theorem stringValue_requalified (i : Nat) :
    (t.requalified qualifier).stringValue i = t.stringValue i := by
  rw [stringValue, stringValue, content?_requalified, size_requalified, textBelow_requalified]
  cases t.content? i with
  | none => rfl
  | some content => cases content <;> rfl

theorem opening_requalified : (t.requalified qualifier).opening = t.opening := by
  funext i
  rw [opening, opening, namespaces_requalified, attributes_requalified]

theorem run_requalified (fuel : Nat) (s : Numbering) :
    Numbering.run (t.requalified qualifier) fuel s = Numbering.run t fuel s := by
  have hstep : Numbering.step (t.requalified qualifier) = Numbering.step t := by
    funext s
    rw [Numbering.step, Numbering.step, opening_requalified, children_requalified]
  induction fuel generalizing s with
  | zero => rfl
  | succ fuel ih => rw [Numbering.run, Numbering.run, hstep, funext ih]

theorem places_requalified : (t.requalified qualifier).places = t.places := by
  rw [places, places, size_requalified, run_requalified]

/-- The rows of the nodes are the same. -/
theorem row_requalified (i : Nat) :
    (Layout.of (t.requalified qualifier)).row i = (Layout.of t).row i := by
  rw [Layout.row_of, Layout.row_of, Row.of, Row.of, places_requalified,
    children_requalified, attributes_requalified, namespaces_requalified, nextPeer, nextPeer,
    previousPeer, previousPeer, peers_requalified]

end Tree

/-! ### Views with other names -/

namespace View

variable (v : View) (name? : Node → Option NodeName)

/-- A view with other names of nodes. -/
def named : View := { v with name? := name? }

theorem climb_named (top : Node) (fuel : Nat) :
    (v.named name?).climb top fuel = v.climb top fuel := by
  funext n
  induction fuel generalizing n with
  | zero => rfl
  | succ fuel ih =>
    simp only [climb, ih]
    rfl

theorem step_descendants_named :
    Cursor.Descendants.step (v.named name?) = Cursor.Descendants.step v := by
  have hsuccessor : (v.named name?).successor = v.successor := by
    funext top n
    simp only [successor, climb_named]
    rfl
  unfold Cursor.Descendants.step
  rw [hsuccessor]

theorem descendants_named : (v.named name?).descendants = v.descendants := by
  unfold descendants
  rw [step_descendants_named]
  rfl

theorem advance_named (link : Node → Option Node) (root : Node) (fuel : Nat) :
    (v.named name?).advance link root fuel = v.advance link root fuel := by
  funext n
  induction fuel generalizing n with
  | zero => rfl
  | succ fuel ih =>
    simp only [advance, ih]
    rfl

theorem step_following_named :
    Cursor.Following.step (v.named name?) = Cursor.Following.step v := by
  have hturn : Cursor.Following.turn (v.named name?) = Cursor.Following.turn v := by
    funext c
    simp only [Cursor.Following.turn, advance_named]
    rfl
  unfold Cursor.Following.step
  rw [hturn, step_descendants_named]

theorem deepestLast_named (fuel : Nat) : (v.named name?).deepestLast fuel = v.deepestLast fuel := by
  funext n
  induction fuel generalizing n with
  | zero => rfl
  | succ fuel ih =>
    simp only [deepestLast, ih]
    rfl

theorem step_preceding_named :
    Cursor.Preceding.step (v.named name?) = Cursor.Preceding.step v := by
  funext c
  simp only [Cursor.Preceding.step, Cursor.Preceding.visit, Cursor.Preceding.predecessor,
    advance_named, deepestLast_named]
  rfl

/-- The axes lead to the same nodes. -/
theorem walk_named (axis : Axis) (n root : Node) :
    (v.named name?).walk axis n root = v.walk axis n root := by
  cases axis
  case descendant => exact congrFun (descendants_named v name?) n
  case descendantOrSelf =>
    rw [walk, walk, descendantsOrSelf, descendantsOrSelf, step_descendants_named]
    rfl
  case following =>
    rw [walk, walk, following, following, step_following_named]
    rfl
  case preceding =>
    rw [walk, walk, preceding, preceding, step_preceding_named]
    rfl
  all_goals rfl

/-- Nodes are sorted as before. -/
theorem sort_named : (v.named name?).sort = v.sort := by
  have hinsert : (v.named name?).insertBackward = v.insertBackward := by
    funext n nodes
    induction nodes with
    | nil => rfl
    | cons m rest ih =>
      rw [insertBackward, insertBackward, ih]
      rfl
  unfold sort
  rw [hinsert]

end View

namespace Links

variable (l : Links) (name? : Node → Option NodeName)

theorem comparePaths_named (shared : Option Node) (as bs : List Node) :
    comparePaths { l with name? := name? } shared as bs = l.comparePaths shared as bs := by
  induction as generalizing shared bs with
  | nil => cases shared <;> cases bs <;> rfl
  | cons a as ih =>
    cases bs with
    | nil => cases shared <;> rfl
    | cons b bs =>
      cases shared with
      | none => simp only [comparePaths, ih]
      | some n =>
        simp only [comparePaths, ih]
        rfl

/-- The view that follows links follows the same ones. -/
theorem toView_named : toView { l with name? := name? } = l.toView.named name? := by
  have horder : compareByAncestry { l with name? := name? } = l.compareByAncestry := by
    funext a b
    rw [compareByAncestry, compareByAncestry, comparePaths_named]
    rfl
  unfold toView View.named
  rw [horder]
  rfl

end Links

/-! ### Forests -/

namespace Forest

variable (qualifier : Node → Option String) (f : Forest)

/-- Trees whose elements and attributes are named with the given qualifiers, by node. -/
def requalified : Forest := f.mapIdx fun k t => t.requalified fun i => qualifier ⟨k, i⟩

/-- The layout of the tree that a node is in is worked out from the tree with other qualifiers. -/
theorem layoutOf_requalified (n : Node) :
    ∃ (q : Nat → Option String) (t : Tree), layoutOf f.layouts n = Layout.of t ∧
      layoutOf (f.requalified qualifier).layouts n = Layout.of (t.requalified q) := by
  unfold layoutOf layouts requalified
  cases ht : f[n.tree]? with
  | none =>
    refine ⟨fun _ => none, Tree.empty, by simp [ht], ?_⟩
    have hempty : Tree.empty.requalified (fun _ => none) = Tree.empty := rfl
    simp [ht, hempty]
  | some t => exact ⟨_, t, by simp [ht], by simp [ht]; rfl⟩

section Layouts

variable (n : Node) (i : Nat)

theorem kind_layoutOf_requalified :
    (layoutOf (f.requalified qualifier).layouts n).tree.kind i =
      (layoutOf f.layouts n).tree.kind i := by
  obtain ⟨q, t, ht, ht'⟩ := layoutOf_requalified qualifier f n
  rw [ht, ht']
  exact t.kind_requalified q i

theorem stringValue_layoutOf_requalified :
    (layoutOf (f.requalified qualifier).layouts n).tree.stringValue i =
      (layoutOf f.layouts n).tree.stringValue i := by
  obtain ⟨q, t, ht, ht'⟩ := layoutOf_requalified qualifier f n
  rw [ht, ht']
  exact t.stringValue_requalified q i

theorem parent?_layoutOf_requalified :
    (layoutOf (f.requalified qualifier).layouts n).tree.parent? i =
      (layoutOf f.layouts n).tree.parent? i := by
  obtain ⟨q, t, ht, ht'⟩ := layoutOf_requalified qualifier f n
  rw [ht, ht']
  exact t.parent?_requalified q i

theorem row_layoutOf_requalified :
    (layoutOf (f.requalified qualifier).layouts n).row i = (layoutOf f.layouts n).row i := by
  obtain ⟨q, t, ht, ht'⟩ := layoutOf_requalified qualifier f n
  rw [ht, ht', t.row_requalified q]

end Layouts

/-- Every node keeps its local part and its namespace. -/
theorem expanded_requalified (n : Node) :
    ((f.requalified qualifier).links.name? n).map NodeName.expanded =
      (f.links.name? n).map NodeName.expanded := by
  obtain ⟨q, t, ht, ht'⟩ := layoutOf_requalified qualifier f n
  show ((layoutOf (f.requalified qualifier).layouts n).tree.name? n.id).map NodeName.expanded =
    ((layoutOf f.layouts n).tree.name? n.id).map NodeName.expanded
  rw [ht, ht']
  exact t.expanded_requalified q n.id

/-- The trees are as large as before. -/
theorem bound_requalified : (f.requalified qualifier).links.bound = f.links.bound := by
  have hbound : ∀ f : Forest, f.links.bound = (f.map Tree.size).foldl (· + ·) 1 := fun f => by
    rw [List.foldl_map]
    simp [links, linksOf, layouts, Layout.of, List.foldl_map]
  have hsizes : (f.requalified qualifier).map Tree.size = f.map Tree.size := by
    unfold requalified
    refine List.ext_getElem? fun k => ?_
    simp [Tree.size_requalified, Function.comp_def]
  rw [hbound, hbound, hsizes]

/-- The links of the trees are those before, with other names. -/
theorem linksOf_requalified :
    linksOf (f.requalified qualifier).layouts =
      { linksOf f.layouts with name? := (f.requalified qualifier).links.name? } := by
  have hbound : (f.requalified qualifier).layouts.foldl (fun total l => total + l.tree.size) 1 =
      f.layouts.foldl (fun total l => total + l.tree.size) 1 := bound_requalified qualifier f
  unfold links linksOf
  simp only [hbound, kind_layoutOf_requalified, stringValue_layoutOf_requalified,
    parent?_layoutOf_requalified, row_layoutOf_requalified]

/-- Each view of the trees is the view before, with names of the same local parts and
namespaces. -/
theorem views_requalified {view : Forest → View}
    (h : view ∈ [indexed, structural, withoutNamespaces, linked]) :
    ∃ name?, view (f.requalified qualifier) = (view f).named name? ∧
      ∀ n, (name? n).map NodeName.expanded = ((view f).name? n).map NodeName.expanded := by
  have hlinks := linksOf_requalified qualifier f
  simp only [List.mem_cons, List.not_mem_nil, or_false] at h
  refine ⟨(f.requalified qualifier).links.name?, ?_, fun n => ?_⟩
  · rcases h with rfl | rfl | rfl | rfl
    · unfold indexed
      simp only [hlinks, row_layoutOf_requalified]
      rfl
    · unfold structural links
      rw [hlinks, ← Links.toView_named]
    · unfold withoutNamespaces links
      rw [hlinks, ← Links.toView_named]
    · unfold linked
      simp only [hlinks, row_layoutOf_requalified]
      rw [← Links.toView_named]
  · rcases h with rfl | rfl | rfl | rfl <;> exact expanded_requalified qualifier f n

end Forest

end XPath
