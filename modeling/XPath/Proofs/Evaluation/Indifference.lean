/-
Results do not depend on the view.

The views of a forest find document order and last children in different ways, and one of them links
the attributes and the namespace nodes of an element to each other.  Of a well-formed tree they show
the same: the same kinds, names and texts, the same order and, on every axis, the same nodes.  So an
evaluation that stays in the tree comes to the same result in all of them.

* `Forest.Shows` — the views that leave out nothing of a tree;
* `Forest.Shows.alike` — they show the same of it;
* `View.Alike.ofNode_eq`, `View.Alike.setting_eq` — and make the same of requests about it;
* `views_indifferent` — every expression has the same results in each of them.
-/
import XPath.Proofs.Evaluation.Uniqueness
import XPath.Proofs.Tree.Walks
import XPath.Query.Engine
import XPath.Syntax.Build

namespace XPath

/-- The nodes of the tree that has number `k` in a forest. -/
def Tree.HasAt (t : Tree) (k : Nat) (n : Node) : Prop := n.tree = k ∧ n.id < t.size

/-! ### What views show -/

/-- The views that leave out nothing of a tree. -/
inductive Forest.Shows (f : Forest) (t : Tree) : View → Prop
  | indexed : Shows f t f.indexed
  | structural : Shows f t f.structural
  | linked : Shows f t f.linked
  /-- Nothing is missing from the view without namespace nodes if the tree has none. -/
  | withoutNamespaces (h : ∀ i < t.size, t.kind i ≠ .namespaceNode) : Shows f t f.withoutNamespaces

theorem Tree.namespaces_eq_nil {t : Tree} (h : ∀ i < t.size, t.kind i ≠ .namespaceNode) (i : Nat) :
    t.namespaces i = [] := by
  refine List.eq_nil_iff_forall_not_mem.2 fun j hj => ?_
  obtain ⟨hparent, hkind⟩ := Tree.mem_owned.1 hj
  exact h j (Tree.lt_size_of_parent? hparent) (beq_iff_eq.1 hkind)

namespace Forest.Shows

variable {f : Forest} {v w : View} {k : Nat} {t : Tree} (hv : f.Shows t v) (ht : f[k]? = some t)

include hv ht

theorem depicts : v.Depicts k t := by
  cases hv with
  | indexed => exact view_depicts_of_mem (by simp) ht
  | structural => exact view_depicts_of_mem (by simp) ht
  | linked => exact view_depicts_of_mem (by simp) ht
  | withoutNamespaces h =>
    exact
      { presents_withoutNamespaces ht with
        attributes := (depicts_links ht).attributes
        namespaces := fun i => by rw [Tree.namespaces_eq_nil h i]; rfl }

theorem name?_eq (i : Nat) : v.name? ⟨k, i⟩ = t.name? i := by
  have hname : (layoutOf f.layouts ⟨k, i⟩).tree.name? i = t.name? i := by
    rw [layoutOf_eq ht]
    rfl
  cases hv <;> exact hname

theorem stringValue_eq (i : Nat) : v.stringValue ⟨k, i⟩ = t.stringValue i := by
  have hvalue : (layoutOf f.layouts ⟨k, i⟩).tree.stringValue i = t.stringValue i := by
    rw [layoutOf_eq ht]
    rfl
  cases hv <;> exact hvalue

/-- Nodes are ordered as by their paths. -/
theorem order_eq (hwf : t.WellFormed) {i j : Nat} (hi : i < t.size) (hj : j < t.size) :
    v.order ⟨k, i⟩ ⟨k, j⟩ = v.compareByAncestry ⟨k, i⟩ ⟨k, j⟩ := by
  cases hv with
  | indexed => exact order_eq_compareByAncestry (by simp) ht hwf hi hj
  | structural => rfl
  | linked => rfl
  | withoutNamespaces => rfl

/-- Two views that leave out nothing of a well-formed tree show the same of it. -/
theorem alike (hw : f.Shows t w) (hwf : t.WellFormed) : v.Alike w (t.HasAt k) := by
  have dv := hv.depicts ht
  have dw := hw.depicts ht
  constructor
  case kind =>
    rintro ⟨_, i⟩ ⟨rfl, -⟩
    rw [dv.kind, dw.kind]
  case name? =>
    rintro ⟨_, i⟩ ⟨rfl, -⟩
    rw [hv.name?_eq ht, hw.name?_eq ht]
  case stringValue =>
    rintro ⟨_, i⟩ ⟨rfl, -⟩
    rw [hv.stringValue_eq ht, hw.stringValue_eq ht]
  case order =>
    rintro ⟨_, i⟩ ⟨_, j⟩ ⟨rfl, hi⟩ ⟨hk, hj⟩
    obtain rfl : _ = _ := hk
    rw [hv.order_eq ht hwf hi hj, hw.order_eq ht hwf hi hj, dv.compareByAncestry_eq hi hj,
      dw.compareByAncestry_eq hi hj]
  case walk =>
    rintro axis ⟨_, i⟩ root ⟨rfl, hi⟩ -
    rw [dv.walk_eq hwf hi, dw.walk_eq hwf hi]
  case known_walk =>
    rintro axis ⟨_, i⟩ root m ⟨rfl, hi⟩ - hm
    rw [dv.walk_eq hwf hi] at hm
    obtain ⟨j, hj, rfl⟩ := List.mem_map.1 hm
    exact ⟨rfl, Tree.lt_size_of_mem_axis hwf hi _ root hj⟩

end Forest.Shows

/-! ### Requests -/

namespace View.Alike

variable {v w : View} {Known : Node → Prop} (h : v.Alike w Known) {n : Node} (hn : Known n)

include h hn

theorem known_cons_ancestors : ∀ m ∈ n :: v.ancestors n, Known m :=
  List.forall_mem_cons.2 ⟨hn, fun _ hm => h.known_ancestors hn hm⟩

/-- A node has the same document. -/
theorem document_eq : v.document n = w.document n ∧ Known (v.document n) := by
  refine ⟨?_, h.known_cons_ancestors hn _ List.getLastD_mem_cons⟩
  rw [Links.document, Links.document, h.ancestors_eq hn]

/-- A node is in the scope of the same element. -/
theorem scope_eq :
    Namespaces.scope v.toLinks n = Namespaces.scope w.toLinks n ∧
      Known (Namespaces.scope v.toLinks n) := by
  have hknown := h.known_cons_ancestors hn
  obtain ⟨hdocument, hdocument'⟩ := h.document_eq hn
  rw [Namespaces.scope, Namespaces.scope, ← h.ancestors_eq hn, ← hdocument,
    List.find?_congr fun m hm => (h.isElement_eq (hknown m hm)).symm]
  refine ⟨rfl, ?_⟩
  cases hm : (n :: v.ancestors n).find? v.isElement with
  | none => exact hdocument'
  | some m => exact hknown m (List.mem_of_find?_eq_some hm)

/-- The namespace nodes of an element bind the same. -/
theorem ofNode_eq : Namespaces.ofNode v.toLinks n = Namespaces.ofNode w.toLinks n := by
  obtain ⟨hscope, hknown⟩ := h.scope_eq hn
  have hnamespaces : v.namespaces (Namespaces.scope v.toLinks n) =
      w.namespaces (Namespaces.scope v.toLinks n) := h.walk .namespaceAxis hknown hknown
  have hmember : ∀ m ∈ v.namespaces (Namespaces.scope v.toLinks n), Known m :=
    fun m hm => h.known_walk .namespaceAxis hknown hknown hm
  funext qualifier?
  cases qualifier? with
  | none => rfl
  | some qualifier =>
    have hdeclares : ∀ m ∈ v.namespaces (Namespaces.scope v.toLinks n),
        ((v.name? m).any fun name => name.localPart == qualifier) =
          ((w.name? m).any fun name => name.localPart == qualifier) := fun m hm => by
      rw [h.name? (hmember m hm)]
    rw [Namespaces.ofNode, Namespaces.ofNode, ← hscope, ← hnamespaces]
    refine if_congr Iff.rfl rfl ?_
    dsimp only
    rw [List.find?_congr hdeclares]
    refine Option.map_congr fun m hm => ?_
    exact h.stringValue (hmember m (List.mem_of_find?_eq_some hm))

end View.Alike

/-- A target makes the same setting of an engine in both views. -/
theorem View.Alike.setting_eq {v w : View} {Known : Node → Prop} (h : v.Alike w Known) {n : Node}
    (hn : Known n) (root? : Option Node) (namespaces : Namespaces) (e : Engine) :
    Target.setting ⟨w, n, root?, namespaces⟩ e =
      { Target.setting ⟨v, n, root?, namespaces⟩ e with view := w } := by
  unfold Target.setting
  dsimp only
  rw [(h.document_eq hn).1]

/-- Requests end alike if the expressions, of which compiling only adds to the cache, do. -/
theorem Engine.evaluate_congr {s : SyntaxTree} {target target' : Target} {shape : Shape}
    {engine : Engine}
    (h : ∀ (cache : Cache) (e : Expr),
      shape.evaluate (target.interpretation { engine with cache := cache }) e target.node =
        shape.evaluate (target'.interpretation { engine with cache := cache }) e target'.node) :
    (Engine.evaluate s target shape).run engine = (Engine.evaluate s target' shape).run engine := by
  have hcompile : (Engine.compile s).run engine = ((engine.cache.compile s).1,
      { engine with cache := (engine.cache.compile s).2 }) := rfl
  rw [Engine.evaluate, Engine.evaluate, StateT.run_bind, StateT.run_bind, hcompile]
  cases (engine.cache.compile s).1 with
  | error e => rfl
  | ok compiled => exact congrArg (fun x => (Outcome.ofEval x, _)) (h _ compiled.expr)

/-- What an evaluation starts from is in a tree, no node twice. -/
structure Setting.Within (σ : Setting) (t : Tree) (k : Nat) : Prop where
  document : t.HasAt k σ.document
  root : t.HasAt k σ.root
  bindings : ∀ p ∈ σ.bindings, p.2.Unique ∧ p.2.Among (t.HasAt k)

/-- Two views that leave out nothing of a well-formed tree share settings in it. -/
theorem Setting.Within.shared {f : Forest} {v w : View} {k : Nat} {t : Tree} {σ : Setting}
    (h : σ.Within t k) (ht : f[k]? = some t) (hwf : t.WellFormed) (hv : f.Shows t v)
    (hw : f.Shows t w) : Setting.Shared { σ with view := v } w (t.HasAt k) where
  alike := hv.alike ht hw hwf
  document := h.document
  root := h.root
  nodup_descendants := by
    obtain ⟨hk, -⟩ := h.document
    show (v.descendants ⟨σ.document.tree, σ.document.id⟩).Nodup
    rw [hk]
    exact (hv.depicts ht).presents.nodup_descendants _
  bindings := h.bindings

/-- With the core functions, every expression has the same value and the same truth in all views
that leave out nothing of a well-formed tree, or fails with the same error and the same log, in
every context and with everything from that tree.  So the requests of an engine end alike and leave
it alike, for every kind of result, and the namespace nodes of an element bind the same. -/
theorem views_indifferent {f : Forest} {k : Nat} {t : Tree} (ht : f[k]? = some t)
    (hwf : t.WellFormed) {v w : View} (hv : f.Shows t v) (hw : f.Shows t w) :
    (∀ σ : Setting, σ.Within t k → ∀ (e : Expr) (c : Context), t.HasAt k c.node →
      let left := e.meaning (.standard Registry.core.library { σ with view := v })
      let right := e.meaning (.standard Registry.core.library { σ with view := w })
      left.value c = right.value c ∧ left.truth c = right.truth c) ∧
    (∀ engine : Engine, engine.library = Registry.core.library →
      (∀ p ∈ engine.bindings, p.2.Unique ∧ p.2.Among (t.HasAt k)) →
      ∀ (s : SyntaxTree) (n : Node) (root? : Option Node) (namespaces : Namespaces) (shape : Shape),
      t.HasAt k n → (∀ root ∈ root?, t.HasAt k root) →
      (Engine.evaluate s ⟨v, n, root?, namespaces⟩ shape).run engine =
        (Engine.evaluate s ⟨w, n, root?, namespaces⟩ shape).run engine) ∧
    ∀ n, t.HasAt k n → Namespaces.ofNode v.toLinks n = Namespaces.ofNode w.toLinks n := by
  have halike := hv.alike ht hw hwf
  refine ⟨?_, ?_, fun n hn => halike.ofNode_eq hn⟩
  · intro σ hσ e c hn
    have h := hσ.shared ht hwf hv hw
    have hc : (Accord.agreement h).Contexts (fun _ => True) c c := by
      refine ⟨rfl, hn, rfl, fun s _ => ⟨rfl, ?_⟩⟩
      cases c.size s <;> simp [Ends]
    have hm := Expr.agree h e
    exact ⟨(hm.value hc).eq, (hm.truth hc).eq⟩
  · intro engine hlibrary hbindings s n root? namespaces shape hn hroot
    have hdocument := (halike.document_eq hn).2
    refine Engine.evaluate_congr fun cache e => ?_
    have hσ : Setting.Within
        (Target.setting ⟨v, n, root?, namespaces⟩ { engine with cache := cache }) t k := by
      refine ⟨hdocument, ?_, hbindings⟩
      show t.HasAt k (root?.getD (v.document n))
      cases root? with
      | none => exact hdocument
      | some root => exact hroot root rfl
    have hagree := Shape.evaluate_agree (hσ.shared ht hwf hv hw) (J := fun _ => True) shape e hn
    unfold Target.interpretation
    rw [halike.setting_eq hn]
    dsimp only
    rw [hlibrary]
    exact hagree.eq

/-- An engine with a variable made from a list that has the first paragraph of the sample twice. -/
def Engine.ofSample : Engine := Engine.new.withVariable "v" (.ofNodes [⟨0, 1⟩, ⟨0, 8⟩, ⟨0, 1⟩])

/-- The siblings that come after attributes of the nodes that a variable has. -/
def Expr.besideAttributes : Expr :=
  .path (.filter (.variableReference "v") [])
    [⟨.attribute, .nodeType .node, []⟩, ⟨.followingSibling, .nodeType .node, []⟩]

/-- The two attributes of the first paragraph of the sample are linked as siblings in one view only.
There are no namespace nodes that a view could leave out. -/
theorem views_indifferent_sample :
    Tree.sample.WellFormed ∧
    (Forest.indexed [.sample]).nextSibling? ⟨0, 2⟩ = none ∧
    (Forest.linked [.sample]).nextSibling? ⟨0, 2⟩ = some ⟨0, 3⟩ ∧
    (∀ i < Tree.sample.size, Tree.sample.kind i ≠ .namespaceNode) ∧
    Setting.ofSample.Within .sample 0 ∧
    (Expr.besideAttributes.meaning (.standard Registry.core.library
        { Setting.ofSample with view := Forest.indexed [.sample] })).value (.alone ⟨0, 0⟩) =
      (Expr.besideAttributes.meaning (.standard Registry.core.library
        { Setting.ofSample with view := Forest.linked [.sample] })).value (.alone ⟨0, 0⟩) ∧
    (Engine.evaluate (.variableReference "v") ⟨Forest.indexed [.sample], ⟨0, 3⟩, none, .none⟩
        .first).run .ofSample =
      (Engine.evaluate (.variableReference "v") ⟨Forest.linked [.sample], ⟨0, 3⟩, none, .none⟩
        .first).run .ofSample ∧
    Namespaces.ofNode (Forest.linked [.sample]).toLinks ⟨0, 3⟩ =
      Namespaces.ofNode (Forest.withoutNamespaces [.sample]).toLinks ⟨0, 3⟩ := by
  have hwf : Tree.sample.WellFormed := by decide
  have hnone : ∀ i < Tree.sample.size, Tree.sample.kind i ≠ .namespaceNode := by decide
  have hbindings : ∀ p ∈ Setting.ofSample.bindings,
      p.2.Unique ∧ p.2.Among (Tree.sample.HasAt 0) := by
    rintro p (_ | ⟨_, ⟨⟩⟩)
    refine ⟨Value.unique_ofNodes _, Value.among_ofNodes ?_⟩
    unfold Tree.HasAt
    decide
  have hσ : Setting.ofSample.Within .sample 0 :=
    ⟨⟨rfl, by decide⟩, ⟨rfl, by decide⟩, hbindings⟩
  obtain ⟨hmeaning, hengine, -⟩ :=
    views_indifferent (f := [.sample]) (k := 0) rfl hwf .indexed .linked
  obtain ⟨-, -, hofNode⟩ :=
    views_indifferent (f := [.sample]) (k := 0) rfl hwf .linked (.withoutNamespaces hnone)
  refine ⟨hwf, by decide, by decide +kernel, hnone, hσ, (hmeaning _ hσ _ _ ⟨rfl, by decide⟩).1, ?_,
    hofNode _ ⟨rfl, by decide⟩⟩
  exact hengine .ofSample rfl hbindings _ _ _ _ _ ⟨rfl, by decide⟩ (by simp)

end XPath
