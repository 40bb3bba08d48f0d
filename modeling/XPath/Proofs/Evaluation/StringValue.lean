/-
String-values and the descendants of a node.

The text of the document or of an element is collected from child to child, while a walk lists all
that is below a node.  Where only the document and elements own nodes, nothing that is collected is
out of the way of the walk, and nothing else that the walk comes by is text.

* `Tree.ElementsOwn` — only the document and elements own nodes;
* `Tree.texts` — the text and CDATA nodes of a subtree;
* `Tree.textBelow_eq` — the text that is collected is theirs;
* `Tree.stringValue_eq_children` — it is put together from the children;
* `Expr.gives_step` — what a path of one step without predicates selects;
* `stringValue_eq_join` — string-values and walks.
-/
import XPath.Proofs.Evaluation.Laziness
import XPath.Proofs.Tree.Ranking

namespace XPath

theorem join_flatMap {α : Type} (f : α → List String) (xs : List α) :
    String.join (xs.flatMap f) = String.join (xs.map fun x => String.join (f x)) := by
  induction xs with
  | nil => rfl
  | cons x xs ih => rw [List.flatMap_cons, String.join_append, ih, List.map_cons, String.join_cons]

theorem join_map_filter {α : Type} {p : α → Bool} {f g : α → String} {xs : List α}
    (h : ∀ x ∈ xs, g x = if p x then f x else "") :
    String.join (xs.map g) = String.join ((xs.filter p).map f) := by
  induction xs with
  | nil => rfl
  | cons x xs ih =>
    obtain ⟨hx, hxs⟩ := List.forall_mem_cons.1 h
    rw [List.map_cons, String.join_cons, hx, ih hxs]
    by_cases hp : p x = true
    · rw [if_pos hp, List.filter_cons_of_pos hp, List.map_cons, String.join_cons]
    · rw [if_neg hp, List.filter_cons_of_neg hp, String.empty_append]

namespace Tree

variable {t : Tree} {i c : Nat}

/-- Only the document and elements own nodes. -/
def ElementsOwn (t : Tree) : Prop :=
  ∀ i owner, t.parent? i = some owner → t.kind owner = .root ∨ t.kind owner = .element

instance : Decidable t.ElementsOwn :=
  decidable_of_iff
    (∀ i < t.size, ∀ owner ∈ t.parent? i, t.kind owner = .root ∨ t.kind owner = .element)
    ⟨fun h i owner ho => h i (lt_size_of_parent? ho) owner ho, fun h i _ owner ho => h i owner ho⟩

theorem ElementsOwn.wellFormed (h : t.ElementsOwn) : t.WellFormed := by
  intro i owner ho
  rcases h i owner ho with hkind | hkind <;> rw [hkind] <;> rfl

/-- Whether a node is text; a CDATA section is. -/
def isText (t : Tree) (i : Nat) : Bool := t.kind i == .text || t.kind i == .cdata

theorem isText_eq_false (h : t.kind i = .root ∨ t.kind i = .element) : t.isText i = false := by
  rcases h with h | h <;> rw [isText, h] <;> rfl

/-- The text and CDATA nodes of a subtree, in document order. -/
def texts (t : Tree) (i : Nat) : List Nat := (t.subtree i).filter t.isText

theorem texts_eq (h : t.isText i = false) : t.texts i = (t.children i).flatMap t.texts := by
  rw [texts, subtree_eq, List.filter_cons_of_neg (by rw [h]; exact Bool.false_ne_true),
    List.filter_flatMap]
  rfl

/-- Other nodes than the document and elements stand alone. -/
theorem ElementsOwn.children_eq_nil (h : t.ElementsOwn) (hroot : t.kind i ≠ .root)
    (helement : t.kind i ≠ .element) : t.children i = [] :=
  List.eq_nil_iff_forall_not_mem.2 fun _ hc =>
    (h _ i (mem_children.1 hc).1).elim hroot helement

theorem ElementsOwn.texts_of_isText (h : t.ElementsOwn) (hi : t.isText i = true) :
    t.texts i = [i] := by
  have hnone : t.children i = [] := by
    apply h.children_eq_nil <;> intro hkind <;> rw [isText, hkind] at hi <;> cases hi
  rw [texts, subtree_eq, hnone, List.flatMap_nil, List.filter_cons_of_pos hi, List.filter_nil]

theorem ElementsOwn.texts_eq_nil (h : t.ElementsOwn) (hi : t.isText i = false)
    (hroot : t.kind i ≠ .root) (helement : t.kind i ≠ .element) : t.texts i = [] := by
  rw [texts_eq hi, h.children_eq_nil hroot helement, List.flatMap_nil]

/-- The text that is collected at a node is that of the text and CDATA nodes of its subtree. -/
theorem textBelow_eq (h : t.ElementsOwn) {fuel : Nat} (hi : i < t.size)
    (hfuel : t.size ≤ fuel + i) :
    t.textBelow fuel i = String.join ((t.texts i).map t.stringValue) := by
  induction fuel generalizing i with
  | zero => omega
  | succ fuel ih =>
    have hchildren : String.join ((t.children i).map (t.textBelow fuel)) =
        String.join (((t.children i).flatMap t.texts).map t.stringValue) := by
      rw [List.map_flatMap, join_flatMap]
      refine congrArg String.join (List.map_congr_left fun c hc => ?_)
      have := lt_of_mem_children hc
      exact ih (lt_size_of_mem_children hc) (by omega)
    have hown : t.isText i = true →
        String.join ((t.texts i).map t.stringValue) = t.stringValue i := fun htext => by
      rw [h.texts_of_isText htext, List.map_singleton, String.join_cons, String.join_nil,
        String.append_empty]
    have hnone : t.isText i = false → t.kind i ≠ .root → t.kind i ≠ .element →
        String.join ((t.texts i).map t.stringValue) = "" := fun htext hroot helement => by
      rw [h.texts_eq_nil htext hroot helement]
      rfl
    rw [textBelow]
    cases hcontent : t.content? i with
    | none =>
      have hkind : t.kind i = .root := by rw [kind, hcontent]
      rw [texts_eq (isText_eq_false (.inl hkind))]
      exact hchildren
    | some content =>
      have hkind : t.kind i = content.kind := by rw [kind, hcontent]
      cases content with
      | element name =>
        rw [texts_eq (isText_eq_false (.inr hkind))]
        exact hchildren
      | text value =>
        rw [hown (by rw [isText, hkind]; rfl), stringValue, hcontent]
        rfl
      | cdata value =>
        rw [hown (by rw [isText, hkind]; rfl), stringValue, hcontent]
        rfl
      | _ => exact (hnone (by rw [isText, hkind]; rfl) (by simp [hkind, Content.kind])
          (by simp [hkind, Content.kind])).symm

section Owner

variable (h : t.ElementsOwn) (hi : i < t.size) (hkind : t.kind i = .root ∨ t.kind i = .element)

include h hi hkind

/-- The string-value of the document and of an element is the text of its text and CDATA nodes. -/
theorem stringValue_eq_texts :
    t.stringValue i = String.join ((t.texts i).map t.stringValue) := by
  rw [← textBelow_eq h hi (Nat.le_add_right _ _), stringValue]
  cases hcontent : t.content? i with
  | none => rfl
  | some content =>
    rw [kind, hcontent] at hkind
    cases content with
    | element name => rfl
    | _ => rcases hkind with hkind | hkind <;> cases hkind

/-- So it is put together from its children, comments and processing instructions apart. -/
theorem stringValue_eq_children :
    t.stringValue i = String.join (((t.children i).filter
      fun c => t.kind c == .element || t.isText c).map t.stringValue) := by
  rw [stringValue_eq_texts h hi hkind, texts_eq (isText_eq_false hkind), List.map_flatMap,
    join_flatMap]
  refine join_map_filter fun c hc => ?_
  have hlt := lt_size_of_mem_children hc
  have hroot := kind_ne_root hlt (Nat.ne_zero_of_lt (lt_of_mem_children hc))
  by_cases helement : t.kind c = .element
  · rw [if_pos (by simp [helement]), stringValue_eq_texts h hlt (Or.inr helement)]
  · cases htext : t.isText c with
    | true =>
      rw [if_pos (Bool.or_true _), h.texts_of_isText htext, List.map_singleton, String.join_cons,
        String.join_nil, String.append_empty]
    | false =>
      rw [if_neg (by simp [helement]), h.texts_eq_nil htext hroot helement]
      rfl

end Owner

end Tree

/-! ### Views -/

/-- A step without predicates leads to the nodes of the walk that pass its test. -/
theorem Eager.step_nodeType (σ : Setting) {axis : Axis} (haxis : axis.restoresOrder = false)
    (type : NodeType) (n : Node) :
    step σ ⟨axis, .nodeType type, []⟩ [n] = pure (firstOccurrences
      ((σ.view.walk axis n σ.root).filter fun m => type.accepts σ.view.toLinks m)) := by
  have hstride : Stride.ofStep σ ⟨axis, .nodeType type, []⟩ =
      .ok ⟨fun n => (σ.view.walk axis n σ.root).filter fun m =>
        type.accepts σ.view.toLinks m, []⟩ := rfl
  rw [step, hstride]
  simp only [haxis]
  exact congrArg (fun nodes : List Node => (pure (firstOccurrences nodes) : Eval (List Node)))
    List.flatten_singleton

/-- A path of one step without predicates selects the nodes of the walk that pass its test. -/
theorem Expr.gives_step (L : Library) (σ : Setting) (c : Context) (axis : Axis)
    (haxis : axis.restoresOrder = false) (type : NodeType) :
    (((Expr.path .context [⟨axis, .nodeType type, []⟩]).meaning (.standard L σ)).value c).Gives
      (.nodeSet ⟨firstOccurrences
        ((σ.view.walk axis c.node σ.root).filter fun m => type.accepts σ.view.toLinks m)⟩) := by
  -- A path from the context node looks at nothing else of the context, and asks no library.
  have hvalue : ((Expr.path .context [⟨axis, .nodeType type, []⟩]).meaning
      (.standard L σ)).value c = ((Expr.path .context [⟨axis, .nodeType type, []⟩]).meaning
        (.standard Registry.core.library σ)).value (.alone c.node) := by
    rw [Expr.meaning, Expr.meaning]
    rfl
  have heager : ((Expr.path .context [⟨axis, .nodeType type, []⟩]).meaning
      (.eager Registry.core.library σ)).value (.alone c.node) = do
        return .nodeSet ⟨← Eager.step σ ⟨axis, .nodeType type, []⟩ [c.node]⟩ := by
    rw [Expr.meaning]
    rfl
  rw [hvalue]
  refine Expr.gives_of_yields (Eval.gives_pure 1) ⟨.start, .start, ?_⟩
  refine (congrFun heager .start).trans ?_
  rw [Eager.step_nodeType σ haxis]
  rfl

namespace Forest.Shows

variable {f : Forest} {v : View} {k i : Nat} {t : Tree} (hv : f.Shows t v) (ht : f[k]? = some t)

include hv ht

theorem isText_eq (i : Nat) : v.isText ⟨k, i⟩ = t.isText i := by
  rw [Links.isText, Links.isCData, (hv.depicts ht).kind, Tree.isText]

theorem isElement_eq (i : Nat) : v.isElement ⟨k, i⟩ = (t.kind i == .element) := by
  rw [Links.isElement, (hv.depicts ht).kind]

theorem map_stringValue (xs : List Nat) :
    (xs.map (Node.mk k)).map v.stringValue = xs.map t.stringValue := by
  rw [List.map_map]
  exact List.map_congr_left fun i _ => hv.stringValue_eq ht i

/-- The walk comes by the text and CDATA nodes of the subtree. -/
theorem filter_descendants (hi : t.isText i = false) :
    (v.descendants ⟨k, i⟩).filter v.isText = (t.texts i).map (Node.mk k) := by
  have htext : v.isText ∘ Node.mk k = t.isText := funext fun j => hv.isText_eq ht j
  rw [(hv.depicts ht).presents.descendants_eq, List.filter_map, htext, List.filter_flatMap,
    Tree.texts_eq hi]
  rfl

theorem filter_children (i : Nat) :
    (v.children ⟨k, i⟩).filter (fun n => v.isElement n || v.isText n) =
      ((t.children i).filter fun c => t.kind c == .element || t.isText c).map (Node.mk k) := by
  have hkept : (fun n => v.isElement n || v.isText n) ∘ Node.mk k =
      fun c => t.kind c == .element || t.isText c := by
    funext c
    rw [Function.comp_apply, hv.isElement_eq ht, hv.isText_eq ht]
  rw [(hv.depicts ht).children_eq, List.filter_map, hkept]

end Forest.Shows

/-- The text and CDATA nodes of a subtree are listed in document order. -/
theorem Tree.texts_sublist {t : Tree} {i : Nat} (hi : i < t.size) :
    (t.texts i).Sublist (t.preorder 0) :=
  List.filter_sublist.trans
    ((subtree_sublist_preorder t i).trans (preorder_sublist (mem_preorder_zero hi)))

/-- Where only the document and elements own nodes, the string-value of such a node is put together
from those of the text and CDATA nodes that the walk along its descendants comes by, in document
order.  These are the nodes that `descendant::text()` selects, whatever functions there are.  So the
string-value is also put together from those of its element, text and CDATA children. -/
theorem stringValue_eq_join {f : Forest} {k : Nat} {t : Tree} (ht : f[k]? = some t)
    (h : t.ElementsOwn) {v : View} (hv : f.Shows t v) {i : Nat} (hi : i < t.size)
    (hkind : v.isDocument ⟨k, i⟩ = true ∨ v.isElement ⟨k, i⟩ = true) (root : Node) :
    let texts := (v.walk .descendant ⟨k, i⟩ root).filter v.isText
    v.stringValue ⟨k, i⟩ = String.join (texts.map v.stringValue) ∧
    texts.Pairwise (fun a b => v.order a b = .lt) ∧
    (∀ (L : Library) (σ : Setting) (c : Context), σ.view = v → c.node = ⟨k, i⟩ →
      (((Expr.path .context [⟨.descendant, .nodeType .text, []⟩]).meaning
        (.standard L σ)).value c).Gives (.nodeSet ⟨texts⟩)) ∧
    v.stringValue ⟨k, i⟩ = String.join (((v.walk .child ⟨k, i⟩ root).filter
      fun n => v.isElement n || v.isText n).map v.stringValue) := by
  have hwf := h.wellFormed
  have hkind' : t.kind i = .root ∨ t.kind i = .element := by
    rw [Links.isDocument, Links.isElement, (hv.depicts ht).kind] at hkind
    exact hkind.imp beq_iff_eq.1 beq_iff_eq.1
  have htexts : (v.walk .descendant ⟨k, i⟩ root).filter v.isText = (t.texts i).map (Node.mk k) :=
    hv.filter_descendants ht (Tree.isText_eq_false hkind')
  intro texts
  refine ⟨?_, ?_, ?_, ?_⟩
  · rw [show texts = _ from htexts, hv.map_stringValue ht, hv.stringValue_eq ht]
    exact Tree.stringValue_eq_texts h hi hkind'
  · rw [show texts = _ from htexts, List.pairwise_map]
    exact (hv.pairwise_of_sublist ht hwf (Tree.texts_sublist hi)).imp And.left
  · rintro L σ c rfl hc
    have hgives := Expr.gives_step L σ c .descendant rfl .text
    rw [hc] at hgives
    have hnodup : texts.Nodup :=
      List.Nodup.filter _ ((hv.depicts ht).presents.nodup_descendants i)
    rw [← firstOccurrences_of_nodup hnodup]
    exact hgives
  · rw [hv.stringValue_eq ht, Tree.stringValue_eq_children h hi hkind', ← hv.map_stringValue ht,
      ← hv.filter_children ht]
    rfl

/-- The text of the sample, without its comment, its processing instruction and its attributes. -/
theorem stringValue_eq_join_sample :
    let v := Forest.indexed [.sample]
    Tree.sample.ElementsOwn ∧ v.isDocument ⟨0, 0⟩ = true ∧
    (v.walk .descendant ⟨0, 0⟩ ⟨0, 0⟩).filter v.isText = [⟨0, 4⟩, ⟨0, 9⟩] ∧
    v.stringValue ⟨0, 0⟩ = "HelloWorld" ∧
    (((Expr.path .context [⟨.descendant, .nodeType .text, []⟩]).meaning
      (.standard Registry.core.library (.ofTree .sample))).value (.alone ⟨0, 0⟩)).Gives
        (.nodeSet ⟨[⟨0, 4⟩, ⟨0, 9⟩]⟩) := by
  intro v
  have howns : Tree.sample.ElementsOwn := by decide +kernel
  have hdocument : v.isDocument ⟨0, 0⟩ = true := by decide +kernel
  have htexts : (v.walk .descendant ⟨0, 0⟩ ⟨0, 0⟩).filter v.isText = [⟨0, 4⟩, ⟨0, 9⟩] := by
    decide +kernel
  obtain ⟨hjoin, -, hpath, -⟩ := stringValue_eq_join (f := [.sample]) (k := 0) rfl howns .indexed
    (i := 0) (by decide +kernel) (.inl hdocument) ⟨0, 0⟩
  rw [htexts] at hjoin hpath
  exact ⟨howns, hdocument, htexts, hjoin.trans (by decide +kernel), hpath _ _ _ rfl rfl⟩

end XPath
