/-
Elements by their identifiers.

The function `id` takes its argument apart into words and walks through the document once, so it
gives each element once and in document order, however many of its attributes identify it and
however often a word occurs.  What it gives depends on the set of the words only.  The words of
texts that are joined by a blank are those of all the texts, so the elements that they identify are
those that one of them identifies.

* `Core.identifiedBy` — what `id` gives for a value;
* `Tree.HasIdentifier` — what identifies an element of a tree;
* `mem_identifiedBy` — the elements that a value identifies;
* `View.Ranks.union_foldl` — unions of several sets;
* `id_selects_identified` — the elements are in document order, and joined texts make unions.
-/
import XPath.Proofs.Evaluation.Literal
import XPath.Proofs.Text.Words
import XPath.Proofs.Tree.Converse
import XPath.Proofs.Value.Union

namespace XPath

namespace Core

/-- The elements that the words of a value identify. -/
def identifiedBy (σ : Setting) (value : Value) : NodeSet :=
  ⟨identified σ.view σ.document (Text.words Text.isAsciiBlank (identifierText σ.view value))⟩

theorem words_intercalate_ascii (texts : List String) :
    Text.words Text.isAsciiBlank (" ".intercalate texts) =
      texts.flatMap (Text.words Text.isAsciiBlank) :=
  Text.words_intercalate rfl texts

theorem identified_nil (v : View) (document : Node) : identified v document [] = [] := by
  simp [identified, isIdentified]

/-- The function evaluates its argument, and that there may be no words makes no difference. -/
theorem id_eq {call : Call} {a : Argument} (h : call.arguments = [a]) :
    Core.id call = do
      let value ← a.value call.context
      return .nodeSet (identifiedBy call.setting value) := by
  rw [Core.id, Function.unary, h]
  refine bind_congr fun value => ?_
  dsimp only [identifiedBy, Call.view]
  split
  · next hempty => rw [List.isEmpty_iff.1 hempty, identified_nil]; rfl
  · rfl

end Core

/-- With the core functions, `id` gives what the value of its argument identifies. -/
theorem Expr.value_id (σ : Setting) (e : Expr) (c : Context) :
    ((Expr.call ⟨none, "id"⟩ [e]).meaning (.standard Registry.core.library σ)).value c = do
      let value ← (e.meaning (.standard Registry.core.library σ)).value c
      return .nodeSet (Core.identifiedBy σ value) := by
  rw [meaning, meanings, meanings, Meaning.value_call (f := Core.id) rfl]
  exact Core.id_eq rfl

/-! ### What identifies an element -/

/-- Node `i` is an element, and one of its attributes is named `id`, in no namespace or that of
`xml`, and has the value `w`. -/
def Tree.HasIdentifier (t : Tree) (i : Nat) (w : String) : Prop :=
  t.kind i = .element ∧ ∃ a name, t.parent? a = some i ∧ t.content? a = some (.attribute name w) ∧
    name.localPart = "id" ∧ (name.uri = none ∨ name.uri = some xmlNamespace)

namespace Tree

variable {t : Tree} {i a : Nat}

theorem exists_attribute_of_kind (h : t.kind a = .attribute) :
    ∃ name value, t.content? a = some (.attribute name value) := by
  rw [kind] at h
  cases hcontent : t.content? a with
  | none => rw [hcontent] at h; cases h
  | some content =>
    rw [hcontent] at h
    cases content with
    | «attribute» name value => exact ⟨name, value, rfl⟩
    | _ => cases h

/-- Elements are below the document. -/
theorem mem_flatMap_subtree_of_element (hwf : t.WellFormed) (h : t.kind i = .element) :
    i ∈ (t.children 0).flatMap t.subtree := by
  have hlt : i < t.size := by
    by_contra hge
    obtain _ | i := i
    · cases h
    · rw [size, Nat.not_lt, Nat.add_le_add_iff_right] at hge
      rw [kind, content?, Array.getElem?_eq_none hge] at h
      cases h
  have hmem := mem_subtree_zero hwf (mem_ordinary.2 ⟨hlt, h ▸ rfl⟩)
  rw [subtree_eq, List.mem_cons] at hmem
  refine hmem.resolve_left fun hzero => ?_
  rw [hzero] at h
  cases h

end Tree

section Identified

variable {f : Forest} {k : Nat} {t : Tree} (ht : f[k]? = some t) {v : View} (hview : f.Shows t v)

include ht hview

theorem isIdentified_iff {wanted : List String} {i : Nat} :
    Core.isIdentified v.toLinks wanted ⟨k, i⟩ = true ↔ ∃ w ∈ wanted, t.HasIdentifier i w := by
  have h := hview.depicts ht
  simp only [Core.isIdentified, Links.isElement, Bool.and_eq_true, beq_iff_eq, h.kind,
    h.attributes, List.any_map, List.any_eq_true, Function.comp_apply, Core.isIdentifier,
    hview.name?_eq ht, hview.stringValue_eq ht, List.contains_iff_mem, Option.any_eq_true,
    Bool.or_eq_true, Tree.mem_attributes_iff]
  constructor
  · rintro ⟨hkind, a, ⟨hparent, ha⟩, ⟨name, hname, hlocal, huri⟩, hwanted⟩
    obtain ⟨name', w, hcontent⟩ := Tree.exists_attribute_of_kind ha
    rw [Tree.name?, hcontent] at hname
    rw [Tree.stringValue, hcontent] at hwanted
    cases hname
    exact ⟨w, hwanted, hkind, a, name, hparent, hcontent, hlocal, huri⟩
  · rintro ⟨w, hwanted, hkind, a, name, hparent, hcontent, hlocal, huri⟩
    refine ⟨hkind, a, ⟨hparent, ?_⟩, ⟨name, ?_, hlocal, huri⟩, ?_⟩
    · rw [Tree.kind, hcontent]
      rfl
    · rw [Tree.name?, hcontent]
      rfl
    · rwa [Tree.stringValue, hcontent]

variable (hwf : t.WellFormed)

include hwf

theorem mem_identified {wanted : List String} {n : Node} :
    n ∈ Core.identified v ⟨k, 0⟩ wanted ↔
      ∃ i, n = ⟨k, i⟩ ∧ ∃ w ∈ wanted, t.HasIdentifier i w := by
  rw [Core.identified, List.mem_filter, (hview.depicts ht).presents.descendants_eq, List.mem_map]
  constructor
  · rintro ⟨⟨i, -, rfl⟩, hi⟩
    exact ⟨i, rfl, (isIdentified_iff ht hview).1 hi⟩
  · rintro ⟨i, rfl, hi⟩
    obtain ⟨w, -, hkind, -⟩ := id hi
    exact ⟨⟨i, Tree.mem_flatMap_subtree_of_element hwf hkind, rfl⟩,
      (isIdentified_iff ht hview).2 hi⟩

/-- One walk through the document finds elements in document order. -/
theorem pairwise_identified (wanted : List String) :
    (Core.identified v ⟨k, 0⟩ wanted).Pairwise fun a b => v.order a b = .lt := by
  have hsubtree : ((t.children 0).flatMap t.subtree).Sublist (t.preorder 0) :=
    (List.sublist_cons_self 0 _).trans
      (Tree.subtree_eq t 0 ▸ Tree.subtree_sublist_preorder t 0)
  rw [Core.identified, (hview.depicts ht).presents.descendants_eq]
  refine List.Pairwise.filter _ (List.pairwise_map.2 ?_)
  exact (hview.pairwise_of_sublist ht hwf hsubtree).imp And.left

end Identified

/-! ### Unions of several sets -/

/-- The union of sets that are each in document order: it is in that order as well, and has the
nodes of all of them. -/
theorem View.Ranks.union_foldl {v : View} {Known : Node → Prop} {place : Node → Nat}
    (h : v.Ranks Known place) {sets : List NodeSet} {start : NodeSet}
    (hknown : ∀ s ∈ start :: sets, ∀ n ∈ s.nodes, Known n)
    (hstart : start.nodes.Pairwise fun a b => v.order a b = .lt) :
    ((sets.foldl (NodeSet.union v) start).nodes.Pairwise fun a b => v.order a b = .lt) ∧
      ∀ n, n ∈ (sets.foldl (NodeSet.union v) start).nodes ↔ ∃ s ∈ start :: sets, n ∈ s.nodes := by
  induction sets generalizing start with
  | nil => exact ⟨hstart, by simp⟩
  | cons s sets ih =>
    obtain ⟨hfirst, hrest⟩ := List.forall_mem_cons.1 hknown
    obtain ⟨hs, hsets⟩ := List.forall_mem_cons.1 hrest
    have hboth : ∀ n ∈ start.nodes ++ s.nodes, Known n :=
      fun n hn => (List.mem_append.1 hn).elim (hfirst n) (hs n)
    have hunion : ∀ n ∈ (start.union v s).nodes, Known n :=
      fun n hn => hboth n (List.mem_append.2 (NodeSet.mem_union.1 hn))
    obtain ⟨hpairwise, hmem⟩ :=
      ih (List.forall_mem_cons.2 ⟨hunion, hsets⟩) (h.pairwise_union hboth)
    refine ⟨hpairwise, fun n => (hmem n).trans ?_⟩
    simp only [List.exists_mem_cons_iff, NodeSet.mem_union, or_assoc]

/-! ### The elements that a value identifies -/

section IdentifiedBy

variable {f : Forest} {k : Nat} {t : Tree} (ht : f[k]? = some t) (hwf : t.WellFormed)
  {σ : Setting} (hview : f.Shows t σ.view) (hdocument : σ.document = ⟨k, 0⟩)

include ht hwf hview hdocument

/-- A value identifies the elements with an identifier that is one of its words. -/
theorem mem_identifiedBy {value : Value} {n : Node} :
    n ∈ (Core.identifiedBy σ value).nodes ↔ ∃ i w, n = ⟨k, i⟩ ∧ t.HasIdentifier i w ∧
      w ∈ Text.words Text.isAsciiBlank (Core.identifierText σ.view value) := by
  rw [Core.identifiedBy, hdocument, mem_identified ht hview hwf]
  simp only [← exists_and_left, and_comm]

theorem pairwise_identifiedBy (value : Value) :
    (Core.identifiedBy σ value).nodes.Pairwise fun a b => σ.view.order a b = .lt := by
  rw [Core.identifiedBy, hdocument]
  exact pairwise_identified ht hview hwf _

theorem hasAt_identifiedBy {value : Value} :
    ∀ n ∈ (Core.identifiedBy σ value).nodes, t.HasAt k n := by
  intro n hn
  obtain ⟨i, w, rfl, ⟨hkind, -⟩, -⟩ := (mem_identifiedBy ht hwf hview hdocument).1 hn
  have hi : i ∈ t.subtree 0 := Tree.subtree_eq t 0 ▸
    List.mem_cons_of_mem 0 (Tree.mem_flatMap_subtree_of_element hwf hkind)
  exact ⟨rfl, (Tree.mem_ordinary.1 (Tree.mem_ordinary_of_mem_subtree t.zero_mem_ordinary hi)).1⟩

/-- A set in document order is what a value identifies if it has the elements that the words of the
value identify. -/
theorem identifiedBy_eq {value : Value} {s : NodeSet}
    (hs : s.nodes.Pairwise fun a b => σ.view.order a b = .lt)
    (hmem : ∀ n, n ∈ s.nodes ↔ ∃ i w, n = ⟨k, i⟩ ∧ t.HasIdentifier i w ∧
      w ∈ Text.words Text.isAsciiBlank (Core.identifierText σ.view value)) :
    Core.identifiedBy σ value = s := by
  obtain ⟨nodes⟩ := s
  refine congrArg NodeSet.mk ((hview.ranks ht hwf).eq_of_pairwise
    (hasAt_identifiedBy ht hwf hview hdocument)
    (pairwise_identifiedBy ht hwf hview hdocument value) hs fun n => ?_)
  exact (mem_identifiedBy ht hwf hview hdocument).trans (hmem n).symm

/-- What a set identifies is what the string-values of its nodes do. -/
theorem identifiedBy_nodeSet (s : NodeSet) :
    Core.identifiedBy σ (.nodeSet s) =
      (s.nodes.map fun n => Core.identifiedBy σ (.string (σ.view.stringValue n))).foldl
        (NodeSet.union σ.view) .empty := by
  have hknown : ∀ u ∈ NodeSet.empty ::
      s.nodes.map fun n => Core.identifiedBy σ (.string (σ.view.stringValue n)),
      ∀ n ∈ u.nodes, t.HasAt k n := by
    refine List.forall_mem_cons.2 ⟨by simp [NodeSet.empty], List.forall_mem_map.2 fun m _ => ?_⟩
    exact hasAt_identifiedBy ht hwf hview hdocument
  obtain ⟨hpairwise, hmem⟩ := (hview.ranks ht hwf).union_foldl hknown List.Pairwise.nil
  refine identifiedBy_eq ht hwf hview hdocument hpairwise fun n => (hmem n).trans ?_
  rw [Core.identifierText, Core.words_intercalate_ascii, List.flatMap_map]
  simp only [List.exists_mem_cons_iff, NodeSet.empty, List.not_mem_nil, false_or, List.mem_map,
    exists_exists_and_eq_and, mem_identifiedBy ht hwf hview hdocument, List.mem_flatMap,
    Core.identifierText, Value.toText]
  constructor
  · rintro ⟨m, hm, i, w, rfl, hi, hw⟩
    exact ⟨i, w, rfl, hi, m, hm, hw⟩
  · rintro ⟨i, w, rfl, hi, m, hm, hw⟩
    exact ⟨m, hm, i, w, rfl, hi, hw⟩

/-- Sets of the same nodes identify the same. -/
theorem identifiedBy_congr {s u : NodeSet} (hmem : ∀ n, n ∈ s.nodes ↔ n ∈ u.nodes) :
    Core.identifiedBy σ (.nodeSet s) = Core.identifiedBy σ (.nodeSet u) := by
  refine identifiedBy_eq ht hwf hview hdocument
    (pairwise_identifiedBy ht hwf hview hdocument _) fun n => ?_
  rw [mem_identifiedBy ht hwf hview hdocument]
  simp only [Core.identifierText, Core.words_intercalate_ascii, List.flatMap_map, List.mem_flatMap,
    hmem]

/-- Texts that are joined by a blank identify what each of them does. -/
theorem identifiedBy_append (a b : String) :
    Core.identifiedBy σ (.string (a ++ " " ++ b)) =
      (Core.identifiedBy σ (.string a)).union σ.view (Core.identifiedBy σ (.string b)) := by
  have hboth : ∀ n ∈ (Core.identifiedBy σ (.string a)).nodes ++
      (Core.identifiedBy σ (.string b)).nodes, t.HasAt k n := fun n hn =>
    (List.mem_append.1 hn).elim (hasAt_identifiedBy ht hwf hview hdocument n)
      (hasAt_identifiedBy ht hwf hview hdocument n)
  have hwords : Text.words Text.isAsciiBlank (a ++ " " ++ b) =
      Text.words Text.isAsciiBlank a ++ Text.words Text.isAsciiBlank b :=
    Text.words_append_blank rfl
  refine identifiedBy_eq ht hwf hview hdocument
    ((hview.ranks ht hwf).pairwise_union hboth) fun n => ?_
  rw [NodeSet.mem_union, mem_identifiedBy ht hwf hview hdocument,
    mem_identifiedBy ht hwf hview hdocument]
  simp only [Core.identifierText, Value.toText, hwords, List.mem_append, and_or_left, exists_or]

end IdentifiedBy

/-- In a well-formed tree, `id` of an argument with a value gives in document order, each of them
once, the elements that have an identifier among the words of the value, and no other nodes.  So of
a node-set it gives the union of what it gives of the string-values of the nodes, however these are
listed, and of two texts with a blank between them the union of what it gives of each. -/
theorem id_selects_identified {f : Forest} {k : Nat} {t : Tree} (ht : f[k]? = some t)
    (hwf : t.WellFormed) {σ : Setting} (hview : f.Shows t σ.view)
    (hdocument : σ.document = ⟨k, 0⟩) :
    (∀ (e : Expr) (c : Context),
      ((Expr.call ⟨none, "id"⟩ [e]).meaning (.standard Registry.core.library σ)).value c = do
        let value ← (e.meaning (.standard Registry.core.library σ)).value c
        return .nodeSet (Core.identifiedBy σ value)) ∧
    (∀ value : Value,
      (Core.identifiedBy σ value).nodes.Pairwise (fun a b => σ.view.order a b = .lt) ∧
      (Core.identifiedBy σ value).nodes.Nodup ∧
      ∀ n, n ∈ (Core.identifiedBy σ value).nodes ↔ ∃ i w, n = ⟨k, i⟩ ∧ t.HasIdentifier i w ∧
        Text.IsRun Text.isAsciiBlank w.toList (Core.identifierText σ.view value).toList) ∧
    (∀ s : NodeSet, Core.identifiedBy σ (.nodeSet s) =
      (s.nodes.map fun n => Core.identifiedBy σ (.string (σ.view.stringValue n))).foldl
        (NodeSet.union σ.view) .empty) ∧
    (∀ s u : NodeSet, (∀ n, n ∈ s.nodes ↔ n ∈ u.nodes) →
      Core.identifiedBy σ (.nodeSet s) = Core.identifiedBy σ (.nodeSet u)) ∧
    ∀ a b : String, Core.identifiedBy σ (.string (a ++ " " ++ b)) =
      (Core.identifiedBy σ (.string a)).union σ.view (Core.identifiedBy σ (.string b)) := by
  refine ⟨Expr.value_id σ, fun value => ⟨pairwise_identifiedBy ht hwf hview hdocument value, ?_,
    fun n => ?_⟩, identifiedBy_nodeSet ht hwf hview hdocument,
    fun s u => identifiedBy_congr ht hwf hview hdocument,
    identifiedBy_append ht hwf hview hdocument⟩
  · rw [Core.identifiedBy, Core.identified, hdocument]
    exact ((hview.depicts ht).presents.nodup_descendants 0).filter _
  · simp only [mem_identifiedBy ht hwf hview hdocument, Text.mem_words_iff]

/-- The first paragraph of the sample is identified by its attribute, and only once. -/
theorem id_selects_identified_sample :
    (⟨0, 1⟩ : Node) ∈ (Core.identifiedBy .ofSample (.string "p2\tp1 p1")).nodes ∧
    (Core.identifiedBy .ofSample (.string "p2\tp1 p1")).nodes.Nodup ∧
    Core.identifiedBy .ofSample (.string "p2\tp1 p1") = ⟨[⟨0, 1⟩]⟩ := by
  obtain ⟨-, hvalue, -⟩ := id_selects_identified (f := [.sample]) (k := 0) (σ := .ofSample) rfl
    (by decide) .indexed rfl
  obtain ⟨-, hnodup, hmem⟩ := hvalue (.string "p2\tp1 p1")
  refine ⟨(hmem ⟨0, 1⟩).2 ⟨1, "p1", rfl, ⟨by decide, 2, ⟨none, "id", none⟩, by decide⟩, ?_⟩,
    hnodup, by decide +kernel⟩
  exact Text.mem_words_iff.1 (by decide)

end XPath
