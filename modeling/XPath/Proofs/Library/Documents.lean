/-
Identifiers in the document of the context node.

The document in which `id` looks for elements is fixed when an evaluation starts: it is that of the
node that the evaluation is asked about.  All nodes of a tree have the same document, so wherever
the context node is in that tree, `id` looks in the document of the context node.  An evaluation
that starts from nodes of one tree stays there, and comes to the same with an `id` that asks the
context node for its document.  Variables can lead it to another tree, and there `id` goes on
looking in the document of the start.

* `Core.identifiedNear`, `Core.idNearby`, `Registry.nearby` — looking in the document of the context
  node, and a library in which `id` does;
* `Links.Presents.document_eq` — the document of a node is the document node of its tree;
* `Accord.libraries_nearby` — the libraries are in accord if all known nodes have the same document;
* `id_near_context` — in the tree where an evaluation starts, `id` finds what is identified in the
  tree of the context node, and an evaluation that stays there comes to the same in both libraries.
-/
import XPath.Proofs.Evaluation.Indifference
import XPath.Proofs.Library.Identifiers
import XPath.Proofs.Library.Replacement

namespace XPath

/-! ### The document of a node -/

/-- Every path in a tree leads up to the document node. -/
theorem Tree.exists_path_eq_concat_zero {t : Tree} {i : Nat} (hi : i < t.size) :
    ∃ below, t.path i = below ++ [0] := by
  obtain ⟨below, hbelow⟩ :=
    Tree.exists_path_eq_append (Tree.mem_path_of_mem_preorder (Tree.mem_preorder_zero hi))
  exact ⟨below, hbelow.trans (congrArg _ (Tree.path_of_none rfl))⟩

/-- The document of a node is the document node of its tree. -/
theorem Links.Presents.document_eq {l : Links} {k i : Nat} {t : Tree} (h : l.Presents k t)
    (hi : i < t.size) : l.document ⟨k, i⟩ = ⟨k, 0⟩ := by
  obtain ⟨below, hpath⟩ := Tree.exists_path_eq_concat_zero hi
  rw [Links.document, h.ancestors_eq hi, hpath]
  cases below with
  | nil =>
    rw [Tree.path_eq t i, List.nil_append, List.cons.injEq] at hpath
    rw [hpath.1]
    rfl
  | cons j above =>
    rw [List.cons_append, List.tail_cons, List.map_append, List.map_singleton]
    exact List.getLastD_concat

/-! ### Looking in the document of the context node -/

namespace Core

/-- The elements that the words of a value identify in the document of a node. -/
def identifiedNear (v : View) (n : Node) (value : Value) : NodeSet :=
  ⟨identified v (v.document n) (Text.words Text.isAsciiBlank (identifierText v value))⟩

/-- `id(object)` in the document of the context node. -/
def idNearby : Function := fun c =>
  Core.id { c with setting := { c.setting with document := c.view.document c.context.node } }

/-- It is `id` where the context node has the document of the setting. -/
theorem idNearby_eq {c : Call} (h : c.view.document c.context.node = c.setting.document) :
    idNearby c = Core.id c := by
  rw [idNearby, h]

end Core

/-- The core functions, with an `id` that looks in the document of the context node. -/
def Registry.nearby : Registry := core.add ⟨none, "id"⟩ Core.idNearby

namespace Accord

variable {ι : Type} {A : Accord ι}
  (hdocument : ∀ {n}, A.Known n → A.mirror.document n = A.setting.document)

include hdocument

theorem functions_idNearby : A.Functions Core.id Core.idNearby := by
  intro k c d h
  have hknown : A.Known d.context.node := h.context.node ▸ h.context.known
  have hsame : d.view.document d.context.node = d.setting.document := by
    rw [Call.view, h.setting_right]
    exact hdocument hknown
  rw [Core.idNearby_eq hsame]
  exact functions_id h

/-- Where all known nodes have the same document, it makes no difference which `id` is used. -/
theorem libraries_nearby : A.Libraries Registry.core.library Registry.nearby.library := by
  intro name k c d hc
  show Option.Rel A.Functions (Registry.core.find? name) (Registry.nearby.find? name)
  rw [Registry.nearby, Registry.find?_add]
  split
  · next hname =>
    rw [hname]
    exact .some (functions_idNearby hdocument)
  · exact libraries_core name hc

end Accord

/-! ### Evaluations in one tree -/

section Near

variable {f : Forest} {k : Nat} {t : Tree} (ht : f[k]? = some t) {σ : Setting}
  (hview : f.Shows t σ.view) (hdocument : σ.document = ⟨k, 0⟩)

include ht hview hdocument

/-- The nodes of a tree have the document of the setting. -/
theorem document_eq_of_hasAt {n : Node} (hn : t.HasAt k n) :
    σ.view.document n = σ.document := by
  obtain ⟨_, i⟩ := n
  obtain ⟨rfl, hi⟩ := hn
  rw [hdocument, (hview.depicts ht).presents.document_eq hi]

theorem identifiedNear_eq {n : Node} (hn : t.HasAt k n) (value : Value) :
    Core.identifiedNear σ.view n value = Core.identifiedBy σ value := by
  rw [Core.identifiedNear, Core.identifiedBy, document_eq_of_hasAt ht hview hdocument hn]

end Near

/-- In the tree in which an evaluation starts, `id` of an argument with a value gives what the value
identifies in the document of the context node: the elements of the tree of the context node that
have an identifier among the words of the value, and no other nodes.  This is so whatever the
variables have.  If these have nodes of that tree only, every expression has the same value and the
same truth with an `id` that asks each context node for its document. -/
theorem id_near_context {f : Forest} {k : Nat} {t : Tree} (ht : f[k]? = some t)
    (hwf : t.WellFormed) {σ : Setting} (hview : f.Shows t σ.view)
    (hdocument : σ.document = ⟨k, 0⟩) :
    (∀ (e : Expr) (c : Context), t.HasAt k c.node →
      ((Expr.call ⟨none, "id"⟩ [e]).meaning (.standard Registry.core.library σ)).value c = do
        let value ← (e.meaning (.standard Registry.core.library σ)).value c
        return .nodeSet (Core.identifiedNear σ.view c.node value)) ∧
    (∀ n, t.HasAt k n → ∀ (value : Value) (m : Node),
      m ∈ (Core.identifiedNear σ.view n value).nodes ↔
        m.tree = n.tree ∧ ∃ w, t.HasIdentifier m.id w ∧
          Text.IsRun Text.isAsciiBlank w.toList (Core.identifierText σ.view value).toList) ∧
    (σ.Within t k → ∀ (e : Expr) (c : Context), t.HasAt k c.node →
      let fixed := e.meaning (.standard Registry.core.library σ)
      let nearby := e.meaning (.standard Registry.nearby.library σ)
      fixed.value c = nearby.value c ∧ fixed.truth c = nearby.truth c) := by
  refine ⟨fun e c hc => ?_, fun n hn value m => ?_, fun hσ e c hc => ?_⟩
  · rw [Expr.value_id]
    simp only [identifiedNear_eq ht hview hdocument hc]
  · obtain ⟨rfl, -⟩ := id hn
    rw [identifiedNear_eq ht hview hdocument hn, mem_identifiedBy ht hwf hview hdocument]
    simp only [← Text.mem_words_iff]
    constructor
    · rintro ⟨i, w, rfl, hi, hw⟩
      exact ⟨rfl, w, hi, hw⟩
    · rintro ⟨htree, w, hi, hw⟩
      exact ⟨m.id, w, htree ▸ rfl, hi, hw⟩
  · have h := hσ.shared ht hwf hview hview
    have hlibraries : (Accord.agreement h).Libraries Registry.core.library
        Registry.nearby.library :=
      Accord.libraries_nearby (document_eq_of_hasAt ht hview hdocument)
    have hm := Accord.meanings_meaning
      ((Accord.follows_agreement h).interpretations hlibraries h.bindings) e
    have hcontext := Accord.contexts_agreement h hc
    exact ⟨(hm.value hcontext).eq, (hm.truth hcontext).eq⟩

/-- The nodes of a variable from which `id` of a text finds something. -/
def Expr.identifying (variableName text : String) : Expr :=
  .path (.filter (.variableReference variableName) [.call ⟨none, "id"⟩ [.string text]]) []

/-- The first paragraph of the sample is identified in the document of each of its nodes, such as
the last text.  With the variable of the sample, which has two paragraphs, all is in that tree. -/
theorem id_near_context_sample :
    Tree.sample.WellFormed ∧ Setting.ofSample.document = ⟨0, 0⟩ ∧
    Tree.sample.HasAt 0 ⟨0, 9⟩ ∧ Setting.ofSample.Within .sample 0 ∧
    (⟨0, 1⟩ : Node) ∈
      (Core.identifiedNear (Forest.indexed [.sample]) ⟨0, 9⟩ (.string "p2\tp1 p1")).nodes ∧
    ((Expr.identifying "v" "p1").meaning
        (.standard Registry.core.library .ofSample)).value (.alone ⟨0, 9⟩) =
      ((Expr.identifying "v" "p1").meaning
        (.standard Registry.nearby.library .ofSample)).value (.alone ⟨0, 9⟩) := by
  have hwf : Tree.sample.WellFormed := by decide
  have hlast : Tree.sample.HasAt 0 ⟨0, 9⟩ := ⟨rfl, by decide⟩
  have hσ : Setting.ofSample.Within .sample 0 := by
    refine ⟨⟨rfl, by decide⟩, ⟨rfl, by decide⟩, ?_⟩
    rintro p (_ | ⟨_, ⟨⟩⟩)
    refine ⟨Value.unique_ofNodes _, Value.among_ofNodes ?_⟩
    unfold Tree.HasAt
    decide
  obtain ⟨-, hmem, hmeaning⟩ :=
    id_near_context (f := [.sample]) (k := 0) (σ := .ofSample) rfl hwf .indexed rfl
  refine ⟨hwf, rfl, hlast, hσ, (hmem _ hlast _ _).2 ⟨rfl, "p1", ?_, ?_⟩,
    (hmeaning hσ _ (.alone ⟨0, 9⟩) hlast).1⟩
  · exact ⟨by decide, 2, ⟨none, "id", none⟩, by decide⟩
  · exact Text.mem_words_iff.1 (by decide)

/-- A document of one element, which is identified by `n1`. -/
def Tree.ofNote : Tree :=
  (ofEntries? [⟨0, .element ⟨none, "note", none⟩⟩, ⟨1, .attribute ⟨none, "id", none⟩ "n1"⟩]).getD
    empty

/-- The sample next to another document, of which a variable has the element. -/
def Setting.besideNote : Setting :=
  { Setting.ofTree .sample with
    view := Forest.indexed [.sample, .ofNote]
    bindings := [("other", .ofNodes [⟨1, 1⟩])] }

/-- From the element of the other document an evaluation that has started in the sample does not
find this element, but a paragraph of the sample, so that a predicate keeps the element for the
identifier of the paragraph and not for its own. -/
theorem id_far_from_context :
    Tree.ofNote.WellFormed ∧ Tree.ofNote.HasIdentifier 1 "n1" ∧
    Setting.besideNote.view.document ⟨1, 1⟩ = ⟨1, 0⟩ ∧
    ((Expr.call ⟨none, "id"⟩ [.string "n1"]).meaning
        (.standard Registry.core.library .besideNote)).value (.alone ⟨1, 1⟩) .start =
      .ok (.nodeSet ⟨[]⟩) .start ∧
    ((Expr.call ⟨none, "id"⟩ [.string "p1"]).meaning
        (.standard Registry.core.library .besideNote)).value (.alone ⟨1, 1⟩) .start =
      .ok (.nodeSet ⟨[⟨0, 1⟩]⟩) .start ∧
    ((Expr.identifying "other" "n1").meaning
        (.standard Registry.core.library .besideNote)).value (.alone ⟨0, 0⟩) .start =
      .ok (.nodeSet ⟨[]⟩) .start ∧
    ((Expr.identifying "other" "p1").meaning
        (.standard Registry.core.library .besideNote)).value (.alone ⟨0, 0⟩) .start =
      .ok (.nodeSet ⟨[⟨1, 1⟩]⟩) .start := by
  have hidentifier : Tree.ofNote.HasIdentifier 1 "n1" :=
    ⟨by decide, 2, ⟨none, "id", none⟩, by decide⟩
  exact ⟨by decide, hidentifier, by decide +kernel, by cbv, by cbv, by cbv, by cbv⟩

end XPath
