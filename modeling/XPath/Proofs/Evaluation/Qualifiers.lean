/-
What qualifiers are for.

A qualifier in a node test stands for the namespace that the evaluation binds it to, and for nothing
else.  When the qualifiers of an expression are renamed and the new names are bound to the
namespaces of the old ones, the expression means the same.  The qualifiers that a document writes
are not looked at: with any others in their place, steps lead to the same nodes.

* `NodeTest.requalified`, `Expr.requalified` — tests and expressions with renamed qualifiers;
* `NodeTest.uri_requalified`, `NodeTest.accepts_named` — what tests ask for, and of what;
* `Stride.ofStep_named` — steps do not depend on the names that a document writes;
* `Rewriting.keeps_named` — nor do functions other than `name` and `lang`;
* `qualifiers_stand_for_namespaces` — expressions mean the same under renaming.
-/
import XPath.Proofs.Evaluation.SameNodes
import XPath.Proofs.Tree.Requalified
import XPath.Tree.Sample

namespace XPath

/-! ### Tests -/

namespace NodeTest

/-- The qualifier that a test writes. -/
def qualifier? : NodeTest → Option String
  | qualified qualifier _ | inNamespace qualifier => some qualifier
  | nodeType _ | instruction _ | name _ | wildcard => none

/-- A test with its qualifier renamed. -/
def requalified (ρ : String → String) : NodeTest → NodeTest
  | qualified qualifier localPart => qualified (ρ qualifier) localPart
  | inNamespace qualifier => inNamespace (ρ qualifier)
  | test => test

/-- A renamed qualifier asks for the namespace that it is bound to. -/
theorem uri_requalified {r r' : Namespaces} {ρ : String → String} {test : NodeTest}
    (hnone : r' none = r none)
    (h : ∀ q ∈ test.qualifier?, (r (some q)).isSome ∧ r' (some (ρ q)) = r (some q)) (axis : Axis) :
    test.uri axis r = (test.requalified ρ).uri axis r' := by
  have bound : ∀ q, (r (some q)).isSome ∧ r' (some (ρ q)) = r (some q) →
      (inNamespace q).uri axis r = (inNamespace (ρ q)).uri axis r' := fun q hq => by
    obtain ⟨u, hu⟩ := Option.isSome_iff_exists.1 hq.1
    rw [uri, uri, hq.2, hu]
  cases test with
  | qualified qualifier localPart => exact bound qualifier (h qualifier rfl)
  | inNamespace qualifier => exact bound qualifier (h qualifier rfl)
  | name localPart =>
    rw [requalified, uri, uri, hnone]
    all_goals simp
  | nodeType type => rfl
  | instruction target => rfl
  | wildcard => rfl

/-- Which nodes a test accepts does not depend on how it writes its namespace. -/
theorem accepts_requalified (ρ : String → String) (test : NodeTest) (l : Links) (axis : Axis)
    (uri : Option String) (n : Node) :
    (test.requalified ρ).accepts l axis uri n = test.accepts l axis uri n := by
  cases test <;> rfl

section Named

variable {v : View} {name? : Node → Option NodeName}
  (h : ∀ n, (name? n).map NodeName.expanded = (v.name? n).map NodeName.expanded)

include h

theorem any_named (p : String × Option String → Bool) (n : Node) :
    (name? n).any (fun q => p q.expanded) = (v.name? n).any fun q => p q.expanded := by
  have hany : ∀ o : Option NodeName, (o.any fun q => p q.expanded) =
      (o.map NodeName.expanded).any p := fun o => by
    cases o <;> rfl
  rw [hany, hany, h]

/-- A test accepts the same nodes under names with the same local parts and namespaces. -/
theorem accepts_named (test : NodeTest) (axis : Axis) (uri : Option String) (n : Node) :
    test.accepts (v.named name?).toLinks axis uri n = test.accepts v.toLinks axis uri n := by
  cases test with
  | nodeType type => cases type <;> rfl
  | instruction target =>
    exact congrArg (v.isInstruction n && ·) (any_named h (fun q => q.1 == target) n)
  | name localPart =>
    exact congrArg (v.kind n == axis.principalKind && ·)
      (any_named h (fun q => q.1 == localPart && q.2 == uri) n)
  | qualified qualifier localPart =>
    exact congrArg (v.kind n == axis.principalKind && ·)
      (any_named h (fun q => q.1 == localPart && q.2 == uri) n)
  | wildcard => rfl
  | inNamespace qualifier =>
    exact congrArg (v.kind n == axis.principalKind && ·) (any_named h (fun q => q.2 == uri) n)

end Named

end NodeTest

namespace Reference

/-- The qualifier that a test writes, none for a variable. -/
def qualifier? : Reference → Option String
  | .nodeTest test => test.qualifier?
  | .variableReference _ => none

end Reference

namespace Expr

/-- The qualifiers in the tests of an expression. -/
def qualifiers (e : Expr) : List String := e.references.filterMap Reference.qualifier?

/-- An expression with the qualifiers of its tests renamed. -/
def requalified (ρ : String → String) (e : Expr) : Expr :=
  e.rewrite ⟨NodeTest.requalified ρ, .variableReference⟩

end Expr

/-! ### Names in a document -/

section Named

variable {σ : Setting} {name? : Node → Option NodeName}
  (h : ∀ n, (name? n).map NodeName.expanded = (σ.view.name? n).map NodeName.expanded)

include h

/-- A step is made ready alike under names with the same local parts and namespaces. -/
theorem Stride.ofStep_named (s : Step Meaning) :
    ofStep { σ with view := σ.view.named name? } s = ofStep σ s := by
  unfold ofStep
  simp only [View.walk_named]
  congr 1
  funext uri
  have haccepts : s.test.accepts (σ.view.named name?).toLinks s.axis uri =
      s.test.accepts σ.view.toLinks s.axis uri :=
    funext fun n => NodeTest.accepts_named h s.test s.axis uri n
  rw [haccepts]

theorem Core.identified_named :
    identified (σ.view.named name?) = identified σ.view := by
  have hidentified : isIdentified (σ.view.named name?).toLinks = isIdentified σ.view.toLinks := by
    funext wanted n
    unfold isIdentified
    refine congrArg (σ.view.isElement n && ·) (List.any_congr rfl fun a => ?_)
    exact congrArg (· && wanted.contains (σ.view.stringValue a))
      (NodeTest.any_named h (fun q => q.1 == "id" && (q.2 == none || q.2 == some xmlNamespace)) a)
  unfold identified
  rw [View.descendants_named, hidentified]

/-- What is read off the local part and the namespace of a name is the same. -/
theorem NodeName.bind_named {α : Type} (f : String × Option String → Option α)
    (n? : Option Node) :
    (n?.bind name?).bind (fun q => f q.expanded) =
      (n?.bind σ.view.name?).bind fun q => f q.expanded := by
  cases n? with
  | none => rfl
  | some n =>
    have hn := congrArg (Option.bind · f) (h n)
    rwa [Option.bind_map, Option.bind_map] at hn

/-- A core function other than `name` and `lang` does the same. -/
theorem Registry.core_named : ∀ p ∈ coreFunctions, p.1 ≠ "name" → p.1 ≠ "lang" →
    ∀ (c : Context) (arguments : List Argument) (numberOf : Context → Value → Eval Float),
      p.2 ⟨{ σ with view := σ.view.named name? }, c, arguments, numberOf⟩ =
        p.2 ⟨σ, c, arguments, numberOf⟩ := by
  have hid : ∀ c arguments numberOf,
      Core.id ⟨{ σ with view := σ.view.named name? }, c, arguments, numberOf⟩ =
        Core.id ⟨σ, c, arguments, numberOf⟩ := fun c arguments numberOf => by
    unfold Core.id Function.unary
    simp only [Call.view, Core.identified_named h]
    rfl
  have hlocalName : ∀ c arguments numberOf,
      Core.localName ⟨{ σ with view := σ.view.named name? }, c, arguments, numberOf⟩ =
        Core.localName ⟨σ, c, arguments, numberOf⟩ := fun c arguments numberOf => by
    have hmap : ∀ n? : Option Node, (n?.bind name?).map (·.localPart) =
        (n?.bind σ.view.name?).map (·.localPart) := fun n? => by
      rw [Option.map_eq_bind, Option.map_eq_bind]
      exact NodeName.bind_named h (fun p => some p.1) n?
    unfold Core.localName Function.optional
    simp only [Call.view, View.named, hmap]
    rfl
  have hnamespaceUri : ∀ c arguments numberOf,
      Core.namespaceUri ⟨{ σ with view := σ.view.named name? }, c, arguments, numberOf⟩ =
        Core.namespaceUri ⟨σ, c, arguments, numberOf⟩ := fun c arguments numberOf => by
    have hbind : ∀ n? : Option Node, (n?.bind name?).bind (·.uri) =
        (n?.bind σ.view.name?).bind (·.uri) := NodeName.bind_named h Prod.snd
    unfold Core.namespaceUri Function.optional
    simp only [Call.view, View.named, hbind]
    rfl
  unfold coreFunctions
  simp only [List.forall_mem_cons]
  refine ⟨?_, ?_, ?_, fun _ _ => hid, fun _ _ => hlocalName, fun _ _ => hnamespaceUri,
    fun h _ => absurd rfl h, ?_, ?_, ?_, ?_, ?_, ?_, ?_, ?_, ?_, ?_, ?_, ?_, ?_, ?_,
    fun _ h => absurd rfl h, ?_, ?_, ?_, ?_, ?_, by simp⟩
  all_goals exact fun _ _ _ _ _ => rfl

/-- An expression that calls neither `name` nor `lang` means the same. -/
theorem Rewriting.keeps_named :
    Rewriting.refl.Keeps (.standard Registry.core.library σ)
      (.standard Registry.core.library { σ with view := σ.view.named name? })
      (fun f => f ≠ ⟨none, "name"⟩ ∧ f ≠ ⟨none, "lang"⟩) fun _ => True := by
  have hnumberOf : Registry.core.library.numberOf σ =
      Registry.core.library.numberOf { σ with view := σ.view.named name? } := by
    funext c v
    rw [Registry.numberOf_core, Registry.numberOf_core]
    cases v <;> rfl
  constructor
  case numberOf => exact hnumberOf
  case comparison => exact fun _ _ => rfl
  case sort => exact (View.sort_named σ.view name?).symm
  case variableReference => exact fun _ _ => rfl
  case call =>
    rintro f ⟨hname, hlang⟩
    refine Meaning.call_core_congr hnumberOf rfl fun p hp hf c arguments numberOf => ?_
    refine (Registry.core_named h p hp ?_ ?_ c arguments numberOf).symm
    · exact fun h' => hname (by rw [← hf, h'])
    · exact fun h' => hlang (by rw [← hf, h'])
  case path =>
    intro start steps steps' hsteps
    refine Path.meaning_congr (σ := σ) (τ := { σ with view := σ.view.named name? }) rfl
      (View.sort_named σ.view name?).symm start (hsteps.imp fun s t hst => ⟨hst.axis, ?_⟩)
    obtain ⟨haxis, htest, -, hpredicates⟩ := hst
    rw [List.forall₂_eq_eq_eq] at hpredicates
    have hst : s = t := by
      cases s
      cases t
      simp_all [Rewriting.refl]
    rw [Stride.ofStep_named h, hst]

end Named

/-- Let the qualifiers in the tests of an expression be bound, and let all of them be renamed, to
names that another resolver binds to the same namespaces.  If the resolvers agree on names without
a qualifier, and no function is called with one, then the renamed expression means under the other
resolver what the expression meant, with results of any kind.  The qualifiers that the document
writes do not count: with any others, steps lead to the same nodes, and expressions mean the same
under both resolvers if they do not ask for names or languages. -/
theorem qualifiers_stand_for_namespaces {σ : Setting} {r : Namespaces} {ρ : String → String}
    {e : Expr} (hcalls : ∀ name ∈ e.calls, name.qualifier = none)
    (hunqualified : r none = σ.namespaces none)
    (hqualifiers : ∀ q ∈ e.qualifiers,
      (σ.namespaces (some q)).isSome ∧ r (some (ρ q)) = σ.namespaces (some q)) :
    (e.requalified ρ).meaning (.standard Registry.core.library { σ with namespaces := r }) =
      e.meaning (.standard Registry.core.library σ) ∧
    (∀ (n : Node) (shape : Shape),
      shape.evaluate (.standard Registry.core.library { σ with namespaces := r })
        (e.requalified ρ) n = shape.evaluate (.standard Registry.core.library σ) e n) ∧
    ∀ view ∈ [Forest.indexed, Forest.structural, Forest.withoutNamespaces, Forest.linked],
      ∀ f : Forest, σ.view = view f → ∀ written : Node → Option String,
        let τ : Setting := { σ with view := view (f.requalified written) }
        (∀ s, Stride.ofStep τ s = Stride.ofStep σ s) ∧
        ((∀ name ∈ e.calls, name ≠ ⟨none, "name"⟩ ∧ name ≠ ⟨none, "lang"⟩) →
          (e.requalified ρ).meaning (.standard Registry.core.library { τ with namespaces := r }) =
            e.meaning (.standard Registry.core.library σ)) := by
  have renamed : ∀ τ : Setting, τ.namespaces = σ.namespaces →
      (e.requalified ρ).meaning (.standard Registry.core.library { τ with namespaces := r }) =
        e.meaning (.standard Registry.core.library τ) := by
    intro τ hτ
    have same : Setting.SameNodes τ { τ with namespaces := r } := ⟨rfl, rfl, rfl⟩
    unfold Expr.requalified
    refine Rewriting.meaning_eq (Q := fun reference => ∀ q ∈ reference.qualifier?, q ∈ e.qualifiers)
      (Rewriting.keeps_core same ?_ (fun _ _ => rfl) ?_ ?_) hcalls ?_
    · rintro ⟨_, localPart⟩ rfl
      rfl
    · intro test htest axis
      refine NodeTest.uri_requalified (hunqualified.trans (congrFun hτ.symm none))
        (fun q hq => ?_) axis
      rw [hτ]
      exact hqualifiers q (htest q hq)
    · exact fun test _ => test.accepts_requalified ρ
    · exact fun reference hr q hq => List.mem_filterMap.2 ⟨reference, hr, hq⟩
  refine ⟨renamed σ rfl, fun n shape => ?_, fun view hview f hσ written => ?_⟩
  · unfold Shape.evaluate
    rw [renamed σ rfl]
    rfl
  · obtain ⟨name?, heq, hname⟩ := Forest.views_requalified written f hview
    rw [← hσ] at heq hname
    dsimp only
    rw [heq]
    refine ⟨Stride.ofStep_named hname, fun hother => ?_⟩
    have hnamed := Rewriting.meaning_eq (Rewriting.keeps_named hname) hother fun _ _ => trivial
    rw [Expr.rewrite_refl] at hnamed
    exact (renamed { σ with view := σ.view.named name? } rfl).trans hnamed

/-- A document of one element, which writes its namespace `urn:html` as `h`. -/
def Tree.ofHtml : Tree := (ofEntries? [⟨0, .element ⟨some "h", "p", some "urn:html"⟩⟩]).getD empty

/-- The paragraphs in a namespace that have no children in it, as an expression that writes it
as `h`. -/
def Expr.emptyParagraphs : Expr :=
  .path .context [⟨.child, .qualified "h" "p",
    [.call ⟨none, "not"⟩ [.path .context [⟨.child, .inNamespace "h", []⟩]]]⟩]

/-- The namespace may be written as `html` in the expression, and without a qualifier in the
document. -/
theorem qualifiers_stand_for_namespaces_html :
    let σ : Setting := { Setting.ofTree .ofHtml with
      namespaces := .fixed [("h", "urn:html")] (some "urn:other") }
    let r : Namespaces := .fixed [("html", "urn:html")] (some "urn:other")
    let ρ : String → String := fun _ => "html"
    let e := Expr.emptyParagraphs
    let f := Forest.requalified (fun _ => none) [Tree.ofHtml]
    (∀ name ∈ e.calls, name.qualifier = none) ∧ r none = σ.namespaces none ∧
    e.qualifiers = ["h", "h"] ∧
    (∀ q ∈ e.qualifiers, (σ.namespaces (some q)).isSome ∧ r (some (ρ q)) = σ.namespaces (some q)) ∧
    (∀ name ∈ e.calls, name ≠ ⟨none, "name"⟩ ∧ name ≠ ⟨none, "lang"⟩) ∧
    (Forest.structural [.ofHtml]).name? ⟨0, 1⟩ = some ⟨some "h", "p", some "urn:html"⟩ ∧
    f.structural.name? ⟨0, 1⟩ = some ⟨none, "p", some "urn:html"⟩ ∧
    (e.requalified ρ).meaning (.standard Registry.core.library
        { σ with view := f.indexed, namespaces := r }) =
      e.meaning (.standard Registry.core.library σ) := by
  intro σ r ρ e f
  have hcalls : ∀ name ∈ e.calls, name.qualifier = none := by decide
  have hqualifiers : ∀ q ∈ e.qualifiers,
      (σ.namespaces (some q)).isSome ∧ r (some (ρ q)) = σ.namespaces (some q) := by decide
  have hother : ∀ name ∈ e.calls, name ≠ ⟨none, "name"⟩ ∧ name ≠ ⟨none, "lang"⟩ := by decide
  obtain ⟨-, -, hview⟩ :=
    qualifiers_stand_for_namespaces (σ := σ) (r := r) (ρ := ρ) hcalls rfl hqualifiers
  obtain ⟨-, hmeaning⟩ := hview Forest.indexed (by simp) [Tree.ofHtml] rfl fun _ => none
  exact ⟨hcalls, rfl, rfl, hqualifiers, hother, rfl, rfl, hmeaning hother⟩

end XPath
