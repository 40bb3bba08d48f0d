/-
The names that an expression can write.

A name is written as a text and divided again at the first colon, after white space around it has
been trimmed off.  The names that come back as they were are those whose qualifier has no colon and
whose text is trimmed, and every trimmed text is the text of exactly one of them.

* `QName.Divided` — names that are divided again as they were;
* `Name`, `VariableName`, `Qualifier` — the names that an expression can write;
* `Name.nodeTest_nameTest`, `Name.functionName_leaf`, `VariableName.variableName_variableReference`,
  `Qualifier.nodeTest_qualifiedWildcard` — each of them comes back from its leaf of a syntax tree.
-/
import XPath.Syntax.Build
import XPath.Expr.OfSyntax
import XPath.Proofs.Text.Blank

namespace XPath

/-! ### Cutting at a character -/

namespace Text

variable {c : Char} {first rest : List Char}

theorem dropPrefix?_singleton (d : Char) (s : List Char) :
    dropPrefix? [c] (d :: s) = if c = d then some s else none := rfl

/-- A list is cut at the first occurrence of a character. -/
theorem cutAt?_singleton (h : c ∉ first) :
    cutAt? [c] (first ++ c :: rest) = some (first, rest) := by
  induction first with
  | nil => rw [List.nil_append, cutAt?, dropPrefix?_singleton, if_pos rfl]
  | cons d first ih =>
    obtain ⟨hd, hfirst⟩ := not_or.1 (mt List.mem_cons.2 h)
    rw [List.cons_append, cutAt?, dropPrefix?_singleton, if_neg hd, ih hfirst]
    rfl

theorem cutAt?_eq_none (h : c ∉ first) : cutAt? [c] first = none := by
  induction first with
  | nil => rfl
  | cons d first ih =>
    obtain ⟨hd, hfirst⟩ := not_or.1 (mt List.mem_cons.2 h)
    rw [cutAt?, dropPrefix?_singleton, if_neg hd, ih hfirst]
    rfl

end Text

/-! ### Leaves -/

namespace SyntaxTree

variable (kind : SyntaxKind) (text : String)

theorem kind_leaf : (leaf kind text).kind = kind := rfl

theorem text_leaf : (leaf kind text).text = text := rfl

end SyntaxTree

/-! ### Divided names -/

namespace QName

/-- The first colon in the text of a name stands between its parts. -/
def Divided (n : QName) : Prop := ':' ∉ (n.qualifier.getD n.localPart).toList

/-- The parts of a name are found in its text. -/
theorem Divided.splitColon?_toText {n : QName} (h : n.Divided) :
    splitColon? n.toText = n.qualifier.map (·, n.localPart) := by
  obtain ⟨_ | qualifier, localPart⟩ := n
  · have h : ':' ∉ localPart.toList := h
    show (Text.cutAt? [':'] localPart.toList).map _ = none
    rw [Text.cutAt?_eq_none h]
    rfl
  · have h : ':' ∉ qualifier.toList := h
    have htext : (qualifier ++ ":" ++ localPart).toList =
        qualifier.toList ++ ':' :: localPart.toList := by simp
    show (Text.cutAt? [':'] (qualifier ++ ":" ++ localPart).toList).map _ =
      some (qualifier, localPart)
    rw [htext, Text.cutAt?_singleton h]
    simp

theorem Divided.ofText_toText {n : QName} (h : n.Divided) : ofText n.toText = n := by
  rw [ofText, h.splitColon?_toText]
  obtain ⟨_ | qualifier, localPart⟩ := n <;> rfl

/-- A name has a colon in its text if it has a qualifier. -/
theorem Divided.contains_toText {n : QName} (h : n.Divided) :
    n.toText.toList.contains ':' = n.qualifier.isSome := by
  obtain ⟨_ | qualifier, localPart⟩ := n
  · simpa [toText, Divided] using h
  · simp [toText]

end QName

/-! ### Names without white space around them -/

/-- The name of a function or of nodes. -/
structure Name where
  name : QName
  divided : name.Divided
  trimmed : Text.trim name.toText = name.toText

namespace Name

def text (n : Name) : String := n.name.toText

/-- The test for the nodes with a name. -/
def test (n : Name) : NodeTest :=
  match n.name.qualifier with
  | some qualifier => .qualified qualifier n.name.localPart
  | none => .name n.name.localPart

/-- A name test compiles to the test for its name. -/
theorem nodeTest_nameTest (n : Name) : (SyntaxTree.nameTest n.text).nodeTest = .ok n.test := by
  have hsplit := n.divided.splitColon?_toText
  have hcolon := n.divided.contains_toText
  have htrim := n.trimmed
  unfold SyntaxTree.nameTest SyntaxTree.leaf SyntaxTree.nodeTest test text
  dsimp only [SyntaxTree.text, SyntaxTree.kind]
  rw [hcolon, htrim, hsplit]
  obtain ⟨⟨_ | qualifier, localPart⟩, -, -⟩ := n <;> rfl

/-- The name of a function comes back from its leaf. -/
theorem functionName_leaf (n : Name) :
    (SyntaxTree.leaf .functionName n.text).functionName = .ok n.name := by
  rw [SyntaxTree.functionName, SyntaxTree.kind_leaf, if_pos rfl, SyntaxTree.text_leaf, text,
    n.trimmed, n.divided.ofText_toText]

end Name

/-- The name of a variable. -/
structure VariableName where
  text : String
  ne_empty : text ≠ ""
  trimmed : Text.trim text = text

/-- The name of a variable comes back from a reference to it. -/
theorem VariableName.variableName_variableReference (n : VariableName) :
    (SyntaxTree.variableReference n.text).variableName = .ok n.text := by
  have hne : n.text.toList ≠ [] := by simpa using n.ne_empty
  have htext : ("$" ++ n.text).toList = '$' :: n.text.toList := by simp
  have htrim : Text.trim ("$" ++ n.text) = "$" ++ n.text := by
    obtain ⟨-, hlast⟩ := Text.trim_eq_self_iff.1 n.trimmed
    rw [Text.trim_eq_self_iff, htext, List.getLast?_cons_of_ne_nil hne]
    exact ⟨by simpa using (by decide : Text.isBlank '$' = false), hlast⟩
  have hname : Text.trim (String.ofList n.text.toList) = n.text := by
    rw [String.ofList_toList, n.trimmed]
  have hempty : n.text.isEmpty = false := by simpa using n.ne_empty
  rw [SyntaxTree.variableReference, SyntaxTree.variableName, SyntaxTree.text_leaf, htrim,
    htext]
  simp only [hname, hempty, Bool.false_eq_true, if_false]

/-- The qualifier of a test for any name of a namespace. White space does not begin it; what ends
it stands in front of the colon. -/
structure Qualifier where
  text : String
  trimmed : ∀ c ∈ text.toList.head?, Text.isBlank c = false

/-- A test for any name of a namespace compiles to the test for the same qualifier. -/
theorem Qualifier.nodeTest_qualifiedWildcard (q : Qualifier) :
    (SyntaxTree.qualifiedWildcard q.text).nodeTest = .ok (.inNamespace q.text) := by
  have htext : (q.text ++ ":*").toList = q.text.toList ++ [':', '*'] := by simp
  have htrim : Text.trim (q.text ++ ":*") = q.text ++ ":*" := by
    rw [Text.trim_eq_self_iff, htext]
    refine ⟨fun c hc => ?_, by simpa using (by decide : Text.isBlank '*' = false)⟩
    cases hq : q.text.toList with
    | nil =>
      rw [hq] at hc
      obtain rfl : ':' = c := by simpa using hc
      decide
    | cons d rest => exact q.trimmed c (by simpa [hq] using hc)
  have hqualifier : SyntaxTree.wildcardQualifier? (q.text ++ ":*") = some q.text := by
    rw [SyntaxTree.wildcardQualifier?, htext, List.reverse_append]
    simp
  unfold SyntaxTree.nodeTest SyntaxTree.qualifiedWildcard
  rw [SyntaxTree.text_leaf, SyntaxTree.kind_leaf, htrim]
  dsimp only
  rw [hqualifier]

end XPath
