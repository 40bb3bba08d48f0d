/-
The syntax trees that compile.

Which trees are well shaped is said by rules for expressions, predicates and parts of paths that
refer to each other, with conditions on the texts at the leaves.  The compiler decides this: of a
well-shaped tree it makes an expression, and of any other tree it makes an error, which says that
some part of the tree is malformed or that the text of one of its axis names is not known.

* `SyntaxTree.IsExpression`, `SyntaxTree.IsPredicate`, `SyntaxTree.IsPart`,
  `SyntaxTree.IsNodeTest` — the shapes of trees;
* `Decides` — a check that succeeds exactly if a proposition holds, and else gives one of certain
  errors;
* `SyntaxTree.decides_stringBody`, …, `SyntaxTree.decides_nodeTest` — the checks of the leaves;
* `Expr.decides_ofSyntax`, `Expr.decides_filtered`, `Expr.decides_step` — those of the compiler;
* `ofSyntax_decides_shape` — the compiler accepts the well-shaped trees and no others.
-/
import XPath.Proofs.Number.Acceptance
import XPath.Proofs.Syntax.Names

namespace XPath

namespace SyntaxTree

/-! ### Texts -/

/-- A text between two equal quotes, with white space around it or not. -/
def IsQuoted (s : String) : Prop :=
  ∃ quote body, (quote = '"' ∨ quote = '\'') ∧
    (Text.trim s).toList = quote :: (body ++ [quote])

/-- A list of characters without a dollar sign in front. -/
def dropDollar : List Char → List Char
  | '$' :: rest => rest
  | s => s

/-- A text with something other than white space in it, a dollar sign in front apart. -/
def NamesVariable (s : String) : Prop :=
  ∃ c ∈ dropDollar (Text.trim s).toList, Text.isBlank c = false

/-- A numeral whose digits are counted, with blanks around it or not: a text that is read as a
number. -/
def WritesNumber (s : String) : Prop :=
  Number.IsNumeral (Text.strip Text.isXmlBlank s.toList) ∧ Number.Counted s

/-- The name of an axis or `@`, with white space around it or not. -/
def NamesAxis (s : String) : Prop := Text.trim s = "@" ∨ ∃ axis : Axis, Text.trim s = axis.name

/-- The name of a type of node, with an opening parenthesis and anything after it or not. -/
def NamesNodeType (s : String) : Prop :=
  ∃ type : NodeType,
    Text.trim (String.ofList ((Text.trim s).toList.takeWhile (· != '('))) = type.name

/-! ### Trees -/

/-- A node test: a type of node, a name, or the target of processing instructions. -/
inductive IsNodeTest : SyntaxTree → Prop
  | nodeType {text parts} (h : NamesNodeType text) : IsNodeTest (node .nodeTypeTest text parts)
  | name {text parts} : IsNodeTest (node .unprefixedNameTest text parts)
  | qualified {text parts} (h : ':' ∈ (Text.trim text).toList) :
    IsNodeTest (node .prefixedNameTest text parts)
  | wildcard {text parts} : IsNodeTest (node .unprefixedWildcardTest text parts)
  | inNamespace {text parts} (qualifier : String) (h : Text.trim text = qualifier ++ ":*") :
    IsNodeTest (node .prefixedWildcardTest text parts)
  | instruction {text literal} (h : IsQuoted literal.text) :
    IsNodeTest (node .instructionNameTest text [literal])

mutual

/-- An expression. -/
inductive IsExpression : SyntaxTree → Prop
  | binary {kind text l r} (op : BinaryOperator) (hkind : kind = op.form) (hl : IsExpression l)
    (hr : IsExpression r) : IsExpression (node kind text [l, r])
  | negate {text e} (h : IsExpression e) : IsExpression (node .unaryMinusExpr text [e])
  | paren {text e} (h : IsExpression e) : IsExpression (node .parenthesizedExpr text [e])
  | call {text name arguments} (hname : name.kind = .functionName)
    (h : ∀ a ∈ arguments, IsExpression a) :
    IsExpression (node .functionCall text (name :: arguments))
  | variableReference {text parts} (h : NamesVariable text) :
    IsExpression (node .variableReference text parts)
  | number {text parts} (h : WritesNumber text) : IsExpression (node .numberLiteral text parts)
  | string {text parts} (h : IsQuoted text) : IsExpression (node .stringLiteral text parts)
  | absolute {text parts} (h : ∀ part ∈ parts, IsPart part) :
    IsExpression (node .absoluteLocationPath text parts)
  | relative {text parts} (hne : parts ≠ []) (h : ∀ part ∈ parts, IsPart part) :
    IsExpression (node .relativeLocationPath text parts)
  | filter {text primary predicates parts} (hprimary : IsExpression primary)
    (hpredicates : ∀ p ∈ predicates, IsPredicate p) (h : ∀ part ∈ parts, IsPart part) :
    IsExpression (node .filterPathExpr text (primary :: (predicates ++ parts)))

/-- A predicate: one expression. -/
inductive IsPredicate : SyntaxTree → Prop
  | mk {text e} (h : IsExpression e) : IsPredicate (node .predicate text [e])

/-- A part of a path: a step, with an axis or without, a dot or two, or a double slash. -/
inductive IsPart : SyntaxTree → Prop
  | step {text test predicates} (htest : IsNodeTest test)
    (h : ∀ p ∈ predicates, IsPredicate p) : IsPart (node .step text (test :: predicates))
  | stepOn {text axis test predicates} (hkind : axis.kind = .axisName)
    (haxis : NamesAxis axis.text) (htest : IsNodeTest test)
    (h : ∀ p ∈ predicates, IsPredicate p) : IsPart (node .step text (axis :: test :: predicates))
  | abbreviated {text parts} (h : Text.trim text = "." ∨ Text.trim text = "..") :
    IsPart (node .abbreviatedStep text parts)
  | separator {text parts} : IsPart (node .descendantSeparator text parts)

end

/-- A tree is a part of itself, and what is a part of a child is a part of the tree. -/
inductive PartOf : SyntaxTree → SyntaxTree → Prop
  | self {t} : PartOf t t
  | child {s c kind text parts} (hc : c ∈ parts) (h : PartOf s c) : PartOf s (node kind text parts)

/-- An error says of a part of a tree that it is malformed, or is about the text of one of its axis
names. -/
def Blames (t : SyntaxTree) (e : Error) : Prop :=
  ∃ s : SyntaxTree, s.PartOf t ∧
    ((∃ fault, e = s.malformed fault) ∨ s.kind = .axisName ∧ e = .unknownAxis (Text.trim s.text))

variable {t c : SyntaxTree} {e : Error} {kind : SyntaxKind} {text : String}
  {parts : List SyntaxTree}

theorem blames_malformed (t : SyntaxTree) (fault : Malformation) : t.Blames (t.malformed fault) :=
  ⟨t, .self, Or.inl ⟨fault, rfl⟩⟩

theorem Blames.below (hc : c ∈ parts) (h : c.Blames e) : (node kind text parts).Blames e := by
  obtain ⟨s, hs, he⟩ := h
  exact ⟨s, .child hc hs, he⟩

/-- One of several trees is blamed. -/
def BlamesOne (ts : List SyntaxTree) (e : Error) : Prop := ∃ t ∈ ts, t.Blames e

theorem BlamesOne.head (h : t.Blames e) : BlamesOne (t :: parts) e := ⟨t, List.mem_cons_self, h⟩

theorem BlamesOne.tail (h : BlamesOne parts e) : BlamesOne (t :: parts) e := by
  obtain ⟨s, hs, he⟩ := h
  exact ⟨s, List.mem_cons_of_mem t hs, he⟩

theorem BlamesOne.blames (h : BlamesOne parts e) : (node kind text parts).Blames e := by
  obtain ⟨s, hs, he⟩ := h
  exact he.below hs

end SyntaxTree

/-! ### Checks -/

/-- A check ends well exactly if `p` holds, and else with an error that satisfies `B`. -/
structure Decides {α : Type} (x : Except Error α) (p : Prop) (B : Error → Prop) : Prop where
  exists_ok_iff : (∃ a, x = .ok a) ↔ p
  of_eq_error : ∀ e, x = .error e → B e

namespace Decides

variable {α β : Type} {x : Except Error α} {p q : Prop} {B C : Error → Prop}

theorem ok {a : α} (h : p) : Decides (.ok a) p B :=
  ⟨iff_of_true ⟨a, rfl⟩ h, fun _ he => nomatch he⟩

theorem error {e : Error} (hp : ¬p) (he : B e) : Decides (.error e : Except Error α) p B := by
  refine ⟨iff_of_false (fun ⟨_, ha⟩ => nomatch ha) hp, ?_⟩
  rintro _ ⟨⟩
  exact he

theorem congr (h : Decides x p B) (hpq : p ↔ q) : Decides x q B :=
  ⟨h.exists_ok_iff.trans hpq, h.of_eq_error⟩

theorem mono (h : Decides x p B) (hBC : ∀ e, B e → C e) : Decides x p C :=
  ⟨h.exists_ok_iff, fun e he => hBC e (h.of_eq_error e he)⟩

/-- Two checks one after the other decide whether both propositions hold. -/
theorem bind {f : α → Except Error β} (hx : Decides x p B) (hf : ∀ a, Decides (f a) q B) :
    Decides (x >>= f) (p ∧ q) B := by
  cases x with
  | error e => exact .error (fun h => nomatch hx.exists_ok_iff.2 h.1) (hx.of_eq_error e rfl)
  | ok a => exact (hf a).congr (and_iff_right (hx.exists_ok_iff.1 ⟨a, rfl⟩)).symm

/-- What is made of the result of a check does not matter. -/
theorem map (hx : Decides x p B) (f : α → β) : Decides (x.map f) p B := by
  cases x with
  | error e => exact .error (fun h => nomatch hx.exists_ok_iff.2 h) (hx.of_eq_error e rfl)
  | ok a => exact .ok (hx.exists_ok_iff.1 ⟨a, rfl⟩)

end Decides

/-! ### Leaves -/

namespace SyntaxTree

variable (t : SyntaxTree)

theorem decides_stringBody : Decides t.stringBody (IsQuoted t.text) t.Blames := by
  unfold stringBody IsQuoted
  cases htext : (Text.trim t.text).toList with
  | nil => exact .error (by simp) (t.blames_malformed _)
  | cons quote rest =>
    by_cases hquote : quote = '"' ∨ quote = '\''
    · dsimp only
      rw [if_pos hquote]
      obtain rfl | ⟨body, last, rfl⟩ := List.eq_nil_or_concat' rest
      · refine .error ?_ (t.blames_malformed _)
        rintro ⟨quote', body, -, h⟩
        simp at h
      · rw [List.reverse_append]
        show Decides (if last = quote then _ else _) _ _
        by_cases hlast : last = quote
        · rw [if_pos hlast]
          exact .ok ⟨quote, body, hquote, by rw [hlast]⟩
        · rw [if_neg hlast]
          refine .error ?_ (t.blames_malformed _)
          rintro ⟨quote', body', -, h⟩
          obtain ⟨rfl, h⟩ := List.cons.inj h
          exact hlast (List.append_singleton_inj.1 h).2
    · dsimp only
      rw [if_neg hquote]
      refine .error ?_ (t.blames_malformed _)
      rintro ⟨quote', body, hquote', h⟩
      obtain ⟨rfl, -⟩ := List.cons.inj h
      exact hquote hquote'

theorem isEmpty_trim (s : List Char) :
    (Text.trim (String.ofList s)).isEmpty = false ↔ ∃ c ∈ s, Text.isBlank c = false := by
  rw [← Bool.not_eq_true, String.isEmpty_iff, Text.trim, String.toList_ofList,
    ← String.toList_inj, String.toList_ofList]
  show ¬Text.strip Text.isBlank s = [] ↔ _
  rw [Text.strip_eq_nil_iff]
  simp

theorem decides_variableName : Decides t.variableName (NamesVariable t.text) t.Blames := by
  -- A name is not blank if it is not empty, for it has been trimmed.
  have hname : ∀ name : String, (name.isEmpty = false ↔ NamesVariable t.text) →
      Decides (if name.isEmpty then .error (t.malformed .emptyVariableName) else .ok name)
        (NamesVariable t.text) t.Blames := fun name h => by
    cases hempty : name.isEmpty with
    | true => exact .error (by rw [← h, hempty]; exact Bool.noConfusion) (t.blames_malformed _)
    | false => exact .ok (h.1 hempty)
  unfold variableName
  dsimp only
  refine hname _ ?_
  unfold NamesVariable
  split
  · next rest htext =>
    rw [htext]
    exact isEmpty_trim rest
  · next htext =>
    have hdollar : dropDollar (Text.trim t.text).toList = (Text.trim t.text).toList := by
      unfold dropDollar
      split
      · next rest heq => exact (htext rest heq).elim
      · rfl
    rw [hdollar, Text.trim, String.toList_ofList, ← Bool.not_eq_true, String.isEmpty_iff,
      ← String.toList_inj, String.toList_ofList]
    refine ⟨Text.exists_mem_strip, fun ⟨c, hc, _⟩ hnil => ?_⟩
    rw [show _ = [] from hnil] at hc
    cases hc

theorem decides_numberValue : Decides t.numberValue (WritesNumber t.text) t.Blames := by
  unfold numberValue WritesNumber
  rw [← Number.isNaN_read_iff]
  dsimp only
  split
  · next h => exact .error (by rw [h]; exact Bool.noConfusion) (t.blames_malformed _)
  · next h => exact .ok (Bool.not_eq_true _ ▸ h)

theorem decides_axis (hkind : t.kind = .axisName) : Decides t.axis (NamesAxis t.text) t.Blames := by
  unfold axis NamesAxis
  dsimp only
  cases haxis : Axis.ofText? (Text.trim t.text) with
  | some axis =>
    refine .ok ?_
    unfold Axis.ofText? at haxis
    split at haxis
    · next h => exact Or.inl h
    · exact Or.inr ⟨axis, by simpa [eq_comm] using List.find?_some haxis⟩
  | none =>
    refine .error ?_ ⟨t, .self, Or.inr ⟨hkind, rfl⟩⟩
    rintro (h | ⟨axis, h⟩)
    · rw [h] at haxis
      cases haxis
    · rw [h, Axis.ofText?_name] at haxis
      cases haxis

theorem decides_nodeTypeTest : Decides t.nodeTypeTest (NamesNodeType t.text) t.Blames := by
  unfold nodeTypeTest NamesNodeType
  dsimp only
  generalize Text.trim (String.ofList ((Text.trim t.text).toList.takeWhile (· != '('))) = name
  cases htype : NodeType.ofName? name with
  | some type =>
    unfold NodeType.ofName? at htype
    exact .ok ⟨type, by simpa [eq_comm] using List.find?_some htype⟩
  | none =>
    refine .error ?_ (t.blames_malformed _)
    rintro ⟨type, rfl⟩
    rw [NodeType.ofName?_name] at htype
    cases htype

/-- A text can be divided if it has a colon. -/
theorem isSome_splitColon?_iff {s : String} : (splitColon? s).isSome = true ↔ ':' ∈ s.toList := by
  by_cases h : ':' ∈ s.toList
  · obtain ⟨first, rest, heq, hfirst⟩ := List.eq_append_cons_of_mem h
    rw [splitColon?, heq, Text.cutAt?_singleton hfirst]
    simp
  · rw [splitColon?, Text.cutAt?_eq_none h]
    exact iff_of_false Bool.noConfusion h

theorem wildcardQualifier?_eq_some_iff {s qualifier : String} :
    wildcardQualifier? s = some qualifier ↔ s = qualifier ++ ":*" := by
  unfold wildcardQualifier?
  rw [← String.toList_inj, ← List.reverse_inj, String.toList_append, List.reverse_append]
  show _ ↔ s.toList.reverse = '*' :: ':' :: qualifier.toList.reverse
  split
  · next rest hrest =>
    rw [hrest, Option.some_inj, ← String.toList_inj, String.toList_ofList]
    simp [List.reverse_eq_iff]
  · next hrest => exact iff_of_false (by simp) fun h => hrest _ h

theorem decides_nodeTest : Decides t.nodeTest t.IsNodeTest t.Blames := by
  obtain ⟨kind, text, parts⟩ := t
  unfold nodeTest
  dsimp only [SyntaxTree.kind, SyntaxTree.text, children]
  split
  · refine (decides_nodeTypeTest _).congr ⟨.nodeType, fun h => ?_⟩
    cases h with
    | nodeType h => exact h
  · split
    · next literal =>
      refine (((decides_stringBody literal).map _).mono fun e he => ?_).congr
        ⟨.instruction, fun h => ?_⟩
      · exact he.below (List.mem_singleton_self literal)
      · cases h with
        | instruction h => exact h
    · next hparts =>
      refine .error (fun h => ?_) (blames_malformed _ _)
      cases h with
      | instruction h => exact hparts _ rfl
  · exact .ok .name
  · split
    · next hsplit => exact .ok (.qualified (isSome_splitColon?_iff.1 (by rw [hsplit]; rfl)))
    · next hsplit =>
      refine .error (fun h => ?_) (blames_malformed _ _)
      cases h with
      | qualified h => simpa [hsplit] using isSome_splitColon?_iff.2 h
  · exact .ok .wildcard
  · split
    · next qualifier h => exact .ok (.inNamespace qualifier (wildcardQualifier?_eq_some_iff.1 h))
    · next hnone =>
      refine .error (fun h => ?_) (blames_malformed _ _)
      cases h with
      | inNamespace qualifier h => simpa [hnone] using wildcardQualifier?_eq_some_iff.2 h
  · refine .error (fun h => ?_) (blames_malformed _ _)
    cases h <;> contradiction

theorem decides_functionName :
    Decides t.functionName (t.kind = .functionName) t.Blames := by
  unfold functionName
  split
  · next h => exact .ok h
  · next h => exact .error h (t.blames_malformed _)

end SyntaxTree

theorem Step.decides_ofAbbreviation {ε : Type} (t : SyntaxTree) :
    Decides (Step.ofAbbreviation (ε := ε) t) (Text.trim t.text = "." ∨ Text.trim t.text = "..")
      t.Blames := by
  unfold Step.ofAbbreviation
  split
  · next h => exact .ok (Or.inl h)
  · next h => exact .ok (Or.inr h)
  · next h h' => exact .error (not_or.2 ⟨h, h'⟩) (t.blames_malformed _)

/-! ### Shapes by kind -/

namespace SyntaxTree

variable {kind : SyntaxKind} {text : String} {t part : SyntaxTree} {parts : List SyntaxTree}

theorem form_ne (h : BinaryOperator.ofForm? kind = none) (op : BinaryOperator) :
    kind ≠ op.form := by
  rintro hkind
  rw [BinaryOperator.ofForm?_eq_some_iff.2 hkind] at h
  cases h

theorem isExpression_form_iff (op : BinaryOperator) :
    IsExpression (node op.form text parts) ↔
      ∃ l r, parts = [l, r] ∧ l.IsExpression ∧ r.IsExpression := by
  constructor
  · intro h
    have hform := BinaryOperator.ofForm?_eq_some_iff.2 (Eq.refl op.form)
    generalize op.form = kind at h hform
    cases h with
    | binary _ _ hl hr => exact ⟨_, _, rfl, hl, hr⟩
    | _ => cases hform
  · rintro ⟨l, r, rfl, hl, hr⟩
    exact .binary op rfl hl hr

theorem isExpression_negate_iff :
    IsExpression (node .unaryMinusExpr text parts) ↔ ∃ e, parts = [e] ∧ e.IsExpression := by
  constructor
  · intro h
    cases h with
    | binary op hkind => exact (form_ne rfl op hkind).elim
    | negate h => exact ⟨_, rfl, h⟩
  · rintro ⟨e, rfl, h⟩
    exact .negate h

theorem isExpression_paren_iff :
    IsExpression (node .parenthesizedExpr text parts) ↔ ∃ e, parts = [e] ∧ e.IsExpression := by
  constructor
  · intro h
    cases h with
    | binary op hkind => exact (form_ne rfl op hkind).elim
    | paren h => exact ⟨_, rfl, h⟩
  · rintro ⟨e, rfl, h⟩
    exact .paren h

theorem isExpression_call_iff :
    IsExpression (node .functionCall text parts) ↔ ∃ name arguments, parts = name :: arguments ∧
      name.kind = .functionName ∧ ∀ a ∈ arguments, a.IsExpression := by
  constructor
  · intro h
    cases h with
    | binary op hkind => exact (form_ne rfl op hkind).elim
    | call hname h => exact ⟨_, _, rfl, hname, h⟩
  · rintro ⟨name, arguments, rfl, hname, h⟩
    exact .call hname h

theorem isExpression_variableReference_iff :
    IsExpression (node .variableReference text parts) ↔ NamesVariable text := by
  refine ⟨fun h => ?_, .variableReference⟩
  cases h with
  | binary op hkind => exact (form_ne rfl op hkind).elim
  | variableReference h => exact h

theorem isExpression_number_iff :
    IsExpression (node .numberLiteral text parts) ↔ WritesNumber text := by
  refine ⟨fun h => ?_, .number⟩
  cases h with
  | binary op hkind => exact (form_ne rfl op hkind).elim
  | number h => exact h

theorem isExpression_string_iff :
    IsExpression (node .stringLiteral text parts) ↔ IsQuoted text := by
  refine ⟨fun h => ?_, .string⟩
  cases h with
  | binary op hkind => exact (form_ne rfl op hkind).elim
  | string h => exact h

theorem isExpression_absolute_iff :
    IsExpression (node .absoluteLocationPath text parts) ↔ ∀ part ∈ parts, part.IsPart := by
  refine ⟨fun h => ?_, .absolute⟩
  cases h with
  | binary op hkind => exact (form_ne rfl op hkind).elim
  | absolute h => exact h

theorem isExpression_relative_iff :
    IsExpression (node .relativeLocationPath text parts) ↔
      parts ≠ [] ∧ ∀ part ∈ parts, part.IsPart := by
  refine ⟨fun h => ?_, fun h => .relative h.1 h.2⟩
  cases h with
  | binary op hkind => exact (form_ne rfl op hkind).elim
  | relative hne h => exact ⟨hne, h⟩

/-- What may follow the primary expression of a filter: predicates, then parts of a path. -/
def IsFiltering (ts : List SyntaxTree) : Prop :=
  ∃ predicates parts, ts = predicates ++ parts ∧ (∀ p ∈ predicates, IsPredicate p) ∧
    ∀ part ∈ parts, IsPart part

theorem isExpression_filter_iff :
    IsExpression (node .filterPathExpr text parts) ↔
      ∃ primary rest, parts = primary :: rest ∧ primary.IsExpression ∧ IsFiltering rest := by
  constructor
  · intro h
    cases h with
    | binary op hkind => exact (form_ne rfl op hkind).elim
    | filter hprimary hpredicates h => exact ⟨_, _, rfl, hprimary, _, _, rfl, hpredicates, h⟩
  · rintro ⟨primary, rest, rfl, hprimary, predicates, parts, rfl, hpredicates, h⟩
    exact .filter hprimary hpredicates h

/-- The kinds of expressions. -/
theorem IsExpression.kind_mem (h : t.IsExpression) (hkind : BinaryOperator.ofForm? t.kind = none) :
    t.kind ∈ [SyntaxKind.unaryMinusExpr, .parenthesizedExpr, .functionCall, .variableReference,
      .numberLiteral, .stringLiteral, .absoluteLocationPath, .relativeLocationPath,
      .filterPathExpr] := by
  cases h with
  | binary op h => exact (form_ne hkind op h).elim
  | _ => simp [SyntaxTree.kind]

theorem isPredicate_iff :
    IsPredicate (node kind text parts) ↔
      kind = .predicate ∧ ∃ e, parts = [e] ∧ e.IsExpression := by
  constructor
  · rintro ⟨h⟩
    exact ⟨rfl, _, rfl, h⟩
  · rintro ⟨rfl, e, rfl, h⟩
    exact .mk h

theorem IsPredicate.kind_eq (h : t.IsPredicate) : t.kind = .predicate := by
  cases h
  rfl

theorem IsPart.kind_mem (h : t.IsPart) :
    t.kind ∈ [SyntaxKind.step, .abbreviatedStep, .descendantSeparator] := by
  cases h <;> simp [SyntaxTree.kind]

theorem IsPart.kind_ne (h : t.IsPart) : t.kind ≠ .predicate := by
  have hmem := h.kind_mem
  intro hkind
  rw [hkind] at hmem
  revert hmem
  decide

theorem IsNodeTest.kind_ne (h : t.IsNodeTest) : t.kind ≠ .axisName := by
  cases h <;> exact SyntaxKind.noConfusion

theorem isPart_abbreviated_iff :
    IsPart (node .abbreviatedStep text parts) ↔
      Text.trim text = "." ∨ Text.trim text = ".." := by
  refine ⟨fun h => ?_, .abbreviated⟩
  cases h with
  | abbreviated h => exact h

theorem isPart_step_iff (hkind : t.kind ≠ .axisName) :
    IsPart (node .step text (t :: parts)) ↔ (∀ p ∈ parts, p.IsPredicate) ∧ t.IsNodeTest := by
  refine ⟨fun h => ?_, fun h => .step h.2 h.1⟩
  cases h with
  | step htest h => exact ⟨h, htest⟩
  | stepOn haxis => exact (hkind haxis).elim

theorem isPart_stepOn_iff (hkind : t.kind = .axisName) {test : SyntaxTree} :
    IsPart (node .step text (t :: test :: parts)) ↔
      NamesAxis t.text ∧ (∀ p ∈ parts, p.IsPredicate) ∧ test.IsNodeTest := by
  refine ⟨fun h => ?_, fun h => .stepOn hkind h.1 h.2.2 h.2.1⟩
  cases h with
  | step htest h => exact (htest.kind_ne hkind).elim
  | stepOn _ haxis htest h => exact ⟨haxis, h, htest⟩

theorem not_isPart_of_axis (hkind : t.kind = .axisName) : ¬IsPart (node .step text [t]) := by
  intro h
  cases h with
  | step htest h => exact htest.kind_ne hkind

theorem isFiltering_nil : IsFiltering [] := ⟨[], [], rfl, by simp, by simp⟩

theorem isFiltering_cons_predicate (hkind : part.kind = .predicate) :
    IsFiltering (part :: parts) ↔ part.IsPredicate ∧ IsFiltering parts := by
  constructor
  · rintro ⟨_ | ⟨p, predicates⟩, rest, hsplit, hpredicates, hrest⟩
    · obtain rfl : part :: parts = rest := hsplit
      exact ((hrest part List.mem_cons_self).kind_ne hkind).elim
    · obtain ⟨rfl, rfl⟩ := List.cons.inj hsplit
      obtain ⟨hp, hpredicates⟩ := List.forall_mem_cons.1 hpredicates
      exact ⟨hp, predicates, rest, rfl, hpredicates, hrest⟩
  · rintro ⟨hpart, predicates, rest, rfl, hpredicates, hrest⟩
    exact ⟨part :: predicates, rest, rfl, List.forall_mem_cons.2 ⟨hpart, hpredicates⟩, hrest⟩

theorem isFiltering_cons_part (hkind : part.kind ≠ .predicate) :
    IsFiltering (part :: parts) ↔ part.IsPart ∧ ∀ p ∈ parts, p.IsPart := by
  rw [← List.forall_mem_cons]
  constructor
  · rintro ⟨_ | ⟨p, predicates⟩, rest, hsplit, hpredicates, hrest⟩
    · obtain rfl : part :: parts = rest := hsplit
      exact hrest
    · obtain ⟨rfl, rfl⟩ := List.cons.inj hsplit
      exact (hkind (hpredicates part List.mem_cons_self).kind_eq).elim
  · exact fun h => ⟨[], part :: parts, rfl, by simp, h⟩

end SyntaxTree

/-! ### The compiler -/

namespace Expr

open SyntaxTree

/-- A tree and then the trees after it are checked. -/
theorem decides_cons {α β γ : Type} {t : SyntaxTree} {ts : List SyntaxTree} {x : Except Error α}
    {y : Except Error β} {p q : Prop} {f : α → β → γ} (hx : Decides x p t.Blames)
    (hy : Decides y q (BlamesOne ts)) :
    Decides (do
      let a ← x
      let b ← y
      return f a b) (p ∧ q) (BlamesOne (t :: ts)) :=
  (hx.mono fun _ => .head).bind fun _ => (hy.mono fun _ => .tail).map _

mutual

/-- The compiler of expressions decides whether a tree is an expression. -/
theorem decides_ofSyntax : (t : SyntaxTree) → Decides (ofSyntax t) t.IsExpression t.Blames
  | .node kind text parts => by
    rw [ofSyntax.eq_def]
    dsimp only
    split
    · next op hop =>
      obtain rfl := BinaryOperator.ofForm?_eq_some_iff.1 hop
      split
      · next l r =>
        refine (((decides_ofSyntax l).mono fun e he => ?_).bind fun _ =>
          (((decides_ofSyntax r).mono fun e he => ?_).map _)).congr ?_
        · exact he.below (by simp)
        · exact he.below (by simp)
        · simp [isExpression_form_iff]
      · next hparts =>
        refine .error (fun h => ?_) (blames_malformed _ _)
        obtain ⟨l, r, rfl, -⟩ := (isExpression_form_iff op).1 h
        exact hparts l r rfl
    · next hop =>
      split
      · exact ((decides_only _ text parts).map _).congr isExpression_negate_iff.symm
      · exact (decides_only _ text parts).congr isExpression_paren_iff.symm
      · split
        · next name arguments =>
          refine ((((decides_functionName name).mono fun e he => ?_).bind fun _ =>
            ((decides_list arguments).mono fun e he => ?_).map _)).congr ?_
          · exact he.below (by simp)
          · exact he.tail.blames
          · simp [isExpression_call_iff]
        · refine .error (fun h => ?_) (blames_malformed _ _)
          obtain ⟨_, _, hnil, -⟩ := isExpression_call_iff.1 h
          cases hnil
      · exact ((decides_variableName _).map _).congr isExpression_variableReference_iff.symm
      · exact ((decides_numberValue _).map _).congr isExpression_number_iff.symm
      · exact ((decides_stringBody _).map _).congr isExpression_string_iff.symm
      · exact (((decides_steps parts).mono fun _ => BlamesOne.blames).map _).congr
          isExpression_absolute_iff.symm
      · split
        · next hempty =>
          refine .error (fun h => ?_) (blames_malformed _ _)
          exact (isExpression_relative_iff.1 h).1 (List.isEmpty_iff.1 hempty)
        · next hempty =>
          refine (((decides_steps parts).mono fun _ => BlamesOne.blames).map _).congr ?_
          rw [isExpression_relative_iff, and_iff_right (mt List.isEmpty_iff.2 hempty)]
      · split
        · next primary =>
          refine ((decides_ofSyntax primary).mono fun e he => he.below (by simp)).congr ?_
          simp [isExpression_filter_iff, isFiltering_nil]
        · next primary rest _ =>
          refine (((decides_ofSyntax primary).mono fun e he => ?_).bind fun _ =>
            ((decides_filtered rest).mono fun e he => ?_).bind fun _ => .ok trivial).congr ?_
          · exact he.below (by simp)
          · exact he.tail.blames
          · simp [isExpression_filter_iff]
        · refine .error (fun h => ?_) (blames_malformed _ _)
          obtain ⟨_, _, hnil, -⟩ := isExpression_filter_iff.1 h
          cases hnil
      · refine .error (fun h => ?_) (blames_malformed _ _)
        have hmem := h.kind_mem hop
        simp_all [SyntaxTree.kind]

/-- The only part that a tree may have is checked. -/
theorem decides_only (kind : SyntaxKind) (text : String) : (parts : List SyntaxTree) →
    Decides (only (.node kind text parts) parts) (∃ e, parts = [e] ∧ e.IsExpression)
      (SyntaxTree.node kind text parts).Blames
  | [] => .error (by simp) (blames_malformed _ _)
  | [e] => ((decides_ofSyntax e).mono fun err he => he.below (by simp)).congr (by simp)
  | _ :: _ :: _ => .error (by simp) (blames_malformed _ _)

theorem decides_list : (ts : List SyntaxTree) →
    Decides (list ts) (∀ t ∈ ts, t.IsExpression) (BlamesOne ts)
  | [] => .ok (by simp)
  | t :: rest =>
    (decides_cons (decides_ofSyntax t) (decides_list rest)).congr List.forall_mem_cons.symm

/-- The compiler of filters decides whether trees may follow a primary expression. -/
theorem decides_filtered : (ts : List SyntaxTree) →
    Decides (filtered ts) (IsFiltering ts) (BlamesOne ts)
  | [] => .ok isFiltering_nil
  | part :: rest => by
    rw [filtered]
    split
    · next hkind =>
      exact (decides_cons (decides_predicate part) (decides_filtered rest)).congr
        (isFiltering_cons_predicate hkind).symm
    · next hkind =>
      exact (decides_cons (decides_step part) (decides_steps rest)).congr
        (isFiltering_cons_part hkind).symm

theorem decides_predicate : (t : SyntaxTree) → Decides (predicate t) t.IsPredicate t.Blames
  | .node kind text parts => by
    rw [predicate]
    split
    · next hkind =>
      exact (decides_only kind text parts).congr (by rw [isPredicate_iff, and_iff_right hkind])
    · next hkind => exact .error (fun h => hkind h.kind_eq) (blames_malformed _ _)

theorem decides_predicates : (ts : List SyntaxTree) →
    Decides (predicates ts) (∀ t ∈ ts, t.IsPredicate) (BlamesOne ts)
  | [] => .ok (by simp)
  | t :: rest =>
    (decides_cons (decides_predicate t) (decides_predicates rest)).congr List.forall_mem_cons.symm

/-- The compiler of steps decides whether a tree is a part of a path. -/
theorem decides_step : (t : SyntaxTree) → Decides (step t) t.IsPart t.Blames
  | .node kind text parts => by
    rw [step.eq_def]
    dsimp only
    split
    · split
      · refine .error (fun h => ?_) (blames_malformed _ _)
        cases h
      · next first rest =>
        split
        · next hkind =>
          have haxis : Decides first.axis (NamesAxis first.text)
              (SyntaxTree.node .step text (first :: rest)).Blames :=
            (decides_axis first hkind).mono fun e he => he.below List.mem_cons_self
          cases rest with
          | nil =>
            refine (haxis.bind fun _ => .error not_false (blames_malformed _ _)).congr ?_
            exact iff_of_false (fun h => h.2) (not_isPart_of_axis hkind)
          | cons test rest =>
            refine (haxis.bind fun _ => ((decides_predicates rest).mono fun e he => ?_).bind
              fun _ => ((decides_nodeTest test).mono fun e he => ?_).map _).congr
              (isPart_stepOn_iff hkind).symm
            · exact he.tail.tail.blames
            · exact he.below (by simp)
        · next hkind =>
          refine (((decides_predicates rest).mono fun e he => ?_).bind fun _ =>
            ((decides_nodeTest first).mono fun e he => ?_).map _).congr (isPart_step_iff hkind).symm
          · exact he.tail.blames
          · exact he.below (by simp)
    · exact (Step.decides_ofAbbreviation _).congr isPart_abbreviated_iff.symm
    · exact .ok .separator
    · refine .error (fun h => ?_) (blames_malformed _ _)
      have hmem := h.kind_mem
      simp_all [SyntaxTree.kind]

theorem decides_steps : (ts : List SyntaxTree) →
    Decides (steps ts) (∀ t ∈ ts, t.IsPart) (BlamesOne ts)
  | [] => .ok (by simp)
  | t :: rest =>
    (decides_cons (decides_step t) (decides_steps rest)).congr List.forall_mem_cons.symm

end

end Expr

/-- The compiler accepts a syntax tree exactly if it is well shaped.  For every other tree it says
that a part of it is malformed, or that the text of one of its axis names is not known. -/
theorem ofSyntax_decides_shape (t : SyntaxTree) :
    ((∃ e, Expr.ofSyntax t = .ok e) ↔ t.IsExpression) ∧
      ((∃ error, Expr.ofSyntax t = .error error) ↔ ¬t.IsExpression) ∧
      ∀ error, Expr.ofSyntax t = .error error →
        ∃ s : SyntaxTree, s.PartOf t ∧
          ((∃ fault, error = .malformed s.kind s.text fault) ∨
            s.kind = .axisName ∧ error = .unknownAxis (Text.trim s.text)) := by
  have h := Expr.decides_ofSyntax t
  refine ⟨h.exists_ok_iff, ?_, h.of_eq_error⟩
  rw [← h.exists_ok_iff]
  cases Expr.ofSyntax t <;> simp

/-- A double slash alone is a path from the context node, and nothing at all is none. -/
theorem ofSyntax_decides_shape_sample :
    (SyntaxTree.relative [.descendant]).IsExpression ∧ ¬(SyntaxTree.relative []).IsExpression := by
  obtain ⟨haccepted, -⟩ := ofSyntax_decides_shape (.relative [.descendant])
  obtain ⟨-, hrefused, -⟩ := ofSyntax_decides_shape (.relative [])
  exact ⟨haccepted.1 ⟨_, rfl⟩, hrefused.1 ⟨_, rfl⟩⟩

end XPath
