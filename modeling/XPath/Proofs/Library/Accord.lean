/-
The core functions keep every accord.

A core function does nothing but evaluate its arguments, ask for the context and compute.  So its
calls are in accord whenever what it is called with is, whatever the accord is about.  What it asks
a view about are nodes that it was given or that it comes by from the document or the context node.

* `View.Alike.identified_eq`, `View.Alike.language?_eq` — what two views find from there;
* `Accord.functions_unary`, … — one lemma for each way of taking arguments;
* `Accord.libraries_core` — the library of the core functions is in accord with itself.
-/
import XPath.Library.Registry
import XPath.Proofs.Evaluation.Accord

namespace XPath

/-! ### What views find -/

theorem findSome?_congr {α β : Type} {f g : α → Option β} {xs : List α}
    (h : ∀ a ∈ xs, f a = g a) : xs.findSome? f = xs.findSome? g := by
  induction xs with
  | nil => rfl
  | cons a rest ih =>
    obtain ⟨ha, hrest⟩ := List.forall_mem_cons.1 h
    rw [List.findSome?_cons, List.findSome?_cons, ha, ih hrest]

namespace View.Alike

variable {v w : View} {Known : Node → Prop} (h : v.Alike w Known) {n : Node} (hn : Known n)

include h

theorem identifierText_eq {s : NodeSet} (hs : ∀ n ∈ s.nodes, Known n) :
    Core.identifierText v (.nodeSet s) = Core.identifierText w (.nodeSet s) := by
  rw [Core.identifierText, Core.identifierText,
    List.map_congr_left fun n hn => h.stringValue (hs n hn)]

include hn

theorem isIdentified_eq (wanted : List String) :
    Core.isIdentified v.toLinks wanted n = Core.isIdentified w.toLinks wanted n := by
  rw [Core.isIdentified, Core.isIdentified, ← h.isElement_eq hn, ← h.attributes_eq hn]
  refine congrArg _ (Bool.eq_iff_iff.2 ?_)
  rw [List.any_eq_true, List.any_eq_true]
  refine exists_congr fun a => and_congr_right fun ha => ?_
  have ha := h.known_attributes hn ha
  rw [Core.isIdentifier, Core.isIdentifier, h.name? ha, h.stringValue ha]

/-- The same elements of a document are identified. -/
theorem identified_eq (wanted : List String) :
    Core.identified v n wanted = Core.identified w n wanted := by
  rw [Core.identified, Core.identified, ← h.descendants_eq hn]
  exact List.filter_congr fun m hm => h.isIdentified_eq (h.known_descendants hn hm) wanted

/-- The same language is declared for a node. -/
theorem language?_eq : Core.language? v.toLinks n = Core.language? w.toLinks n := by
  have hknown : ∀ m ∈ n :: v.ancestors n, Known m :=
    List.forall_mem_cons.2 ⟨hn, fun m hm => h.known_ancestors hn hm⟩
  have hdeclared : ∀ m ∈ n :: v.ancestors n, (v.attributes m).find? (Core.isLanguage v.toLinks) =
      (w.attributes m).find? (Core.isLanguage w.toLinks) := by
    intro m hm
    rw [← h.attributes_eq (hknown m hm)]
    refine List.find?_congr fun a ha => ?_
    rw [Core.isLanguage, Core.isLanguage, h.name? (h.known_attributes (hknown m hm) ha)]
  rw [Core.language?, Core.language?, ← h.ancestors_eq hn, ← findSome?_congr hdeclared]
  refine Option.map_congr fun a ha => ?_
  obtain ⟨_, m, _, hm, ha, -⟩ := List.findSome?_eq_some_iff.1 ha
  have hm := hknown m (hm ▸ List.mem_append_cons_self)
  exact h.stringValue (h.known_attributes hm (List.mem_of_find?_eq_some ha))

end View.Alike

namespace Accord

variable {ι : Type} {A : Accord ι}

/-! ### What a call asks for -/

section Calls

variable {k : ι} {c d : Call} (h : A.Calls k c d) {a b : Argument} (ha : A.Arguments a b)

include h

theorem Calls.view_left : c.view = A.setting.view := by rw [Call.view, h.setting_left]

theorem Calls.view_right : d.view = A.mirror := by rw [Call.view, h.setting_right]

/-- The context node has the same text on both sides. -/
theorem Calls.stringValue :
    c.view.stringValue c.context.node = d.view.stringValue d.context.node := by
  rw [h.view_left, h.view_right, ← h.context.node]
  exact A.alike.stringValue h.context.known

include ha

theorem Calls.string : A.Plain k (c.string a) (d.string b) := by
  unfold Call.string
  rw [h.view_left, h.view_right]
  refine A.bind (ha.value h.context) fun v hv => ?_
  rw [toText_eq hv]
  exact A.pure trivial

theorem Calls.number : A.Plain k (c.number a) (d.number b) :=
  A.bind (ha.value h.context) fun _ hv => h.numberOf h.context hv

theorem Calls.nodes (name : String) :
    A.Holds k (fun s => A.Good (.nodeSet s)) (c.nodes name a) (d.nodes name b) := by
  refine A.bind (ha.value h.context) fun v hv => ?_
  cases v with
  | nodeSet s => exact A.pure hv
  | string s => exact A.throw (.functionFailed _ _)
  | number x => exact A.throw (.functionFailed _ _)
  | boolean x => exact A.throw (.functionFailed _ _)

end Calls

section OptionalArguments

variable {k : ι} {c d : Call} (h : A.Calls k c d) {a b : Option Argument}
  (ha : Option.Rel A.Arguments a b)

include h ha

theorem Calls.stringOrContext : A.Plain k (c.stringOrContext a) (d.stringOrContext b) := by
  cases ha with
  | some ha => exact h.string ha
  | none =>
    unfold Call.stringOrContext
    rw [h.stringValue]
    exact A.pure trivial

/-- The node that a function of nodes is about is known. -/
theorem Calls.nodeOrContext (name : String) :
    A.Holds k (fun n? => ∀ n ∈ n?, A.Known n) (c.nodeOrContext name a)
      (d.nodeOrContext name b) := by
  cases ha with
  | some ha =>
    unfold Call.nodeOrContext
    rw [h.view_left, h.view_right]
    refine A.bind (h.nodes ha name) fun s hs => ?_
    obtain ⟨heq, hknown⟩ := A.alike.first?_eq (A.known hs)
    rw [NodeSet.first?, NodeSet.first?, ← heq]
    exact A.pure hknown
  | none =>
    unfold Call.nodeOrContext
    rw [← h.context.node]
    refine A.pure ?_
    rintro n ⟨⟩
    exact h.context.known

end OptionalArguments

/-! ### Ways of taking arguments -/

theorem holds_refuse {k : ι} {c d : Call} (h : A.Calls k c d) {α : Type} {P : α → Prop}
    (name : String) (arity : Arity) :
    A.Holds k P (Function.refuse name arity c) (Function.refuse name arity d) := by
  unfold Function.refuse
  rw [h.arguments.length_eq]
  exact A.throw (.functionFailed _ _)

theorem functions_nullary {name : String} {f g : Call → Eval Value}
    (h : ∀ {k c d}, A.Calls k c d → A.Holds k A.Good (f c) (g d)) :
    A.Functions (.nullary name f) (.nullary name g) := by
  rintro k ⟨_, _, as, _⟩ ⟨_, _, bs, _⟩ hc
  have hab : List.Forall₂ A.Arguments as bs := hc.arguments
  cases hab with
  | nil => exact h hc
  | cons _ _ => exact holds_refuse hc name _

theorem functions_unary {name : String} {f g : Call → Argument → Eval Value}
    (h : ∀ {k c d a b}, A.Calls k c d → A.Arguments a b → A.Holds k A.Good (f c a) (g d b)) :
    A.Functions (.unary name f) (.unary name g) := by
  rintro k ⟨_, _, as, _⟩ ⟨_, _, bs, _⟩ hc
  have hab : List.Forall₂ A.Arguments as bs := hc.arguments
  rcases hab with _ | ⟨ha, _ | ⟨_, _⟩⟩
  · exact holds_refuse hc name _
  · exact h hc ha
  · exact holds_refuse hc name _

theorem functions_optional {name : String} {f g : Call → Option Argument → Eval Value}
    (h : ∀ {k c d a b}, A.Calls k c d → Option.Rel A.Arguments a b →
      A.Holds k A.Good (f c a) (g d b)) :
    A.Functions (.optional name f) (.optional name g) := by
  rintro k ⟨_, _, as, _⟩ ⟨_, _, bs, _⟩ hc
  have hab : List.Forall₂ A.Arguments as bs := hc.arguments
  rcases hab with _ | ⟨ha, _ | ⟨_, _⟩⟩
  · exact h hc .none
  · exact h hc (.some ha)
  · exact holds_refuse hc name _

theorem functions_binary {name : String} {f g : Call → Argument → Argument → Eval Value}
    (h : ∀ {k c d a b a' b'}, A.Calls k c d → A.Arguments a b → A.Arguments a' b' →
      A.Holds k A.Good (f c a a') (g d b b')) :
    A.Functions (.binary name f) (.binary name g) := by
  rintro k ⟨_, _, as, _⟩ ⟨_, _, bs, _⟩ hc
  have hab : List.Forall₂ A.Arguments as bs := hc.arguments
  rcases hab with _ | ⟨ha, _ | ⟨ha', _ | ⟨_, _⟩⟩⟩
  · exact holds_refuse hc name _
  · exact holds_refuse hc name _
  · exact h hc ha ha'
  · exact holds_refuse hc name _

theorem functions_twoOrThree {name : String}
    {f g : Call → Argument → Argument → Option Argument → Eval Value}
    (h : ∀ {k c d a b a' b' o p}, A.Calls k c d → A.Arguments a b → A.Arguments a' b' →
      Option.Rel A.Arguments o p → A.Holds k A.Good (f c a a' o) (g d b b' p)) :
    A.Functions (.twoOrThree name f) (.twoOrThree name g) := by
  rintro k ⟨_, _, as, _⟩ ⟨_, _, bs, _⟩ hc
  have hab : List.Forall₂ A.Arguments as bs := hc.arguments
  rcases hab with _ | ⟨ha, _ | ⟨ha', _ | ⟨ho, _ | ⟨_, _⟩⟩⟩⟩
  · exact holds_refuse hc name _
  · exact holds_refuse hc name _
  · exact h hc ha ha' .none
  · exact h hc ha ha' (.some ho)
  · exact holds_refuse hc name _

theorem functions_ternary {name : String}
    {f g : Call → Argument → Argument → Argument → Eval Value}
    (h : ∀ {k c d a b a' b' o p}, A.Calls k c d → A.Arguments a b → A.Arguments a' b' →
      A.Arguments o p → A.Holds k A.Good (f c a a' o) (g d b b' p)) :
    A.Functions (.ternary name f) (.ternary name g) := by
  rintro k ⟨_, _, as, _⟩ ⟨_, _, bs, _⟩ hc
  have hab : List.Forall₂ A.Arguments as bs := hc.arguments
  rcases hab with _ | ⟨ha, _ | ⟨ha', _ | ⟨ho, _ | ⟨_, _⟩⟩⟩⟩
  · exact holds_refuse hc name _
  · exact holds_refuse hc name _
  · exact holds_refuse hc name _
  · exact h hc ha ha' ho
  · exact holds_refuse hc name _

theorem functions_twoOrMore {name : String} {f g : Call → List Argument → Eval Value}
    (h : ∀ {k c d as bs}, A.Calls k c d → List.Forall₂ A.Arguments as bs →
      A.Holds k A.Good (f c as) (g d bs)) :
    A.Functions (.twoOrMore name f) (.twoOrMore name g) := by
  rintro k ⟨_, _, as, _⟩ ⟨_, _, bs, _⟩ hc
  have hab : List.Forall₂ A.Arguments as bs := hc.arguments
  rcases hab with _ | ⟨ha, _ | ⟨ha', hrest⟩⟩
  · exact holds_refuse hc name _
  · exact holds_refuse hc name _
  · exact h hc (.cons ha (.cons ha' hrest))

/-! ### The core functions -/

theorem functions_last : A.Functions Core.last Core.last :=
  functions_nullary fun h => map (A.size h.context.size) fun _ _ => good_number _

theorem functions_position : A.Functions Core.position Core.position :=
  functions_nullary fun h => by
    rw [h.context.position]
    exact A.pure (good_number _)

theorem functions_count : A.Functions Core.count Core.count :=
  functions_unary fun h ha => map (h.nodes ha "count") fun _ _ => good_number _

theorem good_empty : A.Good (.nodeSet .empty) := by
  -- No names identify no nodes.
  have h := A.identified []
  rwa [show Core.identified A.setting.view A.setting.document [] = [] by
    simp [Core.identified, Core.isIdentified]] at h

theorem functions_id : A.Functions Core.id Core.id :=
  functions_unary fun {k c d a b} h ha => A.bind (ha.value h.context) fun v hv => by
    have htext : Core.identifierText A.setting.view v = Core.identifierText A.mirror v := by
      cases v with
      | nodeSet s => exact A.alike.identifierText_eq (A.known hv)
      | string s => rfl
      | number x => rfl
      | boolean b => rfl
    rw [h.view_left, h.view_right, h.setting_left, h.setting_right, ← htext]
    dsimp only
    split
    · exact A.pure good_empty
    · rw [← A.alike.identified_eq A.document]
      exact A.pure (A.identified _)

/-- A function of a node. -/
theorem functions_ofNode {name : String} {f : View → Option Node → Value}
    (hf : ∀ v n?, A.Good (f v n?))
    (heq : ∀ n?, (∀ n ∈ n?, A.Known n) → f A.setting.view n? = f A.mirror n?) :
    A.Functions (.optional name fun c a => do return f c.view (← c.nodeOrContext name a))
      (.optional name fun c a => do return f c.view (← c.nodeOrContext name a)) :=
  functions_optional fun h ha => by
    rw [h.view_left, h.view_right]
    refine A.bind (h.nodeOrContext ha name) fun n? hn => ?_
    rw [heq n? hn]
    exact A.pure (hf _ _)

/-- On both sides a known node has the same name. -/
theorem bind_name? {n? : Option Node} (h : ∀ n ∈ n?, A.Known n) :
    n?.bind A.setting.view.name? = n?.bind A.mirror.name? :=
  Option.bind_congr fun n hn => A.alike.name? (h n hn)

theorem functions_localName : A.Functions Core.localName Core.localName :=
  functions_ofNode (f := fun v n? => .string (((n?.bind v.name?).map (·.localPart)).getD ""))
    (fun _ _ => good_text _) fun n? h => by
      rw [bind_name? h]

theorem functions_namespaceUri : A.Functions Core.namespaceUri Core.namespaceUri :=
  functions_ofNode
    (f := fun v n? => .string ((((n?.filter fun n => v.isElement n || v.isAttribute n).bind
      v.name?).bind (·.uri)).getD ""))
    (fun _ _ => good_text _) fun n? h => by
      have hfilter :
          (n?.filter fun n => A.setting.view.isElement n || A.setting.view.isAttribute n) =
            n?.filter fun n => A.mirror.isElement n || A.mirror.isAttribute n := by
        cases n? with
        | none => rfl
        | some n =>
          have hn := h n rfl
          rw [Option.filter_some, Option.filter_some, A.alike.isElement_eq hn,
            A.alike.isAttribute_eq hn]
      rw [← hfilter, bind_name? fun n hn => h n ((Option.filter_eq_some_iff.1 hn).1)]

theorem functions_name : A.Functions Core.name Core.name :=
  functions_ofNode (f := fun v n? => .string (((n?.bind v.name?).map (·.toText)).getD ""))
    (fun _ _ => good_text _) fun n? h => by
      rw [bind_name? h]

theorem functions_string : A.Functions Core.string Core.string :=
  functions_optional fun h ha => map (h.stringOrContext ha) fun _ _ => good_text _

theorem functions_concat : A.Functions Core.concat Core.concat :=
  functions_twoOrMore fun h hs =>
    map (holds_mapM hs fun _ _ ha => h.string ha) fun _ _ => good_text _

/-- A function of two strings is in accord, whatever it computes from them. -/
theorem functions_ofStrings {name : String} {f : String → String → Value}
    (hf : ∀ s t, A.Good (f s t)) : A.Functions (Core.ofStrings name f) (Core.ofStrings name f) :=
  functions_binary fun h ha hb =>
    A.bind (h.string ha) fun _ _ => map (h.string hb) fun _ _ => hf _ _

theorem functions_substring : A.Functions Core.substring Core.substring :=
  functions_twoOrThree fun h hs hstart hlength =>
    A.bind (h.string hs) fun s _ => A.bind (h.number hstart) fun x _ => by
      cases hlength with
      | none => exact A.pure (good_text _)
      | some hlength =>
        dsimp only
        simp only [pure_bind]
        exact map (h.number hlength) fun _ _ => good_text _

theorem functions_stringLength : A.Functions Core.stringLength Core.stringLength :=
  functions_optional fun h ha => map (h.stringOrContext ha) fun _ _ => good_number _

theorem functions_normalizeSpace : A.Functions Core.normalizeSpace Core.normalizeSpace :=
  functions_optional fun h ha => map (h.stringOrContext ha) fun _ _ => good_text _

theorem functions_translate : A.Functions Core.translate Core.translate :=
  functions_ternary fun h ha hb hd => A.bind (h.string ha) fun _ _ =>
    A.bind (h.string hb) fun _ _ => map (h.string hd) fun _ _ => good_text _

/-- A function of the truth of its argument. -/
theorem functions_ofTruth {name : String} {f : Bool → Bool} :
    A.Functions (.unary name fun c a => do return .boolean (f (← c.truth a)))
      (.unary name fun c a => do return .boolean (f (← c.truth a))) :=
  functions_unary fun h ha => map (ha.truth h.context) fun _ _ => good_boolean _

theorem functions_boolean : A.Functions Core.boolean Core.boolean := functions_ofTruth

theorem functions_not : A.Functions Core.not Core.not := functions_ofTruth

/-- A function without arguments that always gives the same scalar. -/
theorem functions_constant {name : String} {v : Value} (hv : A.Good v) :
    A.Functions (.nullary name fun _ => Pure.pure v) (.nullary name fun _ => Pure.pure v) :=
  functions_nullary fun _ => A.pure hv

theorem functions_lang : A.Functions Core.lang Core.lang :=
  functions_unary fun h ha => by
    rw [h.view_left, h.view_right, ← h.context.node, A.alike.language?_eq h.context.known]
    exact map (h.string ha) fun _ _ => good_boolean _

theorem functions_number : A.Functions Core.number Core.number :=
  functions_optional fun h ha => by
    cases ha with
    | some ha =>
      dsimp only
      rw [h.view_left, h.view_right]
      refine A.bind (ha.value h.context) fun v hv => ?_
      rw [toNumber_eq hv]
      exact A.pure (good_number _)
    | none =>
      dsimp only
      rw [h.stringValue]
      exact A.pure (good_number _)

theorem functions_sum : A.Functions Core.sum Core.sum :=
  functions_unary fun h ha => A.bind (h.nodes ha "sum") fun s hs => by
    rw [h.view_left, h.view_right]
    refine map (holds_foldlM s.nodes (fun total n hn => ?_) 0) fun _ _ => good_number _
    rw [A.alike.stringValue (A.known hs n hn)]
    exact map (h.numberOf h.context (good_text _)) fun _ _ => trivial

theorem functions_ofNumber {name : String} {f : Float → Float} :
    A.Functions (Core.ofNumber name f) (Core.ofNumber name f) :=
  functions_unary fun h ha => map (h.number ha) fun _ _ => good_number _

/-- A table of functions in accord makes a library in accord. -/
theorem libraries_registry {r : Registry} (h : ∀ p ∈ r.entries, A.Functions p.2 p.2) :
    A.Libraries r.library r.library := by
  intro name k c d _
  show Option.Rel A.Functions (r.entries.lookup name) (r.entries.lookup name)
  cases hl : r.entries.lookup name with
  | none => exact .none
  | some f =>
    obtain ⟨before, after, he, _⟩ := List.lookup_eq_some_iff.1 hl
    exact .some (h (name, f) (by simp [he]))

/-- The core functions are in accord with themselves. -/
theorem libraries_core : A.Libraries Registry.core.library Registry.core.library := by
  refine libraries_registry ?_
  simp only [Registry.core, Registry.coreFunctions, List.map_cons, List.map_nil,
    List.forall_mem_cons]
  exact ⟨functions_last, functions_position, functions_count, functions_id, functions_localName,
    functions_namespaceUri, functions_name, functions_string, functions_concat,
    functions_ofStrings fun _ _ => good_boolean _, functions_ofStrings fun _ _ => good_boolean _,
    functions_ofStrings fun _ _ => good_text _, functions_ofStrings fun _ _ => good_text _,
    functions_substring, functions_stringLength, functions_normalizeSpace, functions_translate,
    functions_boolean, functions_not, functions_constant (good_boolean _),
    functions_constant (good_boolean _), functions_lang, functions_number, functions_sum,
    functions_ofNumber, functions_ofNumber, functions_ofNumber, by simp⟩

end Accord

end XPath
