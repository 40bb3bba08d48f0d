/-
Two evaluations of one expression, side by side.

Evaluation is put together from actions by sequencing.  So a relation between actions that goes
through sequences also holds between the evaluations of an expression in two interpretations,
if it holds between what the interpretations leave open: functions, conversions to numbers,
variables and paths.  This is said here once, for every such relation; with one interpretation
on both sides it is a way to show what all evaluations have in common.  The two evaluations may have
different views, as long as these show the same of the nodes that come up.

* `Error.OfExpression` — the errors that an expression can come to;
* `Sides` — what the two evaluations start from;
* `Accord` — a family of relations between actions, with a property of all results;
* `Accord.Contexts`, `Accord.Meanings`, `Accord.Functions`, … — the relation on contexts, on
  meanings and on what takes part in an evaluation;
* `Accord.holds_holdsWith` — comparisons are in accord if conversions to numbers are;
* `Accord.Follows` — accords in which following strides is in accord, and so are paths;
* `Accord.meanings_meaning` — so are the meanings of an expression in two interpretations;
* `Accord.Exact` — accords in which everything is the same on both sides.
-/
import Mathlib
import XPath.Evaluation.Meaning
import XPath.Library.Nodes
import XPath.Proofs.Tree.Alike

namespace XPath

/-- Errors that come from an expression, rather than from the engine itself. -/
inductive Error.OfExpression : Error → Prop
  | unknownFunction (name : String) : OfExpression (.unknownFunction name)
  | functionFailed (function : String) (fault : FunctionFault) :
      OfExpression (.functionFailed function fault)
  | operandNotNodeSet (operator : String) (found : ValueKind) :
      OfExpression (.operandNotNodeSet operator found)
  | unknownVariable (name : String) : OfExpression (.unknownVariable name)
  | unresolvedQualifier (qualifier : String) : OfExpression (.unresolvedQualifier qualifier)

/-- A setting for the evaluation on the left, and another view for that on the right. -/
structure Sides where
  setting : Setting
  mirror : View
  /-- The nodes that may come up. -/
  Known : Node → Prop
  alike : setting.view.Alike mirror Known
  document : Known setting.document
  root : Known setting.root

/-- One setting for both sides. -/
@[reducible]
def Sides.same (σ : Setting) : Sides := ⟨σ, σ.view, fun _ => True, .refl σ.view, trivial, trivial⟩

/-- Relations between actions that go through sequences, one for each index.  The related actions
give the same result, and it satisfies a predicate; the results of expressions are `Good`. -/
structure Accord (ι : Type) extends Sides where
  Holds : ι → {α : Type} → (α → Prop) → Eval α → Eval α → Prop
  Good : Value → Prop
  /-- What relates the sizes of contexts, which may be more than giving the same number. -/
  Sized : ι → Eval Nat → Eval Nat → Prop
  size : ∀ {k : ι} {x y : Eval Nat}, Sized k x y → Holds k (fun _ => True) x y
  sized : ∀ {k : ι} {n : Nat}, Sized k (Pure.pure n) (Pure.pure n)
  pure : ∀ {k : ι} {α : Type} {P : α → Prop} {a : α}, P a → Holds k P (Pure.pure a) (Pure.pure a)
  throw : ∀ {k : ι} {α : Type} {P : α → Prop} {e : Error}, e.OfExpression →
    Holds k P (MonadExcept.throw e : Eval α) (MonadExcept.throw e)
  bind : ∀ {k : ι} {α β : Type} {P : α → Prop} {Q : β → Prop} {x y : Eval α} {f g : α → Eval β},
    Holds k P x y → (∀ a, P a → Holds k Q (f a) (g a)) → Holds k Q (x >>= f) (y >>= g)
  known : ∀ {s : NodeSet}, Good (.nodeSet s) → ∀ n ∈ s.nodes, Known n
  scalar : ∀ {v : Value}, v.kind ≠ .nodeSet → Good v
  union : ∀ {s t : NodeSet}, Good (.nodeSet s) → Good (.nodeSet t) →
    Good (.nodeSet (s.union setting.view t))
  identified : ∀ words,
    Good (.nodeSet ⟨Core.identified setting.view setting.document words⟩)

namespace Accord

variable {ι : Type} (A : Accord ι)

/-- The setting on the right. -/
abbrev right : Setting := { A.setting with view := A.mirror }

/-- A result of which nothing is asked. -/
abbrev Plain {α : Type} (k : ι) (x y : Eval α) : Prop := A.Holds k (fun _ => True) x y

/-- Contexts of the same known node and position. -/
structure Contexts (k : ι) (c d : Context) : Prop where
  node : c.node = d.node
  known : A.Known c.node
  position : c.position = d.position
  size : A.Sized k c.size d.size

/-- Arguments in accord in all contexts. -/
structure Arguments (a b : Argument) : Prop where
  value : ∀ {k c d}, A.Contexts k c d → A.Holds k A.Good (a.value c) (b.value d)
  truth : ∀ {k c d}, A.Contexts k c d → A.Plain k (a.truth c) (b.truth d)

/-- Predicates in accord: the same number literal, or judgements in accord. -/
inductive Predicates : Predicate → Predicate → Prop
  | position (x : Float) : Predicates (.position x) (.position x)
  | test {j j' : Context → Eval Verdict}
      (h : ∀ {k c d}, A.Contexts k c d → A.Plain k (j c) (j' d)) :
      Predicates (.test j) (.test j')

/-- Meanings in accord. -/
structure Meanings (m m' : Meaning) : Prop extends A.Arguments m.toArgument m'.toArgument where
  predicate : A.Predicates m.predicate m'.predicate

/-- Conversions to numbers in accord. -/
def Conversions (number number' : Context → Value → Eval Float) : Prop :=
  ∀ {k c d}, A.Contexts k c d → ∀ {v}, A.Good v → A.Plain k (number c v) (number' d v)

/-- Calls of a function with arguments in accord. -/
structure Calls (k : ι) (c d : Call) : Prop where
  setting_left : c.setting = A.setting
  setting_right : d.setting = A.right
  context : A.Contexts k c.context d.context
  arguments : List.Forall₂ A.Arguments c.arguments d.arguments
  numberOf : A.Conversions c.numberOf d.numberOf

/-- Functions in accord on all calls. -/
def Functions (f g : Function) : Prop := ∀ {k c d}, A.Calls k c d → A.Holds k A.Good (f c) (g d)

/-- Libraries that know the same names and have functions in accord for them. -/
def Libraries (L M : Library) : Prop :=
  ∀ name {k c d}, A.Contexts k c d →
    Option.Rel A.Functions (L name A.setting c) (M name A.right d)

/-- Steps of one axis and node test, with predicates in accord. -/
structure Steps (s t : Step Meaning) : Prop where
  axis : s.axis = t.axis
  test : s.test = t.test
  predicates : List.Forall₂ A.Meanings s.predicates t.predicates

/-- Strides that lead from known nodes to the same known candidates, with predicates in accord. -/
structure Strides (s t : Stride) : Prop where
  candidates : ∀ {n}, A.Known n → s.candidates n = t.candidates n
  known : ∀ {n m}, A.Known n → m ∈ s.candidates n → A.Known m
  predicates : List.Forall₂ A.Predicates s.predicates t.predicates

/-- Starts of paths in accord. -/
inductive Starts : Start Meaning → Start Meaning → Prop
  | root : Starts .root .root
  | context : Starts .context .context
  | filter {m m' ps qs} (h : A.Meanings m m') (hp : List.Forall₂ A.Meanings ps qs) :
      Starts (.filter m ps) (.filter m' qs)

/-- Interpretations that are in accord in all that they leave open. -/
structure Interpretations (i j : Interpretation) : Prop where
  setting_left : i.setting = A.setting
  setting_right : j.setting = A.right
  library : A.Libraries i.library j.library
  numberOf : A.Conversions i.numberOf j.numberOf
  bindings : ∀ p ∈ A.setting.bindings, A.Good p.2
  path : ∀ {start start' steps steps'}, A.Starts start start' → List.Forall₂ A.Steps steps steps' →
    A.Meanings (i.path start steps) (j.path start' steps')

variable {A}

/-! ### Lists -/

theorem forall_mem_left {α β : Type} {R : α → β → Prop} {P : α → Prop} {xs : List α}
    {ys : List β} (h : List.Forall₂ R xs ys) (hR : ∀ a b, R a b → P a) : ∀ a ∈ xs, P a := by
  induction h with
  | nil => simp
  | cons hab _ ih => simpa using ⟨hR _ _ hab, ih⟩

/-! ### Actions -/

/-- An action whose result is passed on through a function. -/
theorem map {k : ι} {α β : Type} {P : α → Prop} {Q : β → Prop} {x y : Eval α} {f : α → β}
    (h : A.Holds k P x y) (hf : ∀ a, P a → Q (f a)) :
    A.Holds k Q (x >>= fun a => Pure.pure (f a)) (y >>= fun a => Pure.pure (f a)) :=
  A.bind h fun a ha => A.pure (hf a ha)

theorem holds_anyM {k : ι} {α : Type} {p q : α → Eval Bool} (xs : List α)
    (h : ∀ a ∈ xs, A.Plain k (p a) (q a)) : A.Plain k (xs.anyM p) (xs.anyM q) := by
  induction xs with
  | nil => exact A.pure trivial
  | cons a rest ih =>
    rw [List.anyM_cons, List.anyM_cons]
    refine A.bind (h a (by simp)) fun b _ => ?_
    cases b with
    | true => exact A.pure trivial
    | false => exact ih fun b hb => h b (by simp [hb])

theorem holds_foldlM {k : ι} {α β : Type} {f g : β → α → Eval β} (xs : List α)
    (h : ∀ b, ∀ a ∈ xs, A.Plain k (f b a) (g b a)) (b : β) :
    A.Plain k (xs.foldlM f b) (xs.foldlM g b) := by
  induction xs generalizing b with
  | nil => exact A.pure trivial
  | cons a rest ih =>
    rw [List.foldlM_cons, List.foldlM_cons]
    exact A.bind (h b a (by simp)) fun b _ => ih (fun b a ha => h b a (by simp [ha])) b

theorem holds_mapM {k : ι} {α β γ : Type} {R : α → β → Prop} {f : α → Eval γ} {g : β → Eval γ}
    {xs : List α} {ys : List β} (hxs : List.Forall₂ R xs ys)
    (h : ∀ a b, R a b → A.Plain k (f a) (g b)) : A.Plain k (xs.mapM f) (ys.mapM g) := by
  induction hxs with
  | nil => exact A.pure trivial
  | cons hab _ ih =>
    rw [List.mapM_cons, List.mapM_cons]
    exact A.bind (h _ _ hab) fun c _ => map ih fun _ _ => trivial

/-! ### Arguments and meanings -/

theorem contexts_alone {k : ι} {n : Node} (h : A.Known n) : A.Contexts k (.alone n) (.alone n) :=
  ⟨rfl, h, rfl, A.sized⟩

theorem good_text (s : String) : A.Good (.string s) := A.scalar (by simp [Value.kind])

theorem good_number (x : Float) : A.Good (.number x) := A.scalar (by simp [Value.kind])

theorem good_boolean (b : Bool) : A.Good (.boolean b) := A.scalar (by simp [Value.kind])

theorem arguments_constant {v : Value} (h : A.Good v) :
    A.Arguments (.constant v) (.constant v) :=
  ⟨fun _ => A.pure h, fun _ => A.pure trivial⟩

/-- A meaning made from a value is in accord if the value is. -/
theorem meanings_ofValue {f g : Context → Eval Value}
    (h : ∀ {k c d}, A.Contexts k c d → A.Holds k A.Good (f c) (g d)) :
    A.Meanings (.ofValue f) (.ofValue g) where
  value := h
  truth hc := map (h hc) fun _ _ => trivial
  predicate := .test fun hc => by
    rw [hc.position]
    exact map (h hc) fun _ _ => trivial

/-- A meaning whose truth is found apart from its value. -/
theorem meanings_ofTruth {f g : Context → Eval Value} {t u : Context → Eval Bool}
    (h : ∀ {k c d}, A.Contexts k c d → A.Holds k A.Good (f c) (g d))
    (ht : ∀ {k c d}, A.Contexts k c d → A.Plain k (t c) (u d)) :
    A.Meanings (.ofTruth f t) (.ofTruth g u) where
  value := h
  truth := ht
  predicate := .test fun hc => map (ht hc) fun _ _ => trivial

/-! ### Conversions and comparisons -/

/-- On both sides a value has the same text. -/
theorem toText_eq {v : Value} (h : A.Good v) : v.toText A.setting.view = v.toText A.mirror := by
  cases v with
  | nodeSet s => exact A.alike.toText_eq (A.known h)
  | string s => rfl
  | number x => rfl
  | boolean b => rfl

theorem toNumber_eq {v : Value} (h : A.Good v) :
    v.toNumber A.setting.view = v.toNumber A.mirror := by
  cases v with
  | nodeSet s => exact congrArg Number.read (toText_eq h)
  | string s => rfl
  | number x => rfl
  | boolean b => rfl

/-- The conversion that values have of their own. -/
theorem conversions_toNumber :
    A.Conversions (fun _ v => Pure.pure (v.toNumber A.setting.view))
      (fun _ v => Pure.pure (v.toNumber A.mirror)) := by
  intro _ _ _ _ v hv
  dsimp only
  rw [toNumber_eq hv]
  exact A.pure trivial

/-- A result that is passed on as a number. -/
theorem holds_toNumber {k : ι} {x y : Eval Value} (h : A.Holds k A.Good x y) :
    A.Plain k (x >>= fun v => Pure.pure (v.toNumber A.setting.view))
      (y >>= fun v => Pure.pure (v.toNumber A.mirror)) :=
  A.bind h fun _ hv => by
    rw [toNumber_eq hv]
    exact A.pure trivial

/-- The conversion of a text, as it is called for a value with this text. -/
def convertedBy (L : Library) (σ : Setting) (c : Context) (v : Value) (text : String) :
    Eval Float :=
  (L ⟨none, "number"⟩ σ c).elim (Pure.pure (v.toNumber σ.view)) fun f => do
    let result ← f ⟨σ, .alone c.node, [.constant (.string text)],
      fun _ value => Pure.pure (value.toNumber σ.view)⟩
    return result.toNumber σ.view

theorem numberOf_string (L : Library) (σ : Setting) (c : Context) (s : String) :
    L.numberOf σ c (.string s) = convertedBy L σ c (.string s) s := by
  rw [Library.numberOf, convertedBy]
  cases L ⟨none, "number"⟩ σ c <;> rfl

theorem numberOf_nodeSet (L : Library) (σ : Setting) (c : Context) (s : NodeSet) :
    L.numberOf σ c (.nodeSet s) = convertedBy L σ c (.nodeSet s) (s.toText σ.view) := by
  rw [Library.numberOf, convertedBy]
  cases L ⟨none, "number"⟩ σ c <;> rfl

/-- The conversion of a library is in accord if the library is. -/
theorem conversions_numberOf {L M : Library} (h : A.Libraries L M) :
    A.Conversions (L.numberOf A.setting) (M.numberOf A.right) := by
  intro k c d hc v hv
  have converted : ∀ text : String,
      A.Plain k (convertedBy L A.setting c v text) (convertedBy M A.right d v text) := by
    intro text
    rw [convertedBy, convertedBy, ← hc.node]
    -- Libraries in accord either both have the function or both lack it.
    have hf := h ⟨none, "number"⟩ hc
    cases hL : L ⟨none, "number"⟩ A.setting c <;> cases hM : M ⟨none, "number"⟩ A.right d <;>
      rw [hL, hM] at hf <;> cases hf
    · rw [toNumber_eq hv]
      exact A.pure trivial
    · rename_i hf
      exact holds_toNumber (hf ⟨rfl, rfl, contexts_alone hc.known,
        .cons (arguments_constant (good_text _)) .nil, conversions_toNumber⟩)
  cases v with
  | string s =>
    rw [numberOf_string, numberOf_string]
    exact converted s
  | nodeSet s =>
    rw [numberOf_nodeSet, numberOf_nodeSet, ← A.alike.toText_eq (A.known hv)]
    exact converted (s.toText A.setting.view)
  | number x => exact A.pure trivial
  | boolean b => exact A.pure trivial

section Comparison

variable {k : ι} {number number' : Value → Eval Float}
  (hn : ∀ {v}, A.Good v → A.Plain k (number v) (number' v)) (op : Comparison) {a b : Value}

include hn

theorem holds_convertedHolds (ha : A.Good a) (hb : A.Good b) :
    A.Plain k (op.convertedHolds number a b) (op.convertedHolds number' a b) :=
  A.bind (hn ha) fun _ _ => map (hn hb) fun _ _ => trivial

theorem holds_scalarsHold (ha : A.Good a) (hb : A.Good b) :
    A.Plain k (op.scalarsHold A.setting.view number a b) (op.scalarsHold A.mirror number' a b) := by
  unfold Comparison.scalarsHold
  rw [toText_eq ha, toText_eq hb]
  split
  · split
    · exact A.pure trivial
    · exact A.pure trivial
    · exact holds_convertedHolds hn op ha hb
    · exact holds_convertedHolds hn op ha hb
    · exact A.pure trivial
  · exact holds_convertedHolds hn op ha hb

/-- Comparisons are in accord if conversions to numbers are. -/
theorem holds_holdsWith (ha : A.Good a) (hb : A.Good b) :
    A.Plain k (op.holdsWith A.setting.view number a b) (op.holdsWith A.mirror number' a b) := by
  -- A set holds to a comparison by the text of one of its nodes, which is the same on both sides.
  have left : ∀ {n b}, A.Known n → A.Good b →
      A.Plain k (op.scalarsHold A.setting.view number (Comparison.nodeText A.setting.view n) b)
        (op.scalarsHold A.mirror number' (Comparison.nodeText A.mirror n) b) := fun hn' hb => by
    rw [Comparison.nodeText, Comparison.nodeText, A.alike.stringValue hn']
    exact holds_scalarsHold hn op (good_text _) hb
  have right : ∀ {a n}, A.Known n → A.Good a →
      A.Plain k (op.scalarsHold A.setting.view number a (Comparison.nodeText A.setting.view n))
        (op.scalarsHold A.mirror number' a (Comparison.nodeText A.mirror n)) := fun hn' ha => by
    rw [Comparison.nodeText, Comparison.nodeText, A.alike.stringValue hn']
    exact holds_scalarsHold hn op ha (good_text _)
  unfold Comparison.holdsWith
  split
  · exact holds_scalarsHold hn op (good_boolean _) hb
  · exact holds_scalarsHold hn op ha (good_boolean _)
  · refine holds_anyM _ fun n hn' => holds_anyM _ fun m hm => ?_
    rw [Comparison.nodeText, Comparison.nodeText, A.alike.stringValue (A.known hb m hm)]
    exact left (A.known ha n hn') (good_text _)
  · exact holds_anyM _ fun n hn' => left (A.known ha n hn') hb
  · exact holds_anyM _ fun n hn' => right (A.known hb n hn') ha
  · exact holds_scalarsHold hn op ha hb

end Comparison

/-! ### Predicates and steps -/

/-- Stages start alike. -/
theorem map_initial {ps qs : List Predicate} (h : List.Forall₂ A.Predicates ps qs) :
    ps.map Stage.initial = qs.map Stage.initial := by
  induction h with
  | nil => rfl
  | cons h _ ih =>
    rw [List.map_cons, List.map_cons, ih]
    cases h <;> rfl

theorem predicates_reverse {ms ms' : List Meaning} (h : List.Forall₂ A.Meanings ms ms') :
    List.Forall₂ A.Predicates (ms.map (·.predicate)).reverse (ms'.map (·.predicate)).reverse :=
  List.forall₂_reverse_iff.2 (List.forall₂_map_left_iff.2 (List.forall₂_map_right_iff.2
    (h.imp fun _ _ hm => hm.predicate)))

/-- On both sides a known node passes the same tests. -/
theorem accepts_eq (test : NodeTest) (axis : Axis) (uri : Option String) {n : Node}
    (hn : A.Known n) :
    test.accepts A.setting.view.toLinks axis uri n = test.accepts A.mirror.toLinks axis uri n := by
  have hkind := A.alike.kind hn
  have hname := A.alike.name? hn
  cases test with
  | nodeType type =>
    cases type <;> simp only [NodeTest.accepts, NodeType.accepts, Links.isText, Links.isCData,
      Links.isComment, Links.isInstruction, hkind]
  | instruction target => simp only [NodeTest.accepts, Links.isInstruction, hkind, hname]
  | name localPart => simp only [NodeTest.accepts, hkind, hname]
  | qualified qualifier localPart => simp only [NodeTest.accepts, hkind, hname]
  | wildcard => simp only [NodeTest.accepts, hkind]
  | inNamespace qualifier => simp only [NodeTest.accepts, hkind, hname]

/-- A test fails to be resolved only because a qualifier is not bound. -/
theorem ofExpression_uri {test : NodeTest} {axis : Axis} {namespaces : Namespaces} {e : Error}
    (h : test.uri axis namespaces = .error e) : e.OfExpression := by
  have hbound : ∀ qualifier,
      (NodeTest.inNamespace qualifier).uri axis namespaces = .error e → e.OfExpression := by
    intro qualifier h
    rw [NodeTest.uri] at h
    cases hq : namespaces (some qualifier) <;> rw [hq] at h <;> cases h
    exact .unresolvedQualifier qualifier
  cases test with
  | qualified qualifier localPart => exact hbound qualifier h
  | inNamespace qualifier => exact hbound qualifier h
  | nodeType type => cases h
  | instruction target => cases h
  | name localPart => cases h
  | wildcard => cases h

/-- Steps in accord are made ready in accord, or both fail to be for the same reason. -/
theorem strides_ofStep {s t : Step Meaning} (h : A.Steps s t) :
    (∃ e, Stride.ofStep A.setting s = .error e ∧ Stride.ofStep A.right t = .error e ∧
      e.OfExpression) ∨
    ∃ a b, Stride.ofStep A.setting s = .ok a ∧ Stride.ofStep A.right t = .ok b ∧
      A.Strides a b := by
  obtain ⟨axis, test, predicates⟩ := s
  obtain ⟨_, _, predicates'⟩ := t
  obtain ⟨rfl, rfl, hp⟩ := h
  unfold Stride.ofStep
  cases hu : test.uri axis A.setting.namespaces with
  | error e => exact .inl ⟨e, rfl, rfl, ofExpression_uri hu⟩
  | ok uri =>
    refine .inr ⟨_, _, rfl, rfl, ?_, ?_, predicates_reverse hp⟩
    · intro n hn
      dsimp only
      rw [← A.alike.walk axis hn A.root]
      exact List.filter_congr fun m hm => accepts_eq test axis uri
        (A.alike.known_walk axis hn A.root hm)
    · intro n m hn hm
      exact A.alike.known_walk axis hn A.root (List.mem_of_mem_filter hm)

/-! ### Paths -/

/-- An accord in which following strides is in accord.  Paths lead from nodes that may be the result
of an expression to such nodes. -/
structure Follows (A : Accord ι) : Prop where
  single : ∀ {n}, A.Known n → A.Good (.nodeSet ⟨[n]⟩)
  sorted : ∀ {s : NodeSet}, A.Good (.nodeSet s) → A.Good (.nodeSet (s.sorted A.setting.view))
  collect : ∀ {k : ι} (once : Bool) {nodes : List Node}, A.Good (.nodeSet ⟨nodes⟩) →
    ∀ {ps ps' : List Predicate}, List.Forall₂ A.Predicates ps ps' →
    ∀ {strides strides' : List Stride}, List.Forall₂ A.Strides strides strides' →
    A.Holds k (fun found => A.Good (.nodeSet ⟨found⟩)) (Path.collect once nodes ps strides)
      (Path.collect once nodes ps' strides')

section Paths

variable (h : A.Follows) {k : ι} (once : Bool) {steps steps' : List (Step Meaning)}
  (hsteps : List.Forall₂ A.Steps steps steps')

include h hsteps

/-- Steps in accord lead to the same nodes from the same nodes. -/
theorem Follows.selectFrom {nodes : List Node} (hnodes : A.Good (.nodeSet ⟨nodes⟩))
    {ps ps' : List Predicate} (hp : List.Forall₂ A.Predicates ps ps')
    {strides strides' : List Stride} (hs : List.Forall₂ A.Strides strides strides') :
    A.Holds k (fun found => A.Good (.nodeSet ⟨found⟩))
      (Path.selectFrom A.setting once nodes ps strides steps)
      (Path.selectFrom A.right once nodes ps' strides' steps') := by
  induction hsteps generalizing nodes ps ps' strides strides' with
  | nil => exact h.collect once hnodes hp hs
  | @cons step step' rest rest' hstep _ ih =>
    rw [Path.selectFrom, Path.selectFrom]
    rcases strides_ofStep hstep with ⟨e, he, he', hexpr⟩ | ⟨stride, stride', hr, hr', hstride⟩
    · rw [he, he']
      exact A.bind (P := fun _ => False) (A.throw hexpr) fun _ hf => hf.elim
    · have hs' := List.rel_append hs (List.Forall₂.cons hstride .nil)
      rw [hr, hr', Eval.ofExcept, Eval.ofExcept, pure_bind, pure_bind, ← hstep.axis]
      dsimp only
      split
      · refine A.bind (h.collect false hnodes hp hs') fun found hfound => ?_
        rw [← A.alike.sort_eq (A.known hfound)]
        exact ih (h.sorted hfound) .nil .nil
      · exact ih hnodes hp hs'

/-- Paths in accord select the same nodes. -/
theorem Follows.select {start start' : Start Meaning} (hstart : A.Starts start start')
    {c d : Context} (hc : A.Contexts k c d) :
    A.Holds k (fun found => A.Good (.nodeSet ⟨found⟩)) (Path.select A.setting once start steps c)
      (Path.select A.right once start' steps' d) := by
  cases hstart with
  | root => exact h.selectFrom once hsteps (h.single A.root) .nil .nil
  | context =>
    show A.Holds k _ (Path.selectFrom A.setting once [c.node] [] [] steps)
      (Path.selectFrom A.right once [d.node] [] [] steps')
    rw [← hc.node]
    exact h.selectFrom once hsteps (h.single hc.known) .nil .nil
  | @filter m m' ms ms' hm hms =>
    rw [Path.select, Path.select, Path.startNodes, Path.startNodes, bind_assoc, bind_assoc]
    refine A.bind (hm.value hc) fun v hv => ?_
    cases v with
    | nodeSet s =>
      show A.Holds k _ (Path.selectFrom A.setting once (A.setting.view.sort s.nodes) _ [] steps)
        (Path.selectFrom A.right once (A.mirror.sort s.nodes) _ [] steps')
      rw [← A.alike.sort_eq (A.known hv)]
      exact h.selectFrom once hsteps (h.sorted hv) (predicates_reverse hms) .nil
    | string s => exact A.throw (.operandNotNodeSet _ _)
    | number x => exact A.throw (.operandNotNodeSet _ _)
    | boolean b => exact A.throw (.operandNotNodeSet _ _)

end Paths

/-- The evaluations of the engine are in accord if following strides and the libraries are. -/
theorem Follows.interpretations (h : A.Follows) {L M : Library} (hlibrary : A.Libraries L M)
    (hbindings : ∀ p ∈ A.setting.bindings, A.Good p.2) :
    A.Interpretations (.standard L A.setting) (.standard M A.right) where
  setting_left := rfl
  setting_right := rfl
  library := hlibrary
  numberOf := conversions_numberOf hlibrary
  bindings := hbindings
  path hstart hsteps := meanings_ofTruth
    (fun hc => map (h.select false hsteps hstart hc) fun _ hfound => hfound)
    (fun hc => map (h.select true hsteps hstart hc) fun _ _ => trivial)

/-! ### Expressions -/

section Expressions

variable {i j : Interpretation} (h : A.Interpretations i j) {l l' r r' : Meaning}

theorem meanings_connective (decisive : Bool) (hl : A.Meanings l l') (hr : A.Meanings r r') :
    A.Meanings (.connective decisive l r) (.connective decisive l' r') := by
  refine meanings_ofValue fun hc => A.bind (hl.truth hc) fun b _ => ?_
  split
  · exact A.pure (good_boolean _)
  · exact map (hr.truth hc) fun _ _ => good_boolean _

include h in
theorem meanings_comparison (op : Comparison) (hl : A.Meanings l l') (hr : A.Meanings r r') :
    A.Meanings (.comparison i op l r) (.comparison j op l' r') := by
  refine meanings_ofValue fun hc => A.bind (hl.value hc) fun a ha =>
    A.bind (hr.value hc) fun b hb => ?_
  rw [h.setting_left, h.setting_right]
  exact map (holds_holdsWith (h.numberOf hc) op ha hb) fun _ _ => good_boolean _

include h in
theorem meanings_arithmetic (op : Arithmetic) (hl : A.Meanings l l') (hr : A.Meanings r r') :
    A.Meanings (.arithmetic i op l r) (.arithmetic j op l' r') := by
  refine meanings_ofValue fun hc => A.bind (hl.value hc) fun a ha =>
    A.bind (h.numberOf hc ha) fun x _ => ?_
  split
  · exact A.pure (good_number _)
  · exact A.bind (hr.value hc) fun b hb => map (h.numberOf hc hb) fun _ _ => good_number _

include h in
theorem meanings_negation (hl : A.Meanings l l') :
    A.Meanings (.negation i l) (.negation j l') :=
  meanings_ofValue fun hc => A.bind (hl.value hc) fun _ ha =>
    map (h.numberOf hc ha) fun _ _ => good_number _

include h in
theorem meanings_variableReference (name : String) :
    A.Meanings (.variableReference i name) (.variableReference j name) := by
  refine meanings_ofValue fun _ => ?_
  rw [h.setting_left, h.setting_right]
  cases hb : A.setting.bindings.lookup name with
  | some v =>
    obtain ⟨_, _, hb, -⟩ := List.lookup_eq_some_iff.1 hb
    have hmem : (name, v) ∈ A.setting.bindings := hb ▸ List.mem_append_cons_self
    exact A.pure (h.bindings (name, v) hmem)
  | none =>
    dsimp only
    split
    · exact A.throw (.unknownVariable name)
    · exact A.pure (good_text _)

theorem holds_unionOperand {k : ι} {v : Value} (hv : A.Good v) :
    A.Holds k (fun s => A.Good (.nodeSet s)) (Meaning.unionOperand v)
      (Meaning.unionOperand v) := by
  cases v with
  | nodeSet s => exact A.pure hv
  | string s => exact A.throw (.operandNotNodeSet _ _)
  | number x => exact A.throw (.operandNotNodeSet _ _)
  | boolean b => exact A.throw (.operandNotNodeSet _ _)

include h in
theorem meanings_union (hl : A.Meanings l l') (hr : A.Meanings r r') :
    A.Meanings (.union i l r) (.union j l' r') := by
  refine meanings_ofValue fun hc => A.bind (hl.value hc) fun a ha =>
    A.bind (holds_unionOperand ha) fun s hs => A.bind (hr.value hc) fun b hb =>
      A.bind (holds_unionOperand hb) fun t ht => ?_
  have hst : ∀ n ∈ firstOccurrences (s.nodes ++ t.nodes), A.Known n := fun n hn =>
    (List.mem_append.1 (mem_firstOccurrences.1 hn)).elim (A.known hs n) (A.known ht n)
  have hunion : s.union A.setting.view t = s.union A.mirror t :=
    congrArg NodeSet.mk (A.alike.sort_eq hst)
  rw [h.setting_left, h.setting_right, ← hunion]
  exact A.pure (A.union hs ht)

include h in
theorem meanings_call (name : QName) {args args' : List Meaning}
    (ha : List.Forall₂ A.Meanings args args') :
    A.Meanings (.call i name args) (.call j name args') := by
  refine meanings_ofValue fun {k c d} hc => ?_
  -- The function is found in both libraries or in neither.
  have hf := h.library name hc
  rw [h.setting_left, h.setting_right]
  cases hL : i.library name A.setting c <;> cases hM : j.library name A.right d <;>
    rw [hL, hM] at hf <;> cases hf
  · refine A.throw ?_
    unfold Meaning.unknownFunction
    split
    · split
      · exact .unresolvedQualifier _
      · exact .unknownFunction _
    · exact .unknownFunction _
  · rename_i hf
    refine hf ⟨rfl, rfl, hc, ?_, h.numberOf⟩
    exact List.forall₂_map_left_iff.2 (List.forall₂_map_right_iff.2
      (ha.imp fun _ _ hm => hm.toArguments))

theorem meanings_number (x : Float) : A.Meanings (.number x) (.number x) where
  value _ := A.pure (good_number x)
  truth _ := map (A.pure (P := fun _ => True) trivial) fun _ _ => trivial
  predicate := .position x

end Expressions

mutual

/-- What an expression means in one interpretation is in accord with what it means in another, if
the interpretations are in accord. -/
theorem meanings_meaning {i j : Interpretation} (h : A.Interpretations i j) :
    ∀ e : Expr, A.Meanings (e.meaning i) (e.meaning j)
  | .or l r => by
    rw [Expr.meaning, Expr.meaning]
    exact meanings_connective true (meanings_meaning h l) (meanings_meaning h r)
  | .and l r => by
    rw [Expr.meaning, Expr.meaning]
    exact meanings_connective false (meanings_meaning h l) (meanings_meaning h r)
  | .compare op l r => by
    rw [Expr.meaning, Expr.meaning]
    exact meanings_comparison h op (meanings_meaning h l) (meanings_meaning h r)
  | .arithmetic op l r => by
    rw [Expr.meaning, Expr.meaning]
    exact meanings_arithmetic h op (meanings_meaning h l) (meanings_meaning h r)
  | .negate e => by
    rw [Expr.meaning, Expr.meaning]
    exact meanings_negation h (meanings_meaning h e)
  | .union l r => by
    rw [Expr.meaning, Expr.meaning]
    exact meanings_union h (meanings_meaning h l) (meanings_meaning h r)
  | .call name arguments => by
    rw [Expr.meaning, Expr.meaning]
    exact meanings_call h name (meanings_meanings h arguments)
  | .number x => by
    rw [Expr.meaning, Expr.meaning]
    exact meanings_number x
  | .string s => by
    rw [Expr.meaning, Expr.meaning]
    exact meanings_ofValue fun _ => A.pure (good_text s)
  | .variableReference name => by
    rw [Expr.meaning, Expr.meaning]
    exact meanings_variableReference h name
  | .path start steps => by
    rw [Expr.meaning, Expr.meaning]
    exact h.path (starts_startMeaning h start) (steps_stepMeanings h steps)
termination_by structural e => e

theorem meanings_meanings {i j : Interpretation} (h : A.Interpretations i j) :
    ∀ es : List Expr, List.Forall₂ A.Meanings (Expr.meanings i es) (Expr.meanings j es)
  | [] => by
    rw [Expr.meanings, Expr.meanings]
    exact .nil
  | e :: rest => by
    rw [Expr.meanings, Expr.meanings]
    exact .cons (meanings_meaning h e) (meanings_meanings h rest)

theorem starts_startMeaning {i j : Interpretation} (h : A.Interpretations i j) :
    ∀ start : Start Expr, A.Starts (Expr.startMeaning i start) (Expr.startMeaning j start)
  | .root => by
    rw [Expr.startMeaning, Expr.startMeaning]
    exact .root
  | .context => by
    rw [Expr.startMeaning, Expr.startMeaning]
    exact .context
  | .filter primary predicates => by
    rw [Expr.startMeaning, Expr.startMeaning]
    exact .filter (meanings_meaning h primary) (meanings_meanings h predicates)

theorem steps_stepMeaning {i j : Interpretation} (h : A.Interpretations i j) :
    ∀ s : Step Expr, A.Steps (Expr.stepMeaning i s) (Expr.stepMeaning j s)
  | ⟨_, _, predicates⟩ => by
    rw [Expr.stepMeaning, Expr.stepMeaning]
    exact ⟨rfl, rfl, meanings_meanings h predicates⟩

theorem steps_stepMeanings {i j : Interpretation} (h : A.Interpretations i j) :
    ∀ steps : List (Step Expr),
      List.Forall₂ A.Steps (Expr.stepMeanings i steps) (Expr.stepMeanings j steps)
  | [] => by
    rw [Expr.stepMeanings, Expr.stepMeanings]
    exact .nil
  | s :: rest => by
    rw [Expr.stepMeanings, Expr.stepMeanings]
    exact .cons (steps_stepMeaning h s) (steps_stepMeanings h rest)

end

/-! ### Accords of what is the same -/

/-- An index at which only actions that are the same are in accord.  What is in accord at every
index is the same then. -/
structure Exact (A : Accord ι) (k : ι) : Prop where
  contexts : ∀ c, A.Contexts k c c
  eq : ∀ {α : Type} {P : α → Prop} {x y : Eval α}, A.Holds k P x y → x = y

namespace Exact

variable {k : ι} (h : A.Exact k)

include h

theorem eq_of_holds {α : Type} {P : α → Prop} {f g : Context → Eval α}
    (hfg : ∀ {k c d}, A.Contexts k c d → A.Holds k P (f c) (g d)) : f = g :=
  funext fun c => h.eq (hfg (h.contexts c))

theorem eq_of_predicates {p q : Predicate} (hpq : A.Predicates p q) : p = q := by
  cases hpq with
  | position x => rfl
  | test hj => rw [h.eq_of_holds hj]

theorem eq_of_meanings {m m' : Meaning} (hm : A.Meanings m m') : m = m' := by
  obtain ⟨⟨value, truth⟩, predicate⟩ := m
  obtain ⟨⟨value', truth'⟩, predicate'⟩ := m'
  obtain rfl : value = value' := h.eq_of_holds hm.value
  obtain rfl : truth = truth' := h.eq_of_holds hm.truth
  obtain rfl : predicate = predicate' := h.eq_of_predicates hm.predicate
  rfl

omit h in
theorem eq_of_forall₂ {α : Type} {R : α → α → Prop} {xs ys : List α} (hxs : List.Forall₂ R xs ys)
    (hR : ∀ a b, R a b → a = b) : xs = ys :=
  List.forall₂_eq_eq_eq ▸ hxs.imp hR

theorem eq_of_steps {s t : Step Meaning} (hst : A.Steps s t) : s = t := by
  obtain ⟨axis, test, predicates⟩ := s
  obtain ⟨_, _, _⟩ := t
  obtain ⟨rfl, rfl, hp⟩ := hst
  obtain rfl := eq_of_forall₂ hp fun _ _ => h.eq_of_meanings
  rfl

theorem eq_of_starts {s t : Start Meaning} (hst : A.Starts s t) : s = t := by
  cases hst with
  | root => rfl
  | context => rfl
  | filter hm hp =>
    obtain rfl := h.eq_of_meanings hm
    obtain rfl := eq_of_forall₂ hp fun _ _ => h.eq_of_meanings
    rfl

end Exact

end Accord

end XPath
