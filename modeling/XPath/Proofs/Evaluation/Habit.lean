/-
Properties that all evaluations have.

If a property of actions goes through sequences, then whatever an expression comes to has it, as
long as functions keep it and following steps does.  This is said here once for every such
property: it is an accord of an interpretation with itself.

* `Habit` — such a property, one for each index;
* `Habit.Calls`, `Habit.Functions`, `Habit.Libraries` — functions that keep it;
* `Habit.Judges`, `Habit.Collects` — predicates that have it, and following steps with these;
* `Habit.accord` — the accord;
* `Habit.libraries_core` — the core functions keep every habit;
* `Habit.meaning` — what expressions mean has the habit.
-/
import XPath.Proofs.Library.Accord
import XPath.Proofs.Evaluation.Stages

namespace XPath

/-- A property of actions that goes through sequences, one for each index. -/
structure Habit (ι : Type) where
  Has : ι → {α : Type} → Eval α → Prop
  pure : ∀ {k : ι} {α : Type} (a : α), Has k (Pure.pure a : Eval α)
  throw : ∀ {k : ι} {α : Type} {e : Error}, e.OfExpression →
    Has k (MonadExcept.throw e : Eval α)
  bind : ∀ {k : ι} {α β : Type} {P : α → Prop} {x : Eval α} {f : α → Eval β},
    Has k x → x.Ensures P → (∀ a, P a → Has k (f a)) → Has k (x >>= f)

namespace Habit

variable {ι : Type} (H : Habit ι)

/-- A call whose surroundings and arguments have the habit. -/
structure Calls (k : ι) (c : Call) : Prop where
  size : H.Has k c.context.size
  value : ∀ a ∈ c.arguments, ∀ k (d : Context), H.Has k d.size → H.Has k (a.value d)
  truth : ∀ a ∈ c.arguments, ∀ k (d : Context), H.Has k d.size → H.Has k (a.truth d)
  numberOf : ∀ k (d : Context) v, H.Has k d.size → H.Has k (c.numberOf d v)

/-- A function that has the habit, unless what it is called with has not. -/
def Functions (f : Function) : Prop := ∀ k c, H.Calls k c → H.Has k (f c)

def Libraries (L : Library) : Prop := ∀ name σ c f, L name σ c = some f → H.Functions f

/-- A predicate whose judgement has the habit. -/
def Judges : Predicate → Prop
  | .position _ => True
  | .test judge => ∀ k (c : Context), H.Has k c.size → H.Has k (judge c)

/-- Steps with predicates that have the habit are followed with it. -/
def Collects : Prop := ∀ (k : ι) (once : Bool) (nodes : List Node) (predicates : List Predicate)
  (strides : List Stride), (∀ p ∈ predicates, H.Judges p) →
    (∀ s ∈ strides, ∀ p ∈ s.predicates, H.Judges p) →
    H.Has k (Path.collect once nodes predicates strides)

/-- A habit as an accord of an interpretation with itself. -/
def accord (σ : Setting) : Accord ι where
  toSides := .same σ
  Holds k _ P x _ := H.Has k x ∧ x.Ensures P
  Good _ := True
  Sized k x y := x = y ∧ H.Has k x
  size h := ⟨h.2, Eval.ensures_true _⟩
  sized := ⟨rfl, H.pure _⟩
  pure h := ⟨H.pure _, Eval.ensures_pure h⟩
  throw he := ⟨H.throw he, fun _ _ _ h => by cases h⟩
  bind hx hf := ⟨H.bind hx.1 hx.2 fun a ha => (hf a ha).1,
    Eval.ensures_bind hx.2 fun a ha => (hf a ha).2⟩
  known _ _ _ := trivial
  scalar _ := trivial
  union _ _ := trivial
  identified _ := trivial

variable {H} {σ : Setting} {k : ι}

/-! ### What is in accord -/

theorem contexts {c : Context} (h : H.Has k c.size) : (H.accord σ).Contexts k c c :=
  ⟨rfl, trivial, rfl, rfl, h⟩

theorem contexts_eq {c d : Context} (h : (H.accord σ).Contexts k c d) : c = d := by
  obtain ⟨node, position, size⟩ := c
  obtain ⟨_, _, _⟩ := d
  obtain ⟨rfl, -, rfl, rfl, _⟩ := h
  rfl

theorem plain {α : Type} {x y : Eval α} (h : H.Has k x) : (H.accord σ).Plain k x y :=
  ⟨h, Eval.ensures_true _⟩

/-- A call that is in accord with another one has the habit. -/
theorem calls_left {c d : Call} (h : (H.accord σ).Calls k c d) : H.Calls k c where
  size := h.context.size.2
  value := Accord.forall_mem_left h.arguments fun _ _ hab _ _ he => (hab.value (contexts he)).1
  truth := Accord.forall_mem_left h.arguments fun _ _ hab _ _ he => (hab.truth (contexts he)).1
  numberOf _ _ _ he := (h.numberOf (contexts he) trivial).1

/-- A call that has the habit is in accord with itself. -/
theorem calls {c : Call} (h : H.Calls k c) : (H.accord c.setting).Calls k c c where
  setting_left := rfl
  setting_right := rfl
  context := contexts h.size
  arguments := List.forall₂_same.2 fun a ha =>
    ⟨fun hd => by cases contexts_eq hd; exact plain (h.value a ha _ _ hd.size.2),
      fun hd => by cases contexts_eq hd; exact plain (h.truth a ha _ _ hd.size.2)⟩
  numberOf := fun hd v _ => by
    cases contexts_eq hd
    exact plain (h.numberOf _ _ v hd.size.2)

/-- A library whose functions have the habit is in accord with itself. -/
theorem libraries {L : Library} (h : H.Libraries L) : (H.accord σ).Libraries L L := by
  intro name k c d hc
  -- Contexts in accord are equal here, so both sides look up the same function.
  obtain rfl := contexts_eq hc
  show Option.Rel _ (L name σ c) (L name σ c)
  cases hL : L name σ c with
  | none => exact .none
  | some f => exact .some fun hcall => plain (h name σ c f hL _ _ (calls_left hcall))

/-- The core functions keep every habit. -/
theorem libraries_core : H.Libraries Registry.core.library := by
  intro name σ c f hf k call hcall
  -- The context of the look-up does not matter; any one gives the accord of the function.
  have h := Accord.libraries_core (A := H.accord call.setting) name
    (Accord.contexts_alone (k := k) (n := c.node) trivial)
  have hlookup : ∀ σ d, Registry.core.library name σ d = some f := fun _ _ => hf
  rw [hlookup, hlookup] at h
  cases h with
  | some h => exact (h (calls hcall)).1

theorem judges_left {p q : Predicate} (h : (H.accord σ).Predicates p q) : H.Judges p := by
  cases h with
  | position x => trivial
  | test h => exact fun k c hc => (h (contexts hc)).1

theorem judges_meanings {ms ns : List Meaning} (h : List.Forall₂ (H.accord σ).Meanings ms ns) :
    ∀ m ∈ ms, H.Judges m.predicate :=
  Accord.forall_mem_left h fun _ _ hm => judges_left hm.predicate

/-! ### Paths -/

/-- Predicates that have the habit make a step whose predicates have it. -/
theorem ensures_ofStep (σ : Setting) {step : Step Meaning}
    (h : ∀ m ∈ step.predicates, H.Judges m.predicate) :
    (Eval.ofExcept (Stride.ofStep σ step)).Ensures fun s => ∀ p ∈ s.predicates, H.Judges p := by
  intro s stride t hs
  cases hready : Stride.ofStep σ step with
  | error e =>
    rw [hready] at hs
    cases hs
  | ok a =>
    rw [hready] at hs
    cases hs
    rw [Stride.predicates_ofStep hready]
    exact Meaning.forall_reverse h

/-- A path starts with predicates that have the habit. -/
theorem ensures_startNodes {start start' : Start Meaning}
    (h : (H.accord σ).Starts start start') (c : Context) :
    (Path.startNodes σ c start).Ensures fun r => ∀ p ∈ r.2, H.Judges p := by
  cases h with
  | root => exact Eval.ensures_pure (by simp)
  | context => exact Eval.ensures_pure (by simp)
  | filter h hp =>
    refine Eval.ensures_bind (Eval.ensures_true _) fun v _ => ?_
    cases v with
    | nodeSet s => exact Eval.ensures_pure (Meaning.forall_reverse (judges_meanings hp))
    | string s => exact fun _ _ _ h => by cases h
    | number x => exact fun _ _ _ h => by cases h
    | boolean b => exact fun _ _ _ h => by cases h

theorem has_startNodes {start start' : Start Meaning} (h : (H.accord σ).Starts start start')
    {c : Context} (hc : H.Has k c.size) : H.Has k (Path.startNodes σ c start) := by
  cases h with
  | root => exact H.pure _
  | context => exact H.pure _
  | filter h hp =>
    refine H.bind (h.value (contexts hc)).1 (Eval.ensures_true _) fun v _ => ?_
    cases v with
    | nodeSet s => exact H.pure _
    | string s => exact H.throw (.operandNotNodeSet _ _)
    | number x => exact H.throw (.operandNotNodeSet _ _)
    | boolean b => exact H.throw (.operandNotNodeSet _ _)

section Collects

variable (hcollect : H.Collects)

include hcollect

/-- Following steps with the habit is in accord with itself. -/
theorem follows : (H.accord σ).Follows where
  single _ := trivial
  sorted _ := trivial
  collect once _ _ _ _ hp _ _ hs := plain (hcollect _ once _ _ _
    (Accord.forall_mem_left hp fun _ _ => judges_left)
    (Accord.forall_mem_left hs fun _ _ h =>
      Accord.forall_mem_left h.predicates fun _ _ => judges_left))

/-- The evaluation of the engine, with a library that keeps the habit, is in accord with itself. -/
theorem interpretations {L : Library} (h : H.Libraries L) :
    (H.accord σ).Interpretations (.standard L σ) (.standard L σ) :=
  (follows hcollect).interpretations (libraries h) fun _ _ => trivial

variable {L : Library} (h : H.Libraries L) (σ)

include h

/-- What an expression means has the habit. -/
theorem meaning (e : Expr) {c : Context} (hc : H.Has k c.size) :
    H.Has k ((e.meaning (.standard L σ)).value c) ∧
      H.Has k ((e.meaning (.standard L σ)).truth c) :=
  have hm := Accord.meanings_meaning (interpretations (σ := σ) hcollect h) e
  ⟨(hm.value (contexts hc)).1, (hm.truth (contexts hc)).1⟩

/-- So do the predicates of a step. -/
theorem judges (es : List Expr) :
    ∀ p ∈ ((Expr.meanings (.standard L σ) es).map (·.predicate)).reverse, H.Judges p :=
  Meaning.forall_reverse (judges_meanings
    (Accord.meanings_meanings (interpretations (σ := σ) hcollect h) es))

end Collects

end Habit

end XPath
