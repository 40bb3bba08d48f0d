/-
Evaluations that come to the same wherever they take place.

An action need not leave the stages around it as they were, and it may fail.  But what it comes to,
a result or a failure, does not depend on how far these stages have got: what a context counts is
the same whenever it is counted.  So what an expression comes to can be read off from the node, the
position and the size of its context, and if the size cannot be had, it comes to the same or fails.

* `Eval.Comes` — among stages of some kind an action comes to a result or to a failure;
* `Context.known`, `Steady` — what is evaluated in a context comes to what it does in a context
  whose size is known beforehand;
* `Accord.steadiness` — steadiness as an accord of an interpretation with itself;
* `Accord.steady_of_holds`, `Accord.holds_of_steady` — what is steady is what is in this accord;
* `Library.Steady` — a library of functions that pass on what they are given.
-/
import XPath.Proofs.Library.Accord
import XPath.Proofs.Evaluation.Stages

namespace XPath

/-! ### What an action comes to -/

/-- A run that ends with a result, leaving stages of some kind, or with none. -/
def Amounts {α : Type} (I : List Stage → Prop) (r : Option α) :
    EStateM.Result Error State α → Prop
  | .ok a t => r = some a ∧ I t.stages
  | .error _ _ => r = none

namespace Eval

variable {α β : Type} {I J : List Stage → Prop}

/-- Among stages of some kind the action comes to this, and if it succeeds it leaves stages of that
kind. -/
def Comes (I : List Stage → Prop) (x : Eval α) (r : Option α) : Prop :=
  ∀ s, I s.stages → Amounts I r (x s)

/-- What an action comes to before anything else. -/
def outcome (x : Eval α) : Option α :=
  match x .start with
  | .ok a _ => some a
  | .error _ _ => none

theorem comes_pure (a : α) : (pure a : Eval α).Comes I (some a) := fun _ hs => ⟨rfl, hs⟩

theorem comes_throw (e : Error) : (throw e : Eval α).Comes I none := fun _ _ => rfl

theorem comes_bind {x : Eval α} {f : α → Eval β} {r : Option α} {g : α → Option β}
    (hx : x.Comes I r) (hf : ∀ a ∈ r, (f a).Comes I (g a)) :
    (x >>= f : Eval β).Comes I (r.bind g) := by
  intro s hs
  have hxs := hx s hs
  show Amounts I _ (EStateM.bind x f s)
  rw [EStateM.bind]
  cases h : x s with
  | error e t =>
    rw [h] at hxs
    obtain rfl : r = none := hxs
    exact rfl
  | ok a t =>
    rw [h] at hxs
    obtain ⟨rfl, ht⟩ := hxs
    exact hf a rfl t ht

/-- An action whose result is passed on by a function. -/
theorem comes_map {x : Eval α} {f : α → β} {r : Option α} (hx : x.Comes I r) :
    Comes I (do return f (← x)) (r.map f) := by
  rw [Option.map_eq_bind]
  exact comes_bind hx fun a _ => comes_pure (f a)

theorem Comes.outcome {x : Eval α} {r : Option α} (h : x.Comes I r) (hI : I []) :
    x.outcome = r := by
  have hx := h .start hI
  rw [Eval.outcome]
  cases hs : x .start with
  | error e t =>
    rw [hs] at hx
    exact hx.symm
  | ok a t =>
    rw [hs] at hx
    exact hx.1.symm

theorem Comes.ok {x : Eval α} {r : Option α} {a : α} {s t : State} (h : x.Comes I r)
    (hs : I s.stages) (hx : x s = .ok a t) : r = some a := by
  have hxs := h s hs
  rw [hx] at hxs
  exact hxs.1

theorem Comes.gives {x : Eval α} {a : α} {s : State} (h : x.Comes I (some a))
    (hs : I s.stages) : ∃ t, x s = .ok a t := by
  have hxs := h s hs
  cases hx : x s with
  | error e t =>
    rw [hx] at hxs
    cases hxs
  | ok b t =>
    rw [hx] at hxs
    obtain ⟨⟨⟩, -⟩ := hxs
    exact ⟨t, rfl⟩

theorem Comes.ok_iff {x : Eval α} {r : Option α} {a : α} {s : State} (h : x.Comes I r)
    (hs : I s.stages) : (∃ t, x s = .ok a t) ↔ r = some a := by
  refine ⟨fun ⟨t, ht⟩ => h.ok hs ht, ?_⟩
  rintro rfl
  exact h.gives hs

/-- The action on the left comes to what the one on the right comes to, unless that is a failure,
and its result satisfies a predicate. -/
def Refines (I J : List Stage → Prop) (P : α → Prop) (x y : Eval α) : Prop :=
  ∃ r r', x.Comes I r ∧ y.Comes J r' ∧ (∀ a ∈ r', a ∈ r) ∧ ∀ a ∈ r, P a

theorem refines_pure {P : α → Prop} {a : α} (h : P a) : Refines I J P (pure a) (pure a) :=
  ⟨some a, some a, comes_pure a, comes_pure a, fun _ => id, by simpa using h⟩

theorem refines_throw {P : α → Prop} (e : Error) : Refines I J P (throw e) (throw e) :=
  ⟨none, none, comes_throw e, comes_throw e, fun _ => id, by simp⟩

theorem refines_bind {P : α → Prop} {Q : β → Prop} {x y : Eval α} {f g : α → Eval β}
    (h : x.Refines I J P y) (hf : ∀ a, P a → (f a).Refines I J Q (g a)) :
    Refines I J Q (x >>= f) (y >>= g) := by
  obtain ⟨r, r', hx, hy, hsub, hP⟩ := h
  cases r with
  | none =>
    -- The action on the right fails as well.
    obtain rfl : r' = none := Option.eq_none_iff_forall_not_mem.2 fun a ha => by cases hsub a ha
    exact ⟨none, none, comes_bind (g := fun _ => none) hx (by simp),
      comes_bind (g := fun _ => none) hy (by simp), fun _ => id, by simp⟩
  | some a =>
    obtain ⟨q, q', hfa, hga, hsub', hQ⟩ := hf a (hP a rfl)
    refine ⟨q, r'.bind fun _ => q', comes_bind (g := fun _ => q) hx ?_,
      comes_bind (g := fun _ => q') hy fun b hb => ?_, fun b hb => ?_, hQ⟩
    · rintro _ ⟨⟩
      exact hfa
    · cases hsub b hb
      exact hga
    · obtain ⟨_, _, hb⟩ := Option.bind_eq_some_iff.1 hb
      exact hsub' b hb

end Eval

/-! ### Steadiness -/

/-- Counts something whose number is known, or fails to. -/
def Eval.ofSize : Option Nat → Eval Nat
  | some n => pure n
  | none => throw Sequence.outOfTurn

/-- A context whose size is known beforehand, or known not to be had. -/
def Context.known (n : Node) (position : Nat) (size? : Option Nat) : Context :=
  ⟨n, position, .ofSize size?⟩

theorem Context.comes_known {I : List Stage → Prop} (n : Node) (position : Nat)
    (size? : Option Nat) : (known n position size?).size.Comes I size? := by
  cases size? with
  | none => exact Eval.comes_throw _
  | some k => exact Eval.comes_pure k

/-- What is evaluated in a context comes to what the node, the position and the size make it come
to; without the size it comes to the same or fails. -/
structure Steady {α : Type} (f : Context → Eval α) : Prop where
  comes : ∀ {I : List Stage → Prop} {c : Context} {size? : Option Nat}, c.size.Comes I size? →
    (f c).Comes I (f (.known c.node c.position size?)).outcome
  mono : ∀ {n position size a}, a ∈ (f (.known n position none)).outcome →
    a ∈ (f (.known n position (some size))).outcome

theorem Steady.mono_of {α : Type} {f : Context → Eval α} (h : Steady f) {n : Node}
    {position : Nat} {size? size?' : Option Nat} (hsize : ∀ k ∈ size?', k ∈ size?) {a : α}
    (ha : a ∈ (f (.known n position size?')).outcome) :
    a ∈ (f (.known n position size?)).outcome := by
  cases size?' with
  | some k =>
    obtain rfl : size? = some k := hsize k rfl
    exact ha
  | none =>
    cases size? with
    | none => exact ha
    | some k => exact h.mono ha

/-! ### The accord -/

/-- How two actions are compared: they are the same, or the one on the left refines the other, among
stages of some kind on each side. -/
inductive SameOrAmong where
  | same
  | among (left right : List Stage → Prop)

/-- The accord of steadiness.  As actions may have to be the same, all that is in accord is the
same; as they may have to refine each other, it is steady. -/
def Accord.steadiness (σ : Setting) : Accord SameOrAmong where
  toSides := .same σ
  Holds k _ P x y :=
    match k with
    | .same => x = y ∧ x.Ensures P
    | .among I J => x.Refines I J P y
  Good _ := True
  Sized k x y :=
    match k with
    | .same => x = y
    | .among I J => x.Refines I J (fun _ => True) y
  size {k _ _} h := by
    cases k with
    | same => exact ⟨h, Eval.ensures_true _⟩
    | among I J => exact h
  sized {k _} := by
    cases k with
    | same => rfl
    | among I J => exact Eval.refines_pure trivial
  pure {k _ _ _} h := by
    cases k with
    | same => exact ⟨rfl, Eval.ensures_pure h⟩
    | among I J => exact Eval.refines_pure h
  throw {k _ _ _} _ := by
    cases k with
    | same => exact ⟨rfl, fun _ _ _ h => by cases h⟩
    | among I J => exact Eval.refines_throw _
  bind {k _ _ _ _ x y f g} hx hf := by
    cases k with
    | same =>
      obtain ⟨rfl, hP⟩ := hx
      refine ⟨funext fun s => ?_, Eval.ensures_bind hP fun a ha => (hf a ha).2⟩
      show EStateM.bind x f s = EStateM.bind x g s
      rw [EStateM.bind, EStateM.bind]
      cases h : x s with
      | error e t => rfl
      | ok a t => exact congrFun (hf a (hP h)).1 t
    | among I J => exact Eval.refines_bind hx hf
  known _ _ _ := trivial
  scalar _ := trivial
  union _ _ := trivial
  identified _ := trivial

/-- A library of functions that pass on what they are given: what a call comes to depends only on
what its context, its arguments and its conversions come to, and if some of these fail it comes to
the same or fails. -/
def Library.Steady (σ : Setting) (L : Library) : Prop := (Accord.steadiness σ).Libraries L L

theorem Registry.steady_core (σ : Setting) : core.library.Steady σ := Accord.libraries_core

namespace Accord

variable {σ : Setting} {α : Type}

theorem exact_steadiness (σ : Setting) : (steadiness σ).Exact .same :=
  ⟨fun _ => ⟨rfl, trivial, rfl, rfl⟩, fun h => h.1⟩

theorem contexts_among {I J : List Stage → Prop} {c d : Context} {size? size?' : Option Nat}
    (hnode : c.node = d.node) (hposition : c.position = d.position)
    (hc : c.size.Comes I size?) (hd : d.size.Comes J size?') (h : ∀ k ∈ size?', k ∈ size?) :
    (steadiness σ).Contexts (.among I J) c d :=
  ⟨hnode, trivial, hposition, size?, size?', hc, hd, h, fun _ _ => trivial⟩

theorem eq_of_contexts {c d : Context} (h : (steadiness σ).Contexts .same c d) : c = d := by
  obtain ⟨node, position, size⟩ := c
  obtain ⟨_, _, _⟩ := d
  obtain ⟨rfl, -, rfl, hsize⟩ := h
  obtain rfl : size = _ := hsize
  rfl

/-- What is in accord with itself is steady. -/
theorem steady_of_holds {P : α → Prop} {f : Context → Eval α}
    (h : ∀ {k c d}, (steadiness σ).Contexts k c d → (steadiness σ).Holds k P (f c) (f d)) :
    Steady f where
  comes {I c size?} hc := by
    -- Each of the two contexts does at least what the other one does.
    have hd := Context.comes_known (I := fun _ => True) c.node c.position size?
    set d := Context.known c.node c.position size?
    obtain ⟨r, q, hr, hq, hqr, -⟩ := h (contexts_among (c := c) (d := d) rfl rfl hc hd fun _ => id)
    obtain ⟨q', r', hq', hr', hrq', -⟩ :=
      h (contexts_among (c := d) (d := c) rfl rfl hd hc fun _ => id)
    obtain rfl := hq.outcome trivial
    rw [← hq'.outcome trivial] at hrq'
    generalize (f d).outcome = q at hqr hrq'
    cases q with
    | none =>
      obtain rfl : r' = none := Option.eq_none_iff_forall_not_mem.2 fun a ha => by
        cases hrq' a ha
      exact hr'
    | some a =>
      obtain rfl : r = some a := hqr a rfl
      exact hr
  mono {n position size a} ha := by
    have hsome := Context.comes_known (I := fun _ => True) n position (some size)
    have hnone := Context.comes_known (I := fun _ => True) n position none
    obtain ⟨r, q, hr, hq, hqr, -⟩ := h (contexts_among (c := .known n position (some size))
      (d := .known n position none) rfl rfl hsome hnone nofun)
    rw [hq.outcome trivial] at ha
    rw [hr.outcome trivial]
    exact hqr a ha

/-- What is steady is in accord with itself. -/
theorem holds_of_steady {f : Context → Eval α} (h : Steady f) {k : SameOrAmong} {c d : Context}
    (hc : (steadiness σ).Contexts k c d) : (steadiness σ).Plain k (f c) (f d) := by
  cases k with
  | same =>
    obtain rfl := eq_of_contexts hc
    exact ⟨rfl, Eval.ensures_true _⟩
  | among I J =>
    obtain ⟨hnode, -, hposition, size?, size?', hsize, hsize', hsub, -⟩ := hc
    refine ⟨_, _, h.comes hsize, h.comes hsize', fun a ha => ?_, fun _ _ => trivial⟩
    rw [hnode, hposition]
    exact h.mono_of hsub ha

end Accord

/-- A predicate whose judgement is steady. -/
def Predicate.Steady : Predicate → Prop
  | .position _ => True
  | .test judge => XPath.Steady judge

theorem Accord.steady_predicate {σ : Setting} {p : Predicate}
    (h : (steadiness σ).Predicates p p) : p.Steady := by
  cases p with
  | position x => trivial
  | test judge =>
    cases h with
    | test h => exact steady_of_holds h

end XPath
