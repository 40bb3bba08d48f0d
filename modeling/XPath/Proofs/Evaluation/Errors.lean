/-
What evaluations fail with.

A stage is asked for a candidate only while it is not at work, and while it is at work it asks only
the stages before it, which are not.  So no stage is asked out of turn, however many predicates
count their candidates while these are being found.  Then the errors of an evaluation are those
that expressions come to, and those that functions raise of their own.

* `Eval.Raises` — an action that keeps stages ready and raises no other errors;
* `Habit.errors`, `Library.Raises` — raising no other errors, as a habit, and in a library;
* `Stage.Ready` — the stages of a step, none of them at work;
* `Candidates.raises_read`, `Candidates.raises_each` — reads and visits of what predicates keep;
* `Path.raises_collect` — following steps;
* `evaluation_never_internal` — the errors of an evaluation.
-/
import XPath.Proofs.Evaluation.Habit
import XPath.Proofs.Evaluation.Rules
import XPath.Tree.Sample

namespace XPath

/-! ### Actions -/

/-- A result that leaves stages of some kind; if it is an error, then one that an expression comes
to or one of some other kind. -/
def Raised {α : Type} (Own : Error → Prop) (I : List Stage → Prop) :
    EStateM.Result Error State α → Prop
  | .ok _ t => I t.stages
  | .error e t => (e.OfExpression ∨ Own e) ∧ I t.stages

/-- Among stages of some kind the action leaves stages of that kind, and it raises only errors that
an expression comes to and errors of some other kind. -/
def Eval.Raises {α : Type} (Own : Error → Prop) (I : List Stage → Prop) (x : Eval α) : Prop :=
  ∀ s, I s.stages → Raised Own I (x s)

namespace Eval

variable {α β : Type} {Own : Error → Prop} {I : List Stage → Prop}

theorem raises_pure (a : α) : Raises Own I (pure a : Eval α) := fun _ hs => hs

theorem raises_throw {e : Error} (h : e.OfExpression) : Raises Own I (throw e : Eval α) :=
  fun _ hs => ⟨.inl h, hs⟩

theorem raises_bind {P : α → Prop} {x : Eval α} {f : α → Eval β} (hx : x.Raises Own I)
    (hP : x.Ensures P) (hf : ∀ a, P a → (f a).Raises Own I) : Raises Own I (x >>= f) := by
  intro s hs
  have hxs := hx s hs
  show Raised Own I (EStateM.bind x f s)
  rw [EStateM.bind]
  cases h : x s with
  | error e t => rwa [h] at hxs
  | ok a t =>
    rw [h] at hxs
    exact hf a (hP h) t hxs

end Eval

/-- Raising no other errors is a habit, for each kind of stages. -/
def Habit.errors (Own : Error → Prop) : Habit (List Stage → Prop) where
  Has I _ x := x.Raises Own I
  pure := Eval.raises_pure
  throw := Eval.raises_throw
  bind := Eval.raises_bind

/-- A library of functions that raise only errors that an expression comes to and errors of some
other kind, unless what they are called with raises others. -/
def Library.Raises (Own : Error → Prop) (L : Library) : Prop := (Habit.errors Own).Libraries L

/-! ### Stages -/

namespace Stage

/-- Stages of which the nearest one is not at work and those before it are of some kind. -/
def Idle (I : List Stage → Prop) (stages : List Stage) : Prop :=
  ∃ stage rest, stages = stage :: rest ∧ stage.kept.busy = false ∧ I rest

/-- The stages of predicates, none of them at work. -/
def Ready : List Predicate → List Stage → Prop
  | [], _ => True
  | _ :: earlier, stages => Idle (Ready earlier) stages

theorem ready_initial (ps : List Predicate) : Ready ps (ps.map initial) := by
  induction ps with
  | nil => trivial
  | cons p earlier ih => exact ⟨initial p, earlier.map initial, rfl, busy_initial p, ih⟩

end Stage

/-! ### Reads and visits -/

variable {Own : Error → Prop} {I : List Stage → Prop}

/-- What holds after a failure. -/
def Eval.Declined (Own : Error → Prop) (I : List Stage → Prop) (e : Error) (s : State) : Prop :=
  (e.OfExpression ∨ Own e) ∧ I s.stages

theorem Eval.raises_iff_keeps {α : Type} {x : Eval α} :
    x.Raises Own I ↔ x.Keeps (fun s => I s.stages) (Declined Own I) := by
  refine forall₂_congr fun s _ => ?_
  cases x s <;> rfl

theorem Predicate.keeps_of_judges {p : Predicate} (hp : (Habit.errors Own).Judges p)
    {size : Eval Nat} (hsize : size.Keeps (fun s => I s.stages) (Eval.Declined Own I)) :
    p.Keeps (fun s => I s.stages) (Eval.Declined Own I) size := by
  cases p with
  | position x => trivial
  | test judge =>
    exact fun n position => Eval.raises_iff_keeps.1 (hp I _ (Eval.raises_iff_keeps.2 hsize))

/-- A stage that has been asked is no longer at work once it remembers the answer. -/
theorem Stage.Answered.idle {P : State → Prop} {Q : Error → State → Prop} {stage : Stage}
    {answer : Pull} {t : State} (h : Answered P Q stage answer t)
    (hP : ∀ s, P s → I s.stages) (hQ : ∀ e s, Q e s → I s.stages) :
    Idle I (noting (noted answer) t).stages := by
  have hbusy : ∀ q, (noted answer q).busy = false := fun q => by cases answer <;> rfl
  cases h with
  | reached _ h => exact ⟨_, _, rfl, hbusy _, hP _ h⟩
  | hushed _ h => exact ⟨_, _, rfl, hbusy _, hQ _ _ h⟩

namespace Candidates

open Stage

variable {nodes : List Node} {ps : List Predicate} (hp : ∀ p ∈ ps, (Habit.errors Own).Judges p)

include hp

/-- While no stage is at work, a read of what predicates keep is answered. -/
theorem raises_read (stop : Option Nat) : (read nodes ps stop).Raises Own (Ready ps) := by
  induction ps generalizing stop with
  | nil => exact Eval.raises_pure nodes
  | cons p earlier ih =>
    have hearlier : ∀ stop, (read nodes earlier stop).Keeps _ (Eval.Declined Own (Ready earlier)) :=
      fun stop => Eval.raises_iff_keeps.1 (ih (fun q hq => hp q (by simp [hq])) stop)
    refine Eval.raises_iff_keeps.2 (read_cons_keeps (fill_keeps ?_ ?_ _))
    · -- A read asks a stage only while it is not at work.
      rintro ⟨log, _⟩ ⟨stage, rest, rfl, hidle, -⟩ _ hb
      exact (Bool.false_ne_true (hidle.symm.trans hb)).elim
    · rintro log stage rest ⟨_, _, ⟨⟩, -, hready⟩ _ _
      have hkeeps := Predicate.keeps_of_judges (hp p (by simp)) (Predicate.size_keeps hearlier)
      refine (Predicate.pull_keeps hearlier hkeeps _ hready).mono
        (fun answer t h => h.idle (fun _ h => h) fun _ _ h => h.2) fun e t h => ?_
      cases h with
      | intro _ h => exact ⟨h.1, _, _, rfl, rfl, h.2⟩

variable {β : Type} {enough : β → Bool} {visit : Node → β → Eval β}
  (hv : ∀ n b, (visit n b).Raises Own I)

include hv

/-- The stages of a step are apart from those around it, which a read leaves alone. -/
theorem raises_each (b : β) : (each nodes ps enough visit b).Raises Own I := by
  refine Eval.raises_iff_keeps.2 fun s hs => ?_
  refine (each_keeps (V := fun stages s => Ready ps stages ∧ I s.stages) ?_ ?_ b
    ⟨ready_initial ps, hs⟩).mono (fun _ _ h => h.choose_spec.2) fun _ _ h => h
  · rintro i stages s ⟨hready, hs⟩
    exact (Eval.raises_iff_keeps.1 (raises_read hp (some i)) ⟨s.log, stages⟩ hready).mono
      (fun _ _ h => ⟨h, hs⟩) fun _ _ h => ⟨h.1, hs⟩
  · rintro stages s n b ⟨hready, hs⟩
    exact (Eval.raises_iff_keeps.1 (hv n b) s hs).mono (fun _ _ h => ⟨hready, h⟩) fun _ _ h => h

end Candidates

/-! ### Evaluations -/

theorem Path.raises_follow (once : Bool) {strides : List Stride}
    (h : ∀ s ∈ strides, ∀ p ∈ s.predicates, (Habit.errors Own).Judges p) (n : Node)
    (p : Progress) : (follow once strides n p).Raises Own I := by
  induction strides generalizing n p with
  | nil => exact Eval.raises_pure _
  | cons stride rest ih =>
    rw [follow]
    refine Candidates.raises_each (h stride (by simp)) (fun m p => ?_) p
    split
    · exact Eval.raises_pure p
    · exact ih (fun s hs => h s (by simp [hs])) m _

theorem Path.raises_collect : (Habit.errors Own).Collects :=
  fun _ once _ _ _ hp hs =>
    Eval.raises_bind (Candidates.raises_each hp (Path.raises_follow once hs) _)
      (Eval.ensures_true _) fun _ _ => Eval.raises_pure _

/-- What an evaluation fails with, be it of the value or of the truth. -/
def Meaning.FailsWith (m : Meaning) (c : Context) (s : State) (e : Error) : Prop :=
  ∃ t, m.value c s = .error e t ∨ m.truth c s = .error e t

theorem Meaning.FailsWith.raised {m : Meaning} {c : Context} {s : State} {e : Error}
    (h : m.FailsWith c s e) (hs : I s.stages) (hvalue : (m.value c).Raises Own I)
    (htruth : (m.truth c).Raises Own I) : e.OfExpression ∨ Own e := by
  obtain ⟨t, h | h⟩ := h
  · have hr := hvalue s hs
    rw [h] at hr
    exact hr.1
  · have hr := htruth s hs
    rw [h] at hr
    exact hr.1

theorem Error.OfExpression.ne_internal {e : Error} (h : e.OfExpression) (m : String) :
    e ≠ .internal m := by
  rintro rfl
  cases h

/-- With the core functions an evaluation fails only with the errors that expressions come to: an
unknown function, a function that refuses its arguments, an operand that is not a node-set, a
variable without a value or a qualifier that is not bound.  Other functions may add errors of their
own, but the engine adds none: it never fails to keep a promise. -/
theorem evaluation_never_internal (σ : Setting) (e : Expr) {c : Context} {I : List Stage → Prop}
    {s : State} (hs : I s.stages) :
    (c.size.Raises (fun _ => False) I → ∀ {err},
      (e.meaning (.standard Registry.core.library σ)).FailsWith c s err →
        err.OfExpression ∧ ∀ m, err ≠ .internal m) ∧
    ∀ {L : Library} {Own : Error → Prop}, L.Raises Own → (∀ m, ¬ Own (.internal m)) →
      c.size.Raises Own I → ∀ {err}, (e.meaning (.standard L σ)).FailsWith c s err →
        (err.OfExpression ∨ Own err) ∧ ∀ m, err ≠ .internal m := by
  have hraised : ∀ {L : Library} {Own : Error → Prop}, L.Raises Own → c.size.Raises Own I →
      ∀ {err}, (e.meaning (.standard L σ)).FailsWith c s err → err.OfExpression ∨ Own err := by
    intro L Own hL hc err h
    obtain ⟨hvalue, htruth⟩ := Habit.meaning σ Path.raises_collect hL e hc
    exact h.raised hs hvalue htruth
  refine ⟨fun hc err h => ?_, fun hL hOwn hc err h => ?_⟩
  · have herr : err.OfExpression := (hraised Habit.libraries_core hc h).resolve_right id
    exact ⟨herr, herr.ne_internal⟩
  · refine ⟨hraised hL hc h, fun m hm => ?_⟩
    subst hm
    exact (hraised hL hc h).elim (fun h => h.ne_internal m rfl) (hOwn m)

/-- The path `child::*[last() | $x]`. -/
def Expr.unionWithLast : Expr :=
  .path .context [⟨.child, .wildcard, [.union (.call ⟨none, "last"⟩ []) (.variableReference "x")]⟩]

/-- A library that finds the same function under every name. -/
def Library.always (f : Function) : Library := fun _ _ _ => some f

/-- In the sample, `last()` counts the children while they are being found, and a number is no
operand of a union.  A function in its place may raise what expressions never come to. -/
theorem evaluation_never_internal_sample :
    (∃ err, (Expr.unionWithLast.meaning (.standard Registry.core.library
      (.ofTree .sample))).FailsWith (.alone ⟨0, 0⟩) .start err ∧ err.OfExpression) ∧
    ∃ err, (Expr.unionWithLast.meaning (.standard (.always fun _ => throw (.unknownAxis "x"))
      (.ofTree .sample))).FailsWith (.alone ⟨0, 0⟩) .start err ∧ ∀ m, err ≠ .internal m := by
  have hsize : ∀ {Own}, (Context.alone ⟨0, 0⟩).size.Raises Own fun _ => True := Eval.raises_pure 1
  have hlibrary : (Library.always fun _ => throw (.unknownAxis "x")).Raises
      (· = .unknownAxis "x") := by
    rintro name σ c _ ⟨⟩ I call _ s hs
    exact ⟨.inr rfl, hs⟩
  have hcore : (Expr.unionWithLast.meaning (.standard Registry.core.library
      (.ofTree .sample))).FailsWith (.alone ⟨0, 0⟩) .start (.operandNotNodeSet "|" .number) :=
    ⟨.start, .inl (by with_unfolding_all rfl)⟩
  have hown : (Expr.unionWithLast.meaning (.standard (.always fun _ => throw (.unknownAxis "x"))
      (.ofTree .sample))).FailsWith (.alone ⟨0, 0⟩) .start (.unknownAxis "x") :=
    ⟨.start, .inl (by with_unfolding_all rfl)⟩
  have h := evaluation_never_internal (.ofTree .sample) Expr.unionWithLast
    (c := .alone ⟨0, 0⟩) (I := fun _ => True) (s := .start) trivial
  exact ⟨⟨_, hcore, (h.1 hsize hcore).1⟩, ⟨_, hown, (h.2 hlibrary (by simp) hsize hown).2⟩⟩

end XPath
