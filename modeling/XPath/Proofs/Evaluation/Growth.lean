/-
The log of an evaluation only grows.

Whatever an expression does, the lines that were logged before are still there afterwards, also
if it fails.  This needs to be known only of the functions of the library: the rest of an
evaluation logs nothing by itself.

* `Eval.Grows` — an action that forgets no line;
* `Library.Grows`, `Library.recorded` — libraries of functions that forget no line, and what
  makes one record its calls;
* `Habit.growth`, `Accord.growth` — growing as a habit, and as an accord;
* `Path.grows_collect` — following steps forgets no line;
* `Accord.interpretations_growth` — an evaluation in a growing library grows.
-/
import XPath.Proofs.Evaluation.Logging

namespace XPath

/-! ### Actions -/

namespace Eval

variable {α β : Type}

/-- An action after which every line logged before is still there. -/
abbrev Grows (x : Eval α) : Prop := x.Along fun s t => s.log <:+ t.log

theorem grows_throw (e : Error) : (throw e : Eval α).Grows := fun _ => List.suffix_refl _

theorem grows_log (line : String) : (log line).Grows := fun _ => List.suffix_cons _ _

theorem course_log : Course fun s t => s.log <:+ t.log :=
  ⟨fun _ => List.suffix_refl _, fun h h' => h.trans h'⟩

theorem grows_pure (a : α) : (pure a : Eval α).Grows := course_log.pure a

theorem grows_bind {x : Eval α} {f : α → Eval β} {P : α → Prop} (hx : x.Grows)
    (hP : x.Ensures P) (hf : ∀ a, P a → (f a).Grows) : (x >>= f : Eval β).Grows :=
  course_log.bind hx hP hf

end Eval

/-! ### Libraries -/

/-- A call with surroundings and arguments that forget no line. -/
structure Call.Grows (c : Call) : Prop where
  size : c.context.size.Grows
  value : ∀ a ∈ c.arguments, ∀ d : Context, d.size.Grows → (a.value d).Grows
  truth : ∀ a ∈ c.arguments, ∀ d : Context, d.size.Grows → (a.truth d).Grows
  numberOf : ∀ (d : Context) v, d.size.Grows → (c.numberOf d v).Grows

/-- A function that forgets no line, unless what it is called with does. -/
def Function.Grows (f : Function) : Prop := ∀ c : Call, c.Grows → (f c).Grows

namespace Library

/-- A library of functions that forget no line.  So are functions that only compute, and
functions that log what they do. -/
def Grows (L : Library) : Prop := ∀ name σ c f, L name σ c = some f → Function.Grows f

/-- The library that logs a line for each call, made from the name and the context, before the
function is called. -/
def recorded (line : QName → Context → String) (L : Library) : Library := fun name σ c =>
  (L name σ c).map fun f call => do
    Eval.log (line name call.context)
    f call

theorem Grows.recorded {L : Library} (h : L.Grows) (line : QName → Context → String) :
    (L.recorded line).Grows := by
  intro name σ c f hf call hcall
  obtain ⟨g, hg, rfl⟩ := Option.map_eq_some_iff.1 hf
  exact Eval.grows_bind (Eval.grows_log _) (Eval.ensures_true _)
    fun _ _ => h name σ c g hg call hcall

end Library

/-! ### Candidates -/

/-- A predicate whose judgement forgets no line. -/
def Predicate.Grows : Predicate → Prop
  | .position _ => True
  | .test judge => ∀ c : Context, c.size.Grows → (judge c).Grows

theorem Predicate.grows_iff {p : Predicate} : p.Grows ↔ p.Logs (· <:+ ·) := by
  cases p <;> rfl

/-- Reads forget no line if predicates do not. -/
theorem Candidates.reads_log {predicates : List Predicate} (h : ∀ p ∈ predicates, p.Grows) :
    Reads (fun s t => s.log <:+ t.log) predicates :=
  reads_logs Eval.course_log fun p hp => Predicate.grows_iff.1 (h p hp)

/-! ### Paths -/

/-- A step whose predicates forget no line. -/
def Stride.Grows (stride : Stride) : Prop := ∀ p ∈ stride.predicates, p.Grows

namespace Path

theorem grows_collect (once : Bool) (nodes : List Node) {predicates : List Predicate}
    (hp : ∀ p ∈ predicates, p.Grows) {strides : List Stride} (h : ∀ s ∈ strides, s.Grows) :
    (collect once nodes predicates strides).Grows :=
  logs_collect Eval.course_log once nodes (fun p h => Predicate.grows_iff.1 (hp p h))
    fun s hs p hp => Predicate.grows_iff.1 (h s hs p hp)

end Path

/-! ### Expressions -/

namespace Habit

/-- Growing is a habit. -/
def growth : Habit Unit where
  Has _ _ x := x.Grows
  pure := Eval.grows_pure
  throw _ := Eval.grows_throw _
  bind := Eval.grows_bind

theorem judges_growth {p : Predicate} : growth.Judges p ↔ p.Grows := by
  cases p with
  | position x => rfl
  | test judge => exact ⟨fun h => h (), fun h _ => h⟩

theorem calls_growth {c : Call} : growth.Calls () c ↔ c.Grows :=
  ⟨fun h => ⟨h.size, fun a ha => h.value a ha (), fun a ha => h.truth a ha (), h.numberOf ()⟩,
    fun h => ⟨h.size, fun a ha _ => h.value a ha, fun a ha _ => h.truth a ha, fun _ => h.numberOf⟩⟩

theorem libraries_growth {L : Library} : growth.Libraries L ↔ L.Grows :=
  ⟨fun h name σ c f hf call hcall => h name σ c f hf () call (calls_growth.2 hcall),
    fun h name σ c f hf _ call hcall => h name σ c f hf call (calls_growth.1 hcall)⟩

theorem collects_growth : growth.Collects := fun _ once nodes _ _ hp hs =>
  Path.grows_collect once nodes (fun p h => judges_growth.1 (hp p h))
    fun s hm p h => judges_growth.1 (hs s hm p h)

end Habit

/-- Predicates that forget no line make a step that does not. -/
theorem Path.ensures_ofStep (σ : Setting) {step : Step Meaning}
    (h : ∀ m ∈ step.predicates, m.predicate.Grows) :
    (Eval.ofExcept (Stride.ofStep σ step)).Ensures Stride.Grows := by
  intro s stride t hs p hp
  have hstride := Habit.ensures_ofStep (H := .growth) σ fun m hm => Habit.judges_growth.2 (h m hm)
  exact Habit.judges_growth.1 (hstride hs p hp)

namespace Accord

/-- Growing, as an accord of an interpretation with itself. -/
def growth (σ : Setting) : Accord Unit where
  toSides := .same σ
  Holds _ _ P x _ := x.Grows ∧ x.Ensures P
  Good _ := True
  Sized _ x y := x = y ∧ x.Grows
  size h := ⟨h.2, Eval.ensures_true _⟩
  sized := ⟨rfl, Eval.grows_pure _⟩
  pure h := ⟨Eval.grows_pure _, Eval.ensures_pure h⟩
  throw _ := ⟨Eval.grows_throw _, fun _ _ _ h => by cases h⟩
  bind hx hf :=
    ⟨Eval.grows_bind hx.1 hx.2 fun a ha => (hf a ha).1,
      Eval.ensures_bind hx.2 fun a ha => (hf a ha).2⟩
  known _ _ _ := trivial
  scalar _ := trivial
  union _ _ := trivial
  identified _ := trivial

variable {σ : Setting}

theorem growth_eq : growth σ = Habit.growth.accord σ := rfl

theorem Meanings.grows {ms ns : List Meaning} (h : List.Forall₂ (growth σ).Meanings ms ns) :
    ∀ m ∈ ms, m.predicate.Grows := by
  rw [growth_eq] at h
  exact fun m hm => Habit.judges_growth.1 (Habit.judges_meanings h m hm)

/-- A path starts with predicates that forget no line. -/
theorem ensures_startNodes {start start' : Start Meaning}
    (h : (growth σ).Starts start start') (c : Context) :
    (Path.startNodes σ c start).Ensures fun r => ∀ p ∈ r.2, p.Grows := by
  rw [growth_eq] at h
  intro s r t hr p hp
  exact Habit.judges_growth.1 (Habit.ensures_startNodes h c hr p hp)

/-- The evaluation of the engine, with a library that grows, is in accord with itself. -/
theorem interpretations_growth {L : Library} (h : L.Grows) :
    (growth σ).Interpretations (.standard L σ) (.standard L σ) :=
  Habit.interpretations Habit.collects_growth (Habit.libraries_growth.2 h)

end Accord

/-- The core functions only compute. -/
theorem Registry.grows_core : core.library.Grows :=
  Habit.libraries_growth.1 Habit.libraries_core

end XPath
