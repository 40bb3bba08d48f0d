/-
Invariants of the log and the stages.

Something may hold of the state as long as an evaluation goes on, and less of it, about the log
only, once the evaluation has failed: then the stages are left as they are, and nobody asks them
again.  A stage that wants no more may hide a failure of the stages before it, but then it has come
to its end and does not ask them either.  So what the first predicates of a step keep, all of them
keep, and so does a walk over what they keep if nothing is logged between the reads.

* `Invariant`, `Eval.Preserves` — what holds while an evaluation goes on, and actions that preserve
  it;
* `Habit.preserving` — preserving invariants, as a habit;
* `Path.collect_stays` — following steps changes nothing, if the predicates preserve all invariants;
* `Invariant.atop`, `Stage.fill_preserves` — an invariant of a stage and those before it, and reads
  of the stage;
* `Invariant.beyond`, `Candidates.read_preserves` — the invariant of some stages, after further
  ones;
* `Candidates.each_preserves` — walks over what all predicates keep.
-/
import XPath.Proofs.Evaluation.Logging

namespace XPath

/-- What holds of the state while an evaluation goes on, and what is left of it in the log when
the evaluation fails. -/
structure Invariant where
  Running : List String → List Stage → Prop
  Stopped : List String → Prop
  stopped_of_running : ∀ {log stages}, Running log stages → Stopped log

/-- A run that ends with the invariant, or with what is left of it. -/
def Preserved {α : Type} (k : Invariant) : EStateM.Result Error State α → Prop
  | .ok _ t => k.Running t.log t.stages
  | .error _ t => k.Stopped t.log

/-- An action that preserves an invariant. -/
def Eval.Preserves {α : Type} (k : Invariant) (x : Eval α) : Prop :=
  ∀ s, k.Running s.log s.stages → Preserved k (x s)

namespace Eval

variable {α β : Type} {k : Invariant}

theorem preserves_pure (a : α) : (pure a : Eval α).Preserves k := fun _ hs => hs

theorem preserves_throw (e : Error) : (throw e : Eval α).Preserves k :=
  fun _ hs => k.stopped_of_running hs

theorem preserves_bind {x : Eval α} {f : α → Eval β} {P : α → Prop} (hx : x.Preserves k)
    (hP : x.Ensures P) (hf : ∀ a, P a → (f a).Preserves k) : Preserves k (x >>= f) := by
  intro s hs
  have hxs := hx s hs
  show Preserved k (EStateM.bind x f s)
  rw [EStateM.bind]
  cases h : x s with
  | error e t => rwa [h] at hxs
  | ok a t =>
    rw [h] at hxs
    exact hf a (hP h) t hxs

/-- An action that changes nothing preserves every invariant. -/
theorem preserves_of_stays {x : Eval α} (h : x.Along Eq) (k : Invariant) : x.Preserves k := by
  intro s hs
  cases hx : x s with
  | error e t =>
    obtain rfl := h.error hx
    exact k.stopped_of_running hs
  | ok a t =>
    obtain rfl := h.ok hx
    exact hs

theorem Preserves.stopped {x : Eval α} (h : x.Preserves k) {s : State}
    (hs : k.Running s.log s.stages) : k.Stopped (x.after s).log := by
  have hxs := h s hs
  rw [after]
  cases hx : x s with
  | error e t => rwa [hx] at hxs
  | ok a t =>
    rw [hx] at hxs
    exact k.stopped_of_running hxs

end Eval

/-! ### Predicates that preserve all invariants -/

/-- Preserving invariants is a habit. -/
def Habit.preserving : Habit Invariant where
  Has k _ x := x.Preserves k
  pure := Eval.preserves_pure
  throw _ := Eval.preserves_throw _
  bind := Eval.preserves_bind

/-- That the log is a given one. -/
def Invariant.ofLog (log : List String) : Invariant := ⟨fun l _ => l = log, (· = log), id⟩

theorem Eval.quiet_iff {α : Type} {x : Eval α} : x.Quiet ↔ ∀ log, x.Preserves (.ofLog log) := by
  constructor
  · rintro h _ s rfl
    cases hx : x s with
    | error e t => exact (h.error hx).symm
    | ok a t => exact (h.ok hx).symm
  · intro h s
    exact ((h s.log).stopped (s := s) rfl).symm

/-- Predicates that preserve all invariants log nothing. -/
theorem Habit.quiet_of_preserving {p : Predicate} (h : Habit.preserving.Judges p) : p.Logs Eq := by
  cases p with
  | position x => trivial
  | test judge => exact fun c hc => Eval.quiet_iff.2 fun log => h _ c (Eval.quiet_iff.1 hc log)

theorem Eval.course_eq : Course (Eq : State → State → Prop) := ⟨fun _ => rfl, Eq.trans⟩

/-- Reads of quiet predicates, on stages of their own, change nothing. -/
theorem Candidates.reads_stay {ps : List Predicate} (h : ∀ p ∈ ps, p.Logs Eq) : Reads Eq ps := by
  intro nodes i stages s
  have hlog : s.log = _ := reads_logs Eval.course_quiet h nodes i stages s
  have hstages : s.stages = _ := reads_stages ps nodes i stages s
  generalize Eval.after _ s = t at hlog hstages ⊢
  obtain ⟨log, stages⟩ := t
  cases hlog
  cases hstages
  rfl

/-- Following steps with quiet predicates changes nothing. -/
theorem Path.collect_stays {ps : List Predicate} (hp : ∀ p ∈ ps, p.Logs Eq) {strides : List Stride}
    (hs : ∀ s ∈ strides, ∀ p ∈ s.predicates, p.Logs Eq) (once : Bool) (nodes : List Node) :
    (collect once nodes ps strides).Along Eq :=
  Eval.course_eq.bind
    (Candidates.eachFrom_along Eval.course_eq _ (Candidates.reads_stay hp) _
      (follow_along Eval.course_eq once fun s h => Candidates.reads_stay (hs s h)) _ _ _ _)
    (Eval.ensures_true _) fun _ _ => Eval.course_eq.pure _

theorem Habit.collects_preserving : Habit.preserving.Collects := fun k once nodes _ _ hp hs =>
  Eval.preserves_of_stays (Path.collect_stays (fun p h => quiet_of_preserving (hp p h))
    (fun s hm p h => quiet_of_preserving (hs s hm p h)) once nodes) k

/-! ### Reads -/

/-- What holds of a state while an evaluation goes on. -/
def Invariant.Holds (k : Invariant) (s : State) : Prop := k.Running s.log s.stages

/-- What is left of it when the evaluation fails. -/
def Invariant.Remains (k : Invariant) (_ : Error) (s : State) : Prop := k.Stopped s.log

theorem Eval.preserves_iff_keeps {α : Type} {x : Eval α} {k : Invariant} :
    x.Preserves k ↔ x.Keeps k.Holds k.Remains := by
  refine forall₂_congr fun s _ => ?_
  cases x s <;> rfl

/-- The invariant of a stage and those before it. -/
def Invariant.atop (Running : List String → Stage → List Stage → Prop)
    (Stopped : List String → Prop)
    (h : ∀ {log stage rest}, Running log stage rest → Stopped log) : Invariant where
  Running log stages := ∃ stage rest, stages = stage :: rest ∧ Running log stage rest
  Stopped := Stopped
  stopped_of_running := fun ⟨_, _, _, hs⟩ => h hs

namespace Stage

variable {Running : List String → Stage → List Stage → Prop} {Stopped : List String → Prop}

/-- What asking a stage once ends with, if an invariant holds of what the stage then remembers. -/
def Replied (Running : List String → Stage → List Stage → Prop) (Stopped : List String → Prop) :
    EStateM.Result Error State Pull → Prop :=
  Ends
    (fun answer t => ∃ stage rest, t.stages = stage :: rest ∧
      Running t.log (stage.remember (noted answer stage.kept)) rest)
    fun _ t => Stopped t.log

/-- Invariants that are preserved separately are preserved together. -/
theorem Replied.and {Running' : List String → Stage → List Stage → Prop}
    {Stopped' : List String → Prop} {r : EStateM.Result Error State Pull}
    (h : Replied Running Stopped r) (h' : Replied Running' Stopped' r) :
    Replied (fun log stage rest => Running log stage rest ∧ Running' log stage rest)
      Stopped' r := by
  cases r with
  | error e t => exact h'
  | ok answer t =>
    obtain ⟨stage, rest, hstages, h⟩ := h
    obtain ⟨stage', rest', hstages', h'⟩ := h'
    rw [hstages] at hstages'
    obtain ⟨rfl, rfl⟩ := List.cons.inj hstages'
    exact ⟨stage, rest, hstages, h, h'⟩

/-- A read preserves the invariant that asking the stage once preserves. -/
theorem fill_preserves (h : ∀ {log stage rest}, Running log stage rest → Stopped log)
    {pull : Eval Pull}
    (hpull : ∀ {log stage rest}, Running log stage rest → stage.kept.exhausted = false →
      Replied Running Stopped (pull ⟨log, stage.remember stage.kept.occupied :: rest⟩))
    (stop : Option Nat) (fuel : Nat) :
    Eval.Preserves (.atop Running Stopped h) (place.fill pull stop fuel) := by
  refine Eval.preserves_iff_keeps.2 (fill_keeps (fun s hs _ _ => ?_) ?_ fuel)
  · exact Invariant.stopped_of_running _ hs
  · rintro log stage rest ⟨_, _, ⟨⟩, hrunning⟩ ha _
    refine (hpull hrunning (Sequence.not_exhausted_of_answers ha)).mono (fun answer t h => ?_)
      fun e t h => ?_
    · obtain ⟨tlog, _⟩ := t
      obtain ⟨stage', rest', rfl, h⟩ := h
      exact ⟨_, rest', rfl, h⟩
    · show Stopped (noting Sequence.released t).log
      rwa [log_noting]

end Stage

/-- The invariant holds for the stages before a stage, unless this has come to its end. -/
def Invariant.Before (k : Invariant) (log : List String) (stage : Stage) (rest : List Stage) :
    Prop :=
  k.Stopped log ∧ (stage.kept.exhausted = false → k.Running log rest)

theorem Invariant.Before.stopped {k : Invariant} {log : List String} {stage : Stage}
    {rest : List Stage} (h : k.Before log stage rest) : k.Stopped log := h.1

/-- The invariant of some stages after one more. -/
def Invariant.above (k : Invariant) : Invariant := .atop k.Before k.Stopped Invariant.Before.stopped

/-- The same after the stages of several predicates. -/
def Invariant.beyond (k : Invariant) : List Predicate → Invariant
  | [] => k
  | _ :: earlier => (beyond k earlier).above

variable {k : Invariant}

theorem Invariant.stopped_beyond (ps : List Predicate) : (k.beyond ps).Stopped = k.Stopped := by
  induction ps with
  | nil => rfl
  | cons p earlier ih => exact ih

theorem Invariant.running_initial {log : List String} {stages : List Stage}
    (h : k.Running log stages) (ps : List Predicate) :
    (k.beyond ps).Running log (ps.map Stage.initial ++ stages) := by
  induction ps with
  | nil => exact h
  | cons p earlier ih =>
    exact ⟨Stage.initial p, earlier.map Stage.initial ++ stages, rfl,
      Invariant.stopped_of_running _ ih, fun _ => ih⟩

/-- A stage that is asked once preserves the invariant of those before it. -/
theorem Predicate.pull_preserves {source : Option Nat → Eval (List Node)}
    (hs : ∀ stop, (source stop).Preserves k) {log : List String} {stage : Stage} {rest : List Stage}
    (hrunning : k.Running log rest) {p : Predicate} (hp : Habit.preserving.Judges p) :
    Stage.Replied k.Before k.Stopped (p.pull source ⟨log, stage :: rest⟩) := by
  have hsource := fun stop => Eval.preserves_iff_keeps.1 (hs stop)
  have hkeeps : p.Keeps k.Holds k.Remains (size source) := by
    cases p with
    | position x => trivial
    | test judge =>
      exact fun n position => Eval.preserves_iff_keeps.1
        (hp k _ (Eval.preserves_iff_keeps.2 (size_keeps hsource)))
  have hrest : k.Holds ⟨log, rest⟩ := hrunning
  refine (pull_keeps hsource hkeeps stage hrest).mono (fun answer t h => ?_) fun e t h => ?_
  · cases h with
    | reached _ h => exact ⟨_, _, rfl, k.stopped_of_running h, fun _ => h⟩
    -- A stage that wants no more is at its end now, whatever has become of the others.
    | hushed _ h => exact ⟨_, _, rfl, h, fun he => by cases he⟩
  · cases h with
    | intro _ h => exact h

namespace Candidates

/-- A read keeps to what filling the stage of the last predicate keeps to. -/
theorem read_cons_preserves {p : Predicate} {earlier : List Predicate} {nodes : List Node}
    {stop : Option Nat}
    (h : Eval.Preserves k
      (Stage.place.fill (p.pull (read nodes earlier)) stop (nodes.length + 1))) :
    (read nodes (p :: earlier) stop).Preserves k :=
  Eval.preserves_iff_keeps.2 (read_cons_keeps (Eval.preserves_iff_keeps.1 h))

variable {nodes : List Node} {earlier : List Predicate}
  (hread : ∀ stop, (read nodes earlier stop).Preserves k) {later : List Predicate}
  (hlater : ∀ p ∈ later, Habit.preserving.Judges p)

include hread hlater

/-- Reads of what further predicates keep preserve what reads without them do. -/
theorem read_preserves (stop : Option Nat) :
    (read nodes (later ++ earlier) stop).Preserves (k.beyond later) := by
  induction later generalizing stop with
  | nil => exact hread stop
  | cons p later ih =>
    have hsource := fun stop => ih (fun q hq => hlater q (by simp [hq])) stop
    refine read_cons_preserves (k := (k.beyond later).above) ?_
    apply Stage.fill_preserves
    intro _ _ _ hrunning hopen
    exact Predicate.pull_preserves hsource (hrunning.2 hopen) (hlater p (by simp))

variable {β : Type} {enough : β → Bool} {visit : Node → β → Eval β}
  (hv : ∀ n b, (visit n b).Quiet)

include hv

/-- A walk that logs nothing itself leaves the log as the first predicates do. -/
theorem each_preserves (b : β) {s : State}
    (hs : k.Running s.log (earlier.map Stage.initial)) :
    k.Stopped ((each nodes (later ++ earlier) enough visit b).after s).log := by
  rw [← Invariant.stopped_beyond later]
  have hwalk : Ends (fun _ s => ∃ stages, (k.beyond later).Running s.log stages)
      (fun _ s => (k.beyond later).Stopped s.log)
      (each nodes (later ++ earlier) enough visit b s) := by
    refine each_keeps (fun {i stages s} h => ?_) (fun {stages s} n b h => ?_) b ?_
    · have hkeeps := Eval.preserves_iff_keeps.1 (read_preserves hread hlater (some i))
      exact (hkeeps ⟨s.log, stages⟩ h).mono (fun _ _ h => h) fun _ _ h => h
    · cases hn : visit n b s with
      | error e u =>
        have hlog : s.log = u.log := (hv n b).error hn
        show (k.beyond later).Stopped u.log
        exact hlog ▸ Invariant.stopped_of_running _ h
      | ok b' u =>
        have hlog : s.log = u.log := (hv n b).ok hn
        show (k.beyond later).Running u.log stages
        exact hlog ▸ h
    · rw [List.map_append]
      exact Invariant.running_initial hs later
  rw [Eval.after]
  cases h : each nodes (later ++ earlier) enough visit b s with
  | error e t => rwa [h] at hwalk
  | ok b' t =>
    rw [h] at hwalk
    exact Invariant.stopped_of_running _ hwalk.choose_spec

end Candidates

end XPath
