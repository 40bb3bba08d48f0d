/-
What becomes of the log.

Only functions log anything.  So if a relation between logs can be put together and all functions
lead along it, then whatever an expression does leads along it, also if it fails.  With equality for
the relation: if no function logs anything, nothing is logged at all.

* `Eval.Logs`, `Predicate.Logs` — actions and predicates that lead along a relation between logs;
* `Candidates.logs_read`, `Path.logs_collect` — reads and paths whose predicates do;
* `Habit.logging` — leading along such a relation, as a habit;
* `Eval.course_quiet` — leaving the log alone.
-/
import XPath.Proofs.Evaluation.Habit
import XPath.Proofs.Evaluation.Rules

namespace XPath

variable {R : List String → List String → Prop}

/-- An action that relates the log before it to the log after it. -/
abbrev Eval.Logs {α : Type} (R : List String → List String → Prop) (x : Eval α) : Prop :=
  x.Along fun s t => R s.log t.log

/-- A predicate whose judgement relates the logs before and after it, as counting does. -/
def Predicate.Logs (R : List String → List String → Prop) : Predicate → Prop
  | .position _ => True
  | .test judge => ∀ c : Context, c.size.Logs R → (judge c).Logs R

theorem Eval.logs_within {α : Type} {x : Eval α} (hx : x.Logs R) (stages : List Stage) :
    Logs R (Stage.within stages x) := by
  intro s
  rw [after, Stage.within_apply]
  cases h : x ⟨s.log, stages⟩ with
  | error e t =>
    have ht : R (State.log ⟨s.log, stages⟩) t.log := hx.error h
    exact ht
  | ok a t =>
    have ht : R (State.log ⟨s.log, stages⟩) t.log := hx.ok h
    exact ht

theorem Stage.log_noting (f : Sequence → Sequence) (s : State) : (noting f s).log = s.log := by
  obtain ⟨log, _ | _⟩ := s <;> rfl

/-- A state to which the log has led from a given one. -/
def State.LoggedFrom (R : List String → List String → Prop) (log : List String) (s : State) :
    Prop :=
  R log s.log

variable (hR : Eval.Course fun s t => R s.log t.log)

include hR

theorem Eval.logs_iff_keeps {α : Type} {x : Eval α} :
    x.Logs R ↔ ∀ log, x.Keeps (State.LoggedFrom R log) fun _ => State.LoggedFrom R log := by
  constructor
  · intro h log s hs
    have htrans : ∀ {t : State}, R s.log t.log → R log t.log := hR.trans (s := ⟨log, []⟩) hs
    cases hx : x s with
    | ok a t => exact htrans (h.ok hx)
    | error e t => exact htrans (h.error hx)
  · intro h s
    have hs := h s.log s (hR.refl s)
    rw [after]
    cases hx : x s with
    | ok a t => rwa [hx] at hs
    | error e t => rwa [hx] at hs

/-! ### Candidates -/

/-- Counting the candidates does to the log what reading them does. -/
theorem Predicate.logs_size {source : Option Nat → Eval (List Node)}
    (hread : ∀ stop, (source stop).Logs R) : (size source).Logs R :=
  hR.bind (hread none) (Eval.ensures_true _) fun _ _ => hR.pure _

theorem Predicate.Logs.keeps {p : Predicate} (hp : p.Logs R) {size : Eval Nat} (hsize : size.Logs R)
    (log : List String) :
    p.Keeps (State.LoggedFrom R log) (fun _ => State.LoggedFrom R log) size := by
  cases p with
  | position x => trivial
  | test judge => exact fun n position => (Eval.logs_iff_keeps hR).1 (hp _ hsize) log

theorem Candidates.logs_read (nodes : List Node) {predicates : List Predicate}
    (h : ∀ p ∈ predicates, p.Logs R) (stop : Option Nat) :
    (read nodes predicates stop).Logs R := by
  induction predicates generalizing stop with
  | nil => exact hR.pure _
  | cons p earlier ih =>
    -- The last predicate reads what the others keep.
    have hsource := fun stop => ih (fun q hq => h q (List.mem_cons_of_mem p hq)) stop
    have hkeeps := (h p List.mem_cons_self).keeps hR (Predicate.logs_size hR hsource)
    refine (Eval.logs_iff_keeps hR).2 fun log => read_cons_keeps (Stage.fill_keeps ?_ ?_ _)
    · exact fun s hs _ _ => hs
    · intro log' stage rest hlog _ _
      have hlog : State.LoggedFrom R log ⟨log', rest⟩ := hlog
      refine (Predicate.pull_keeps (fun stop => (Eval.logs_iff_keeps hR).1 (hsource stop) log)
        (hkeeps log) _ hlog).mono (fun answer t h => ?_) fun e t h => ?_
      · cases h with
        | reached _ h => exact h
        | hushed _ h => exact h
      · cases h with
        | intro _ h => exact h

/-- Reads do to the log what predicates do. -/
theorem Candidates.reads_logs {predicates : List Predicate} (h : ∀ p ∈ predicates, p.Logs R) :
    Reads (fun s t => R s.log t.log) predicates :=
  fun nodes i stages => Eval.logs_within (logs_read hR nodes h (some i)) stages

/-! ### Paths -/

theorem Path.logs_collect (once : Bool) (nodes : List Node) {predicates : List Predicate}
    (hp : ∀ p ∈ predicates, p.Logs R) {strides : List Stride}
    (h : ∀ s ∈ strides, ∀ p ∈ s.predicates, p.Logs R) :
    (collect once nodes predicates strides).Logs R :=
  hR.bind
    (Candidates.eachFrom_along hR _ (Candidates.reads_logs hR hp) _
      (follow_along hR once fun s hs => Candidates.reads_logs hR (h s hs)) _ _ _ _)
    (Eval.ensures_true _) fun _ _ => hR.pure _

/-! ### Expressions -/

namespace Habit

/-- Leading along a relation between logs is a habit. -/
def logging : Habit Unit where
  Has _ _ x := x.Logs R
  pure := hR.pure
  throw _ := fun s => hR.refl s
  bind := hR.bind

theorem judges_logging {p : Predicate} : (logging hR).Judges p ↔ p.Logs R := by
  cases p with
  | position x => rfl
  | test judge => exact ⟨fun h => h (), fun h _ => h⟩

theorem collects_logging : (logging hR).Collects := fun _ once nodes _ _ hp hs =>
  Path.logs_collect hR once nodes (fun p h => (judges_logging hR).1 (hp p h))
    fun s hm p h => (judges_logging hR).1 (hs s hm p h)

end Habit

omit hR

/-- An action that leaves the log alone. -/
abbrev Eval.Quiet {α : Type} (x : Eval α) : Prop := x.Logs Eq

theorem Eval.course_quiet : Course fun s t => s.log = t.log := ⟨fun _ => rfl, Eq.trans⟩

end XPath
