/-
Contexts of predicates are coherent.

A predicate at any place of an expression is watched while the expression is evaluated.  Of each
list of candidates that gets to the place, it judges one after the other, from the first one on and
without gaps.  The position of a candidate is its position in that list, and the size is the number
of candidates, whether it is asked for at the first one, at the last one, several times or never.

* `Slot.Feeds` — the lists of candidates that get to a place;
* `Slot.Judged`, `Slot.JudgedBy` — the log has grown by what has been judged of such lists;
* `Path.Tells`, `Path.selectFrom_tells` — paths along which one step logs something;
* `Slot.judgedBy_select` — what is logged while a path is followed;
* `contexts_coherent` — what is logged while an expression is evaluated.
-/
import XPath.Proofs.Evaluation.Frames
import XPath.Proofs.Evaluation.JudgementLog
import XPath.Tree.Sample

namespace XPath

/-! ### Lists that get to a place -/

namespace Slot

/-- The lists of candidates that get to a place, which may break off: what the predicates before it
leave of the nodes that the step leads to from some node, or of a value that is filtered. -/
inductive Feeds (i : Interpretation) : Slot → Supply → Prop
  | step {start before axis test earlier later after stride} (n : Node)
      (h : Stride.ofStep i.setting (Expr.stepMeaning i ⟨axis, test, earlier⟩) = .ok stride) :
      Feeds i (.step start before axis test earlier later after)
        (Supply.of (stride.candidates n) stride.predicates)
  | filter {primary earlier later steps nodes c s t}
      (h : (primary.meaning i).value c s = .ok (.nodeSet nodes) t) :
      Feeds i (.filter primary earlier later steps)
        (Supply.of (nodes.sorted i.setting.view).nodes (Expr.filters i earlier))

/-- The log has grown by runs of a predicate on lists that get to the place. -/
def Judged (i : Interpretation) (line : Node → Nat → Option Nat → String) (slot : Slot)
    (log log' : List String) : Prop :=
  ∃ runs : List Run, (∀ r ∈ runs, slot.Feeds i r.supply) ∧
    log' = (runs.flatMap (·.lines line)).reverse ++ log

/-- The log has grown by such runs, each with a property. -/
def JudgedBy (i : Interpretation) (line : Node → Nat → Option Nat → String) (P : Run → Prop)
    (slot : Slot) (log log' : List String) : Prop :=
  ∃ runs : List Run, (∀ r ∈ runs, slot.Feeds i r.supply ∧ P r) ∧
    log' = (runs.flatMap (·.lines line)).reverse ++ log

variable {i : Interpretation} {line : Node → Nat → Option Nat → String} {P : Run → Prop}
  {slot : Slot}

theorem JudgedBy.mono {Q : Run → Prop} (hPQ : ∀ r, P r → Q r) {log log' : List String}
    (h : slot.JudgedBy i line P log log') : slot.JudgedBy i line Q log log' := by
  obtain ⟨runs, hruns, hlog⟩ := h
  exact ⟨runs, fun r hr => (hruns r hr).imp_right (hPQ r), hlog⟩

theorem JudgedBy.judged {log log' : List String} (h : slot.JudgedBy i line P log log') :
    slot.Judged i line log log' := by
  obtain ⟨runs, hruns, hlog⟩ := h
  exact ⟨runs, fun r hr => (hruns r hr).1, hlog⟩

theorem course_judgedBy : Eval.Course fun s t => slot.JudgedBy i line P s.log t.log where
  refl _ := ⟨[], by simp, rfl⟩
  trans := by
    rintro s t u ⟨runs, hruns, ht⟩ ⟨more, hmore, hu⟩
    refine ⟨runs ++ more, fun r hr => (List.mem_append.1 hr).elim (hruns r) (hmore r), ?_⟩
    rw [hu, ht, List.flatMap_append, List.reverse_append, List.append_assoc]

theorem judgedBy_of_loggedBy {S : Supply} {p : Predicate} (hS : slot.Feeds i S)
    {log log' : List String} (h : S.LoggedBy line p log log') :
    slot.JudgedBy i line (·.Stops p) log log' := by
  obtain ⟨r, rfl, hstops, rfl⟩ := h
  exact ⟨[r], by simpa using ⟨hS, hstops⟩, by simp⟩

end Slot

/-! ### Steps that log something -/

/-- Visits that log nothing of what quiet predicates keep. -/
theorem Candidates.quiet_each {ps : List Predicate} (hp : ∀ p ∈ ps, p.Logs Eq) {β : Type}
    {enough : β → Bool} {visit : Node → β → Eval β} (hv : ∀ n b, (visit n b).Quiet)
    (nodes : List Node) (b : β) : (each nodes ps enough visit b).Quiet :=
  eachFrom_along Eval.course_quiet nodes (reads_logs Eval.course_quiet hp) enough hv _ _ _ b

/-- A step leads along a relation between logs if what is visited logs nothing. -/
def Stride.Tells (R : List String → List String → Prop) (stride : Stride) : Prop :=
  ∀ n enough (visit : Node → Path.Progress → Eval Path.Progress) p, (∀ m p, (visit m p).Quiet) →
    (Candidates.each (stride.candidates n) stride.predicates enough visit p).Logs R

/-- A step that is ready and logs nothing. -/
def Stride.Quiet (stride : Stride) : Prop := ∀ p ∈ stride.predicates, p.Logs Eq

/-- A step whose predicates log nothing. -/
def Step.Quiet (step : Step Meaning) : Prop := ∀ m ∈ step.predicates, m.predicate.Logs Eq

theorem Step.Quiet.ready {σ : Setting} {step : Step Meaning} (h : step.Quiet) {stride : Stride}
    (hready : Stride.ofStep σ step = .ok stride) : stride.Quiet := by
  rw [Stride.Quiet, Stride.predicates_ofStep hready]
  exact Meaning.forall_reverse h

namespace Path

/-- Steps of which at most one logs something. -/
inductive Tells (R : List String → List String → Prop) : List Stride → Prop
  | quiet {strides : List Stride} (h : ∀ s ∈ strides, s.Quiet) : Tells R strides
  | here {stride : Stride} {rest : List Stride} (h : stride.Tells R) (hrest : ∀ s ∈ rest, s.Quiet) :
      Tells R (stride :: rest)
  | further {stride : Stride} {rest : List Stride} (h : stride.Quiet) (hrest : Tells R rest) :
      Tells R (stride :: rest)

variable {R : List String → List String → Prop} {strides : List Stride} {stride : Stride}

theorem Tells.append_quiet (h : Tells R strides) (hstride : stride.Quiet) :
    Tells R (strides ++ [stride]) := by
  have hquiet : ∀ {ss : List Stride}, (∀ s ∈ ss, s.Quiet) → ∀ s ∈ ss ++ [stride], s.Quiet :=
    fun h => by simpa [or_imp, forall_and] using ⟨h, hstride⟩
  induction h with
  | quiet h => exact .quiet (hquiet h)
  | here h hrest => exact .here h (hquiet hrest)
  | further h _ ih => exact .further h ih

theorem tells_append (h : ∀ s ∈ strides, s.Quiet) (hstride : stride.Tells R) :
    Tells R (strides ++ [stride]) := by
  induction strides with
  | nil => exact .here hstride (by simp)
  | cons first rest ih => exact .further (h first (by simp)) (ih fun s hs => h s (by simp [hs]))

variable (hR : Eval.Course fun s t => R s.log t.log)

include hR

theorem logs_of_quiet {α : Type} {x : Eval α} (h : x.Quiet) : x.Logs R := by
  intro s
  have hs : s.log = (x.after s).log := h s
  rw [← hs]
  exact hR.refl s

theorem reads_of_quiet {ps : List Predicate} (h : ∀ p ∈ ps, p.Logs Eq) :
    Candidates.Reads (fun s t => R s.log t.log) ps := fun nodes i stages =>
  logs_of_quiet hR (Candidates.reads_logs Eval.course_quiet h nodes i stages)

theorem follow_tells (once : Bool) (h : Tells R strides) (n : Node) (p : Progress) :
    (follow once strides n p).Logs R := by
  have hquiet : ∀ {ss : List Stride}, (∀ s ∈ ss, s.Quiet) → ∀ n p, (follow once ss n p).Quiet :=
    fun h => follow_along Eval.course_quiet once fun s hs =>
      Candidates.reads_logs Eval.course_quiet (h s hs)
  induction h generalizing n p with
  | quiet h => exact logs_of_quiet hR (hquiet h n p)
  | here h hrest =>
    rw [follow]
    refine h _ _ _ _ fun m p => ?_
    split
    · exact Eval.course_quiet.pure p
    · exact hquiet hrest m _
  | further h _ ih =>
    rw [follow]
    refine Candidates.eachFrom_along hR _ (reads_of_quiet hR h) _ (fun m p => ?_) _ _ _ _
    split
    · exact hR.pure p
    · exact ih m _

/-- The nodes that a path starts with are visited like those of a step. -/
theorem collect_tells (once : Bool) {nodes : List Node} {ps : List Predicate}
    (h : Tells R (⟨fun _ => nodes, ps⟩ :: strides)) : (collect once nodes ps strides).Logs R := by
  refine hR.bind ?_ (Eval.ensures_true _) fun _ _ => hR.pure _
  cases h with
  | quiet h =>
    obtain ⟨hps, hs⟩ := List.forall_mem_cons.1 h
    exact Candidates.eachFrom_along hR _ (reads_of_quiet hR hps) _
      (fun n p => follow_tells hR once (.quiet hs) n p) _ _ _ _
  | here h hrest =>
    exact h ⟨0, 0⟩ _ _ _ fun n p => follow_along Eval.course_quiet once
      (fun s hs => Candidates.reads_logs Eval.course_quiet (hrest s hs)) n p
  | further h hrest =>
    exact Candidates.eachFrom_along hR _ (reads_of_quiet hR h) _
      (fun n p => follow_tells hR once hrest n p) _ _ _ _

variable {σ : Setting} {once : Bool} {nodes : List Node} {ps : List Predicate}
  {step : Step Meaning} {rest : List (Step Meaning)}

/-- One more step is made ready, and the steps are followed or the next one is made ready. -/
theorem selectFrom_cons (hcollect : ∀ stride, Stride.ofStep σ step = .ok stride →
      (collect false nodes ps (strides ++ [stride])).Logs R)
    (hsorted : ∀ found, (selectFrom σ once found [] [] rest).Logs R)
    (hrest : ∀ stride, Stride.ofStep σ step = .ok stride →
      (selectFrom σ once nodes ps (strides ++ [stride]) rest).Logs R) :
    (selectFrom σ once nodes ps strides (step :: rest)).Logs R := by
  rw [selectFrom]
  cases hstep : Stride.ofStep σ step with
  | error e => exact fun s => hR.refl s
  | ok stride =>
    rw [Eval.ofExcept, pure_bind]
    split
    · exact hR.bind (hcollect stride hstep) (Eval.ensures_true _) fun found _ => hsorted _
    · exact hrest stride hstep

/-- Steps that log nothing, after others that are ready. -/
theorem selectFrom_tells (h : Tells R (⟨fun _ => nodes, ps⟩ :: strides))
    (hrest : ∀ s ∈ rest, Step.Quiet s) :
    (selectFrom σ once nodes ps strides rest).Logs R := by
  induction rest generalizing nodes ps strides with
  | nil => exact collect_tells hR once h
  | cons step rest ih =>
    obtain ⟨hstep, hmore⟩ := List.forall_mem_cons.1 hrest
    have hready : ∀ stride, Stride.ofStep σ step = .ok stride →
        Tells R (⟨fun _ => nodes, ps⟩ :: (strides ++ [stride])) :=
      fun stride h' => h.append_quiet (hstep.ready h')
    exact selectFrom_cons hR (fun stride h => collect_tells hR false (hready stride h))
      (fun found => ih (.quiet (by simp [Stride.Quiet])) hmore)
      fun stride h => ih (hready stride h) hmore

/-- A step that logs something, among others that do not. -/
theorem selectFrom_among (hps : ∀ p ∈ ps, p.Logs Eq) (hstrides : ∀ s ∈ strides, s.Quiet)
    {before : List (Step Meaning)}
    (hbefore : ∀ s ∈ before, Step.Quiet s)
    (hstep : ∀ stride, Stride.ofStep σ step = .ok stride → stride.Tells R)
    (hrest : ∀ s ∈ rest, Step.Quiet s) :
    (selectFrom σ once nodes ps strides (before ++ step :: rest)).Logs R := by
  induction before generalizing nodes ps strides with
  | nil =>
    have hready : ∀ stride, Stride.ofStep σ step = .ok stride →
        Tells R (⟨fun _ => nodes, ps⟩ :: (strides ++ [stride])) := fun stride h => by
      have hquiet : ∀ s ∈ (⟨fun _ => nodes, ps⟩ : Stride) :: strides, s.Quiet :=
        List.forall_mem_cons.2 ⟨hps, hstrides⟩
      exact tells_append hquiet (hstep stride h)
    exact selectFrom_cons hR (fun stride h => collect_tells hR false (hready stride h))
      (fun found => selectFrom_tells hR (.quiet (by simp [Stride.Quiet])) hrest)
      fun stride h => selectFrom_tells hR (hready stride h) hrest
  | cons first before ih =>
    obtain ⟨hfirst, hmore⟩ := List.forall_mem_cons.1 hbefore
    have hready : ∀ stride, Stride.ofStep σ first = .ok stride →
        ∀ s ∈ strides ++ [stride], s.Quiet := fun stride h => by
      simpa [or_imp, forall_and] using ⟨hstrides, hfirst.ready h⟩
    exact selectFrom_cons hR
      (fun stride h => collect_tells hR false
        (.quiet (List.forall_mem_cons.2 ⟨hps, hready stride h⟩)))
      (fun found => ih (by simp) (by simp) hmore)
      fun stride h => ih hps (hready stride h) hmore

end Path

/-! ### Predicates of expressions -/

section Core

variable {σ : Setting}

/-- Predicates of expressions preserve all invariants. -/
theorem Expr.judges_filters (es : List Expr) :
    ∀ p ∈ filters (.standard Registry.core.library σ) es, Habit.preserving.Judges p :=
  Habit.judges σ Habit.collects_preserving Habit.libraries_core es

theorem Expr.quiet_filters (es : List Expr) :
    ∀ p ∈ filters (.standard Registry.core.library σ) es, p.Logs Eq :=
  fun p hp => Habit.quiet_of_preserving (judges_filters es p hp)

theorem Expr.quiet_stepMeanings (steps : List (Step Expr)) :
    ∀ s ∈ stepMeanings (.standard Registry.core.library σ) steps, s.Quiet :=
  Accord.forall_mem_left (Accord.steps_stepMeanings
      (Habit.interpretations (σ := σ) Habit.collects_preserving Habit.libraries_core) steps)
    fun _ _ hs m hm => Habit.quiet_of_preserving (Habit.judges_meanings hs.predicates m hm)

variable {line : Node → Nat → Option Nat → String} {earlier later : List Expr} {β : Type}
  {enough : β → Bool} {visit : Node → β → Eval β} (hv : ∀ n b, (visit n b).Quiet)

include hv

/-- The predicates of one step, of which one is watched: of the candidates that those before it
leave, it judges one after the other. -/
theorem Expr.logged_each (e : Expr) (nodes : List Node) (b : β) (s : State) :
    let i := Interpretation.standard Registry.core.library σ
    (Supply.of nodes (filters i earlier)).LoggedBy line (e.meaning i).predicate s.log
      ((Candidates.each nodes
        (filters i later ++ ((e.meaning i).watched line).predicate :: filters i earlier)
        enough visit b).after s).log := by
  intro i
  have hjudges : Habit.preserving.Judges (e.meaning i).predicate :=
    judges_filters (σ := σ) [e] _ (by simp [filters, meanings, i])
  have hsteady : ∀ es, ∀ p ∈ filters i es, p.Steady := fun es =>
    Meaning.forall_reverse (steady_predicates (Registry.steady_core σ) es)
  have hpredicate : (e.meaning i).predicate.Steady :=
    hsteady [e] _ (by simp [filters, meanings])
  rw [Meaning.watched]
  dsimp only
  cases hp : (e.meaning i).predicate with
  | position x =>
    -- A number literal is not evaluated.
    have hquiet : ∀ p ∈ filters i later ++ Predicate.position x :: filters i earlier,
        p.Logs Eq := by
      simpa [or_imp, forall_and] using ⟨quiet_filters later, trivial, quiet_filters earlier⟩
    exact ⟨⟨_, [], Supply.coherent_nil _⟩, rfl, fun _ hj => absurd hj List.not_mem_nil,
      (Candidates.quiet_each hquiet hv nodes b s).symm⟩
  | test judge =>
    rw [hp] at hjudges hpredicate
    exact Candidates.each_watched (judges_filters earlier) (hsteady earlier) hjudges hpredicate
      (judges_filters later) hv b s

end Core

/-! ### Paths with a place -/

namespace Slot

variable {σ : Setting} {line : Node → Nat → Option Nat → String}

/-- A step with a watched predicate logs what that judges of the lists that get to its place. -/
theorem tells_step (e : Expr) {start : Start Expr} {before after : List (Step Expr)} {axis : Axis}
    {test : NodeTest} {earlier later : List Expr} {stride : Stride} :
    let i := Interpretation.standard Registry.core.library σ
    Stride.ofStep σ ⟨axis, test, Expr.meanings i earlier ++ (e.meaning i).watched line ::
      Expr.meanings i later⟩ = .ok stride →
    stride.Tells ((step start before axis test earlier later after).JudgedBy i line
      (·.Stops (e.meaning i).predicate)) := by
  intro i h n enough visit p hv s
  rw [Stride.ofStep_eq] at h
  cases hbase : Stride.ofStep σ ⟨axis, test, []⟩ with
  | error err =>
    rw [hbase] at h
    cases h
  | ok base =>
    rw [hbase] at h
    cases h
    have hready : Stride.ofStep i.setting (Expr.stepMeaning i ⟨axis, test, earlier⟩) =
        .ok { base with predicates := Expr.filters i earlier } := by
      show Stride.ofStep σ _ = _
      rw [Expr.stepMeaning, Stride.ofStep_eq, hbase]
      rfl
    dsimp only
    rw [Expr.filters_among]
    exact judgedBy_of_loggedBy (.step n hready) (Expr.logged_each hv e (base.candidates n) p s)

/-- While a path is followed, a watched predicate logs what it judges of the lists that get to its
place. -/
theorem judgedBy_select (slot : Slot) (e : Expr) (once : Bool) {c : Context} :
    let i := Interpretation.standard Registry.core.library σ
    let m := (e.meaning i).watched line
    let R := slot.JudgedBy i line (·.Stops (e.meaning i).predicate)
    c.size.Logs R → (Path.select σ once (slot.start i m) (slot.steps i m) c).Logs R := by
  intro i m R hc
  have hR : Eval.Course fun s t => R s.log t.log := course_judgedBy
  cases slot with
  | step start before axis test earlier later after =>
    have hstart := Accord.starts_startMeaning (Habit.interpretations (σ := σ)
      (Habit.collects_logging hR) Habit.libraries_core) start
    have hquiet := Habit.ensures_startNodes (Accord.starts_startMeaning (Habit.interpretations
      (σ := σ) Habit.collects_preserving Habit.libraries_core) start) c
    refine hR.bind (Habit.has_startNodes (k := ()) hstart hc) hquiet fun r hr => ?_
    exact Path.selectFrom_among hR (fun p hp => Habit.quiet_of_preserving (hr p hp)) (by simp)
      (Expr.quiet_stepMeanings before) (fun stride h => tells_step e h)
      (Expr.quiet_stepMeanings after)
  | filter primary earlier later steps =>
    have hvalue := (Habit.meaning σ (k := ()) (Habit.collects_logging hR) Habit.libraries_core
      primary hc).1
    have hgives : ((primary.meaning i).value c).Ensures fun v =>
        ∃ s t, (primary.meaning i).value c s = .ok v t := fun s v t h => ⟨s, t, h⟩
    show Eval.Logs _ (Path.startNodes σ c (.filter (primary.meaning i) _) >>= _)
    rw [Path.startNodes, bind_assoc]
    refine hR.bind hvalue hgives fun v hv => ?_
    cases v with
    | nodeSet nodes =>
      obtain ⟨s, t, hnodes⟩ := hv
      dsimp only
      rw [pure_bind, Expr.filters_among]
      refine Path.selectFrom_tells hR (.here (fun _ enough visit p hv s => ?_) (by simp))
        (Expr.quiet_stepMeanings steps)
      exact judgedBy_of_loggedBy (.filter hnodes) (Expr.logged_each hv e _ p s)
    | string s => exact fun s => hR.refl s
    | number x => exact fun s => hR.refl s
    | boolean b => exact fun s => hR.refl s

/-- The same while a path is a part of an expression at any depth. -/
theorem judgedBy_frame (frame : Frame) (slot : Slot) (e : Expr) {c : Context} :
    let i := Interpretation.standard Registry.core.library σ
    let m := frame.meaning i (slot.meaning i ((e.meaning i).watched line))
    let R := slot.JudgedBy i line (·.Stops (e.meaning i).predicate)
    c.size.Logs R → (m.value c).Logs R ∧ (m.truth c).Logs R := by
  intro i m R hc
  have hR : Eval.Course fun s t => R s.log t.log := course_judgedBy
  have hslot : ((Habit.logging hR).accord σ).Meanings
      (slot.meaning i ((e.meaning i).watched line)) (slot.meaning i ((e.meaning i).watched line)) :=
    Accord.meanings_ofTruth
      (fun hc => by
        cases Habit.contexts_eq hc
        exact Accord.map (Habit.plain (judgedBy_select slot e false hc.size.2)) fun _ _ => trivial)
      fun hc => by
        cases Habit.contexts_eq hc
        exact Accord.map (Habit.plain (judgedBy_select slot e true hc.size.2)) fun _ _ => trivial
  have hframe := Accord.meanings_frame (Habit.interpretations (σ := σ)
    (Habit.collects_logging hR) Habit.libraries_core) hslot frame
  exact ⟨(hframe.value (Habit.contexts (k := ()) hc)).1,
    (hframe.truth (Habit.contexts (k := ()) hc)).1⟩

/-- To look at the contexts changes nothing but the log. -/
theorem echoing_watched (slot : Slot) (e : Expr) :
    let i := Interpretation.standard Registry.core.library σ
    (Accord.echoing σ).Meanings (slot.meaning i ((e.meaning i).watched line))
      ((slot.path e).meaning i) := by
  intro i
  have h := Accord.interpretations_echoing σ
  rw [meaning_path]
  exact Accord.meanings_slot h (Accord.meanings_watched (Accord.meanings_meaning h e)) slot

end Slot

/-- With the core functions, whatever predicate stands at whatever place of an expression, and
whatever asks for its size and when: of each list of candidates that gets to the place it judges one
after the other, from the first one on and without gaps, with the position in the list as the
position.  The size is the number of nodes in the list, before each judgement and each time that it
is asked for, and it cannot be had only if the list breaks off.  To look at the contexts changes
nothing but the log.  A single walk over what the predicates of a step keep makes a single run of
judgements, so no candidate of a list is judged twice. -/
theorem contexts_coherent (σ : Setting) (line : Node → Nat → Option Nat → String) (frame : Frame)
    (slot : Slot) (e : Expr) {c : Context} (hc : c.size.Silent) (s : State) :
    let i := Interpretation.standard Registry.core.library σ
    let watched := (e.meaning i).watched line
    let seen := frame.meaning i (slot.meaning i watched)
    let plain := (frame.put (slot.path e)).meaning i
    (slot.Judged i line s.log ((seen.value c).after s).log ∧
      slot.Judged i line s.log ((seen.truth c).after s).log) ∧
    ((seen.value c).Echoes (plain.value c) ∧ (seen.truth c).Echoes (plain.truth c)) ∧
    ∀ (nodes : List Node) (earlier later : List Expr) {β : Type} (enough : β → Bool)
      (visit : Node → β → Eval β) (b : β), (∀ n b, (visit n b).Quiet) →
      (Supply.of nodes (Expr.filters i earlier)).Logged line s.log
        ((Candidates.each nodes
          (Expr.filters i later ++ watched.predicate :: Expr.filters i earlier)
          enough visit b).after s).log := by
  intro i watched seen plain
  obtain ⟨hvalue, htruth⟩ := Slot.judgedBy_frame frame slot e
    (Path.logs_of_quiet Slot.course_judgedBy hc.quiet)
  have hechoes : (Accord.echoing σ).Meanings seen plain := by
    rw [show plain = frame.meaning i ((slot.path e).meaning i) from Frame.meaning_put i frame _]
    exact Accord.meanings_frame (Accord.interpretations_echoing σ) (Slot.echoing_watched slot e)
      frame
  have hcontexts : (Accord.echoing σ).Contexts () c c := ⟨rfl, trivial, rfl, hc.echoes⟩
  exact ⟨⟨(hvalue s).judged, (htruth s).judged⟩,
    ⟨(hechoes.value hcontexts).1, (hechoes.truth hcontexts).1⟩,
    fun nodes earlier later _ enough visit b hv => (Expr.logged_each hv e nodes b s).logged⟩

/-- The path `child::*[child::text()]` with a place for another predicate at its end. -/
def Slot.worded : Slot :=
  .step .context [] .child .wildcard [.path .context [⟨.child, .nodeType .text, []⟩]] [] []

/-- A position and a size, such as `1/2`. -/
def Context.fraction (_ : Node) (position : Nat) (size? : Option Nat) : String :=
  toString position ++ "/" ++ size?.elim "?" toString

/-- Two of the three children of the sample's document have a text.  As an operand of `or` the path
is only followed to the first of them, and the size is two nevertheless. -/
theorem contexts_coherent_sample :
    let i := Interpretation.standard Registry.core.library (.ofTree .sample)
    let watched := ((Expr.call ⟨none, "true"⟩ []).meaning i).watched Context.fraction
    let path := Slot.worded.meaning i watched
    let seen := (Frame.left .or .whole (.call ⟨none, "false"⟩ [])).meaning i path
    (Context.alone ⟨0, 0⟩).size.Silent ∧
    Slot.worded.Judged i Context.fraction []
      ((seen.value (.alone ⟨0, 0⟩)).after .start).log ∧
    ((seen.value (.alone ⟨0, 0⟩)).after .start).log = ["1/2"] ∧
    ((path.value (.alone ⟨0, 0⟩)).after .start).log = ["2/2", "1/2"] := by
  intro i watched path seen
  have hsize : (Context.alone ⟨0, 0⟩).size.Silent :=
    ⟨Eval.course_quiet.pure 1, Eval.agreesUnless_pure 1⟩
  have h := contexts_coherent (.ofTree .sample) Context.fraction
    (.left .or .whole (.call ⟨none, "false"⟩ [])) .worded (.call ⟨none, "true"⟩ []) hsize .start
  exact ⟨hsize, h.1.1, by cbv, by cbv⟩

end XPath
