/-
Stages that do the same on two sides.

Two runs are compared that start from related logs and among related stages.  If what is asked for
before a stage ends alike, and if judgements do, then asking the stage ends alike, and so do reads
of it, visits of what it keeps, and paths.

The lists of candidates need not be the same.  With more candidates a read is allowed more rounds,
but if no more than so many nodes are found before a stage, it does not need more rounds than that.

* `Stage.Related`, `Eval.Concurs` — states with related logs and stages, and actions that end alike;
* `Predicate.Concurs`, `Predicate.Impartial` — predicates that do, and predicates that do with
  themselves whatever the stages are;
* `Stage.TakesAtMost`, `Stage.roundsLeft` — a stage with few candidates, and how often it may be
  asked;
* `Predicate.pull_concurs`, `Stage.fill_concurs` — asking a stage once, and until it can answer;
* `Candidates.read_concurs`, `Candidates.concur_append` — reads of what predicates keep;
* `Candidates.VisitedAlike` — candidates whose visits end alike;
* `Path.collect_concurs`, `Path.selectFrom_concurs` — following steps, and paths.
-/
import XPath.Proofs.Evaluation.PartialAgreement

namespace XPath

/-! ### Actions -/

/-- States whose logs are related, and whose stages are. -/
def Stage.Related (R : List String → List String → Prop) (T : List Stage → List Stage → Prop)
    (s t : State) : Prop :=
  R s.log t.log ∧ T s.stages t.stages

variable {R : List String → List String → Prop} {T : List Stage → List Stage → Prop}

/-- Actions that end alike from related states. -/
abbrev Eval.Concurs {α : Type} (R : List String → List String → Prop)
    (T : List Stage → List Stage → Prop) (x y : Eval α) : Prop :=
  x.AgreesUnless (fun _ => False) (Stage.Related R T) y

/-- Contexts of the same node and position, whose sizes end alike. -/
structure Context.Concurs (R : List String → List String → Prop)
    (T : List Stage → List Stage → Prop) (c d : Context) : Prop where
  node : c.node = d.node
  position : c.position = d.position
  size : c.size.Concurs R T d.size

/-- The same number literal, or judgements that end alike. -/
inductive Predicate.Concurs (R : List String → List String → Prop)
    (T : List Stage → List Stage → Prop) : Predicate → Predicate → Prop
  | position (x : Float) : Concurs R T (.position x) (.position x)
  | test {judge judge' : Context → Eval Verdict}
      (h : ∀ c d : Context, c.Concurs R T d → (judge c).Concurs R T (judge' d)) :
      Concurs R T (.test judge) (.test judge')

theorem Predicate.Concurs.initial {p p' : Predicate} (h : p.Concurs R T p') :
    Stage.initial p = Stage.initial p' := by
  cases h <;> rfl

/-- A predicate that ends alike whatever the stages around it are, and leaves them as they are
related. -/
def Predicate.Impartial (R : List String → List String → Prop) (p : Predicate) : Prop :=
  ∀ T, p.Concurs R T p

/-- No more nodes than a bound says, if there is one. -/
def Candidates.Within (bound? : Option Nat) (found : List Node) : Prop :=
  ∀ b ∈ bound?, found.length ≤ b

/-- Reads and judgements that end alike.  No more nodes are found than a bound says. -/
def Contract.concurring (R : List String → List String → Prop)
    (T : List Stage → List Stage → Prop) (bound? : Option Nat) : Contract where
  lost _ := False
  before := Stage.Related R T
  found _ nodes s t := Candidates.Within bound? nodes ∧ Stage.Related R T s t
  failed _ _ := Stage.Related R T
  judged nodes _ _ s t := Candidates.Within bound? nodes ∧ Stage.Related R T s t
  refused nodes _ _ s t := Candidates.Within bound? nodes ∧ Stage.Related R T s t

/-- Sources that end alike, and find no more nodes than a bound says. -/
def Candidates.Concur (R : List String → List String → Prop) (T : List Stage → List Stage → Prop)
    (bound? : Option Nat) (source source' : Option Nat → Eval (List Node)) : Prop :=
  (Contract.concurring R T bound?).Reads source source'

theorem Candidates.Concur.concurs {bound? : Option Nat}
    {source source' : Option Nat → Eval (List Node)} (h : Concur R T bound? source source')
    (stop : Option Nat) : (source stop).Concurs R T (source' stop) := fun s t hst =>
  (h stop s t hst).mono (fun _ _ _ h => h.2) fun _ _ _ h => h

theorem Candidates.concur_of_concurs {source source' : Option Nat → Eval (List Node)}
    (h : ∀ stop, (source stop).Concurs R T (source' stop)) :
    Concur R T none source source' := fun stop s t hst =>
  (h stop s t hst).mono (fun _ _ _ h => ⟨fun _ hb => (by cases hb), h⟩) fun _ _ _ h => h

namespace Stage

/-- The same stage on both sides, before related ones. -/
inductive SameNearest (P : Stage → Prop) (T : List Stage → List Stage → Prop) :
    List Stage → List Stage → Prop
  | intro {stage : Stage} {rest rest' : List Stage} (hstage : P stage) (hT : T rest rest') :
      SameNearest P T (stage :: rest) (stage :: rest')

theorem SameNearest.mono {P Q : Stage → Prop} {stages stages' : List Stage}
    (h : SameNearest P T stages stages') (hPQ : ∀ stage, P stage → Q stage) :
    SameNearest Q T stages stages' := by
  cases h with
  | intro hstage hT => exact .intro (hPQ _ hstage) hT

namespace Related

variable {P Q : Stage → Prop} {s t : State} (h : Related R (SameNearest P T) s t)

include h

theorem get_eq : place.get s = place.get t := by
  obtain ⟨slog, _⟩ := s
  obtain ⟨tlog, _⟩ := t
  obtain ⟨-, hsame⟩ := h
  cases hsame with
  | intro => rfl

/-- What holds of the nearest stage. -/
theorem nearest : P (Stage.nearest s) := by
  obtain ⟨slog, _⟩ := s
  obtain ⟨tlog, _⟩ := t
  obtain ⟨-, hsame⟩ := h
  cases hsame with
  | intro hstage => exact hstage

theorem noting {f : Sequence → Sequence}
    (hf : ∀ stage, P stage → Q (stage.remember (f stage.kept))) :
    Related R (SameNearest Q T) (Stage.noting f s) (Stage.noting f t) := by
  obtain ⟨slog, _⟩ := s
  obtain ⟨tlog, _⟩ := t
  obtain ⟨hlog, hsame⟩ := h
  cases hsame with
  | intro hstage hT => exact ⟨hlog, .intro (hf _ hstage) hT⟩

end Related

end Stage

theorem Predicate.size_concurs {bound? : Option Nat}
    {source source' : Option Nat → Eval (List Node)}
    (hs : Candidates.Concur R T bound? source source') :
    (size source).Concurs R T (size source') :=
  Eval.agreesUnless_bind (hs.concurs none) (Eval.ensures_true _) fun _ _ => Eval.agreesUnless_pure _

/-! ### Few candidates -/

namespace Stage

/-- What a stage has come to that finds at most `b` candidates. -/
def TakesAtMost (b : Nat) : Predicate → Stage → Prop
  | .position _, stage =>
    stage.kept.found.length ≤ b ∧ (stage.closed = false → stage.kept.found = [])
  | .test _, stage => stage.kept.found.length ≤ stage.taken ∧ stage.taken ≤ b

/-- How many more times such a stage may have to be asked. -/
def roundsLeft (b : Nat) : Predicate → Stage → Nat
  | .position _, stage => if stage.closed then 1 else 2
  | .test _, stage => b + 1 - stage.taken

variable {b : Nat} {p : Predicate} {stage after : Stage}

theorem takesAtMost_initial (b : Nat) (p : Predicate) : TakesAtMost b p (initial p) := by
  cases p with
  | position x =>
    have hfound : (initial (.position x)).kept.found = [] := by
      rw [initial]
      split <;> rfl
    rw [TakesAtMost, hfound]
    exact ⟨Nat.zero_le b, fun _ => rfl⟩
  | test judge => exact ⟨le_refl 0, Nat.zero_le b⟩

theorem roundsLeft_le (b : Nat) (p : Predicate) (stage : Stage) :
    roundsLeft b p stage ≤ max b 1 + 1 := by
  cases p with
  | position x =>
    rw [roundsLeft]
    split <;> omega
  | test judge =>
    rw [roundsLeft]
    omega

theorem roundsLeft_remember (b : Nat) (p : Predicate) (stage : Stage) (q : Sequence) :
    roundsLeft b p (stage.remember q) = roundsLeft b p stage := by
  cases p <;> rfl

theorem TakesAtMost.roundsLeft_pos (h : TakesAtMost b p stage) : 0 < roundsLeft b p stage := by
  cases p with
  | position x =>
    rw [roundsLeft]
    split <;> omega
  | test judge =>
    have := h.2
    rw [roundsLeft]
    omega

theorem TakesAtMost.length_le (h : TakesAtMost b p stage) : stage.kept.found.length ≤ b := by
  cases p with
  | position x => exact h.1
  | test judge => exact h.1.trans h.2

/-- What a stage has kept and taken does not depend on whether it is at work. -/
theorem TakesAtMost.remember (h : TakesAtMost b p stage) {q : Sequence}
    (hq : q.found = stage.kept.found) : TakesAtMost b p (stage.remember q) := by
  cases p with
  | position x =>
    refine ⟨?_, fun hclosed => ?_⟩
    · rw [Stage.remember, hq]
      exact h.1
    · rw [Stage.remember, hq]
      exact h.2 hclosed
  | test judge =>
    refine ⟨?_, h.2⟩
    rw [Stage.remember, hq]
    exact h.1

section Taken

variable {judge : Context → Eval Verdict} {nodes : List Node} {n : Node}
  (h : TakesAtMost b (.test judge) stage) (hn : nodes[stage.taken]? = some n)
  (hle : nodes.length ≤ b) (htaken : after.taken = stage.taken + 1)

include h hn hle htaken

/-- What a stage takes is found within the bound, so it does not take more than there is. -/
theorem TakesAtMost.taken (hkept : after.kept.found.length ≤ stage.kept.found.length + 1) :
    TakesAtMost b (.test judge) after := by
  have hlt := (List.getElem?_eq_some_iff.1 hn).1
  have hlength := h.1
  constructor <;> omega

omit h in
/-- With each candidate that it takes it comes closer to its end. -/
theorem roundsLeft_lt : roundsLeft b (.test judge) after < roundsLeft b (.test judge) stage := by
  have hlt := (List.getElem?_eq_some_iff.1 hn).1
  simp only [roundsLeft]
  omega

end Taken

theorem TakesAtMost.shut {x : Float} (h : TakesAtMost b (.position x) stage) :
    TakesAtMost b (.position x) stage.shut :=
  ⟨h.1, fun h => by cases h⟩

theorem length_noted_le (answer : Pull) (q : Sequence) :
    (noted answer q).found.length ≤ q.found.length + 1 := by
  cases answer with
  | node n => exact (List.length_append).le
  | nothing => exact Nat.le_succ _
  | finished => exact Nat.le_succ _

/-- What a stage has come to that finds no more candidates than a bound says, if there is one. -/
def TakesWithin (bound? : Option Nat) (p : Predicate) (stage : Stage) : Prop :=
  ∀ b ∈ bound?, TakesAtMost b p stage

theorem TakesWithin.remember {bound? : Option Nat} (h : TakesWithin bound? p stage) {q : Sequence}
    (hq : q.found = stage.kept.found) : TakesWithin bound? p (stage.remember q) :=
  fun b hb => (h b hb).remember hq

/-- What has become of such a stage that has been asked once: it has not taken more than there is,
and it has come closer to its end. -/
def Progresses (bound? : Option Nat) (p : Predicate) (stage : Stage) (answer : Pull)
    (after : Stage) : Prop :=
  TakesWithin bound? p (after.remember (noted answer after.kept)) ∧
    (answer ≠ .finished → ∀ b ∈ bound?, roundsLeft b p after < roundsLeft b p stage)

variable {bound? : Option Nat} {s t : State}

/-- A stage that says that there are no more nodes. -/
theorem TakesWithin.finished (h : TakesWithin bound? p after) :
    Progresses bound? p stage .finished after :=
  ⟨h.remember rfl, fun hf => (hf rfl).elim⟩

theorem Asked.progresses {answer : Pull} (h : Asked (.concurring R T bound?) p stage answer s t)
    (hstage : TakesWithin bound? p stage) :
    Related R (SameNearest (Progresses bound? p stage answer) T) s t := by
  cases h with
  | looked _ h => exact ⟨h.1, .intro hstage.finished h.2⟩
  | missed _ _ h =>
    obtain ⟨-, hlog, hT⟩ := h
    have hshut : TakesWithin bound? _ stage.shut := fun b hb => (hstage b hb).shut
    exact ⟨hlog, .intro hshut.finished hT⟩
  | @hit x _ _ _ _ _ nodes n hc hn h =>
    obtain ⟨hfound, hlog, hT⟩ := h
    have hlt := (List.getElem?_eq_some_iff.1 hn).1
    refine ⟨hlog, .intro ⟨fun b hb => ⟨?_, fun h => by cases h⟩, fun _ b _ => ?_⟩ hT⟩
    · have hle := hfound b hb
      simp only [Stage.remember, noted, Sequence.extended, Stage.shut, (hstage b hb).2 hc,
        List.nil_append, List.length_singleton]
      omega
    · simp [roundsLeft, Stage.shut, hc]
  | @hushed judge _ _ _ _ _ _ _ h =>
    have hattempted : TakesWithin bound? (.test judge) stage.attempted := hstage
    exact ⟨h.1, .intro hattempted.finished h.2⟩
  | ended _ h => exact ⟨h.2.1, .intro hstage.finished h.2.2⟩
  | @late judge _ _ _ _ _ _ _ _ hn h =>
    obtain ⟨hfound, hlog, hT⟩ := h
    have hadvanced : TakesWithin bound? (.test judge) stage.advanced := fun b hb =>
      (hstage b hb).taken hn (hfound b hb) rfl (Nat.le_succ _)
    exact ⟨hlog, .intro hadvanced.finished hT⟩
  | @judged judge _ _ _ _ _ _ _ _ hn v h =>
    obtain ⟨hfound, hlog, hT⟩ := h
    refine ⟨hlog, .intro ⟨fun b hb => ?_, fun _ b hb => ?_⟩ hT⟩
    · refine (hstage b hb).taken hn (hfound b hb) (taken_judged stage v) ?_
      exact (length_noted_le _ _).trans_eq (by rw [kept_judged])
    · exact roundsLeft_lt hn (hfound b hb) (taken_judged stage v)

theorem Failed.takesWithin {e : Error} (h : Failed (.concurring R T bound?) p stage e s t)
    (hstage : TakesWithin bound? p stage) :
    Related R (SameNearest (TakesWithin bound? p) T) s t := by
  cases h with
  | looking _ h => exact ⟨h.1, .intro (fun b hb => (hstage b hb).shut) h.2⟩
  | trying _ h => exact ⟨h.1, .intro hstage h.2⟩
  | judging _ hn h =>
    obtain ⟨hfound, hlog, hT⟩ := h
    refine ⟨hlog, .intro (fun b hb => ?_) hT⟩
    exact (hstage b hb).taken hn (hfound b hb) rfl (Nat.le_succ _)

end Stage

/-- Asked once more, the same stage of predicates that do the same answers alike. -/
theorem Predicate.pull_concurs {bound? : Option Nat}
    {source source' : Option Nat → Eval (List Node)}
    (hs : Candidates.Concur R T bound? source source') {log log' : List String} (hlog : R log log')
    {stage : Stage} {rest rest' : List Stage} (hT : T rest rest') {p p' : Predicate}
    (hp : p.Concurs R T p') (hstage : Stage.TakesWithin bound? p stage) :
    Meets (fun _ => False)
      (fun answer => Stage.Related R (Stage.SameNearest (Stage.Progresses bound? p stage answer) T))
      (fun _ => Stage.Related R (Stage.SameNearest (Stage.TakesWithin bound? p) T))
      (p.pull source ⟨log, stage :: rest⟩) (p'.pull source' ⟨log', stage :: rest'⟩) := by
  have hjudges : (Contract.concurring R T bound?).Judges source source' stage p p' := by
    cases hp with
    | position x => exact .position x
    | test hj =>
      refine .test fun {nodes n s t} _ _ h => ?_
      have hjudged := hj ⟨n, stage.tried + 1, size source⟩ ⟨n, stage.tried + 1, size source'⟩
        ⟨rfl, rfl, size_concurs hs⟩ s t h.2
      exact hjudged.mono (fun _ _ _ hst => ⟨h.1, hst⟩) fun _ _ _ hst => ⟨h.1, hst⟩
  exact (pull_asked hs ⟨hlog, hT⟩ hjudges fun _ _ => id).mono
    (fun _ _ _ h => h.progresses hstage) fun _ _ _ h => h.takesWithin hstage

/-! ### Reads -/

namespace Stage

/-- The same fuel on both sides, or enough on both. -/
def EnoughFuel (bound? : Option Nat) (p : Predicate) (stage : Stage) (fuel fuel' : Nat) : Prop :=
  fuel = fuel' ∨ ∃ b ∈ bound?, roundsLeft b p stage ≤ fuel ∧ roundsLeft b p stage ≤ fuel'

variable {bound? : Option Nat} {p : Predicate} {stage after : Stage}

/-- There is fuel on both sides or on neither. -/
theorem EnoughFuel.cases {fuel fuel' : Nat} (h : EnoughFuel bound? p stage fuel fuel')
    (hstage : TakesWithin bound? p stage) :
    fuel = 0 ∧ fuel' = 0 ∨ ∃ m m', fuel = m + 1 ∧ fuel' = m' + 1 := by
  obtain rfl | ⟨b, hb, hle, hle'⟩ := h
  · cases fuel with
    | zero => exact .inl ⟨rfl, rfl⟩
    | succ m => exact .inr ⟨m, m, rfl, rfl⟩
  · have := (hstage b hb).roundsLeft_pos
    exact .inr ⟨fuel - 1, fuel' - 1, by omega, by omega⟩

/-- After an answer there is enough fuel for a stage that comes closer to its end. -/
theorem EnoughFuel.next {fuel fuel' : Nat} (h : EnoughFuel bound? p stage (fuel + 1) (fuel' + 1))
    (hless : ∀ b ∈ bound?,
      roundsLeft b p after < roundsLeft b p (stage.remember stage.kept.occupied))
    (q : Sequence) : EnoughFuel bound? p (after.remember q) fuel fuel' := by
  obtain h | ⟨b, hb, hle, hle'⟩ := h
  · exact .inl (by omega)
  · have hlt := hless b hb
    rw [roundsLeft_remember] at hlt
    refine .inr ⟨b, hb, ?_⟩
    rw [roundsLeft_remember]
    omega

/-- A read of what a predicate keeps ends alike if reads of the candidates do. -/
theorem fill_concurs {source source' : Option Nat → Eval (List Node)}
    (hs : Candidates.Concur R T bound? source source') {p' : Predicate} (hp : p.Concurs R T p')
    (stop : Option Nat) {fuel fuel' : Nat} {s t : State}
    (h : Related R (SameNearest (fun stage =>
      TakesWithin bound? p stage ∧ EnoughFuel bound? p stage fuel fuel') T) s t) :
    Meets (fun _ => False) (fun _ => Related R (SameNearest (TakesWithin bound? p) T))
      (fun _ => Related R (SameNearest (TakesWithin bound? p) T))
      (place.fill (p.pull source) stop fuel s) (place.fill (p'.pull source') stop fuel' t) := by
  have hwithin : ∀ {P : Stage → Prop} {s t : State},
      Related R (SameNearest (fun stage => TakesWithin bound? p stage ∧ P stage) T) s t →
      Related R (SameNearest (TakesWithin bound? p) T) s t :=
    fun h => ⟨h.1, h.2.mono fun _ h => h.1⟩
  -- A round uses up fuel on both sides, and one of the times that the stage may have to be asked.
  refine fill_meets (W := fun m m' => Related R
    (SameNearest (fun stage => TakesWithin bound? p stage ∧ EnoughFuel bound? p stage m m') T))
    (fun h => h.get_eq) (fun h => ?_) (fun h _ => hwithin h) (fun h _ _ => hwithin h) ?_ h
  · obtain ⟨rfl, rfl⟩ | hsucc := h.nearest.2.cases h.nearest.1
    · exact .inl ⟨rfl, rfl, hwithin h⟩
    · exact .inr hsucc
  · rintro m m' log log' stage stage' rest rest' ⟨hlog, hsame⟩ - -
    obtain @⟨_, _, _, ⟨hstage, hfuel⟩, hT⟩ := hsame
    have hoccupied : TakesWithin bound? p (stage.remember stage.kept.occupied) :=
      hstage.remember rfl
    refine (Predicate.pull_concurs hs hlog hT hp hoccupied).mono (fun answer u v h => ?_)
      fun e u v h => h.noting fun _ h => h.remember rfl
    have hgoes : answer ≠ .finished → Related R
        (SameNearest (fun stage => TakesWithin bound? p stage ∧ EnoughFuel bound? p stage m m') T)
        (noting (noted answer) u) (noting (noted answer) v) := fun hf =>
      h.noting fun after h => ⟨h.1, hfuel.next (h.2 hf) _⟩
    cases answer with
    | node n => exact hgoes Pull.noConfusion
    | nothing => exact hgoes Pull.noConfusion
    | finished => exact h.noting fun after h => h.1

end Stage

namespace Candidates

open Stage

variable {bound? : Option Nat} {nodes nodes' : List Node}

/-- Lists of the same length, or of at least as many candidates as are found at all. -/
def Comparable (bound? : Option Nat) (nodes nodes' : List Node) : Prop :=
  nodes.length = nodes'.length ∨ ∃ b ∈ bound?, max b 1 ≤ nodes.length ∧ max b 1 ≤ nodes'.length

/-- Reads of what one more predicate keeps end alike. -/
theorem concur_cons (hnodes : Comparable bound? nodes nodes') {earlier earlier' : List Predicate}
    (hs : Concur R T bound? (read nodes earlier) (read nodes' earlier')) {p p' : Predicate}
    (hp : p.Concurs R T p') :
    Concur R (SameNearest (TakesWithin bound? p) T) bound? (read nodes (p :: earlier))
      (read nodes' (p' :: earlier')) := by
  intro stop s t h
  have hstart : Related R (SameNearest (fun stage => TakesWithin bound? p stage ∧
      EnoughFuel bound? p stage (nodes.length + 1) (nodes'.length + 1)) T) s t := by
    refine ⟨h.1, h.2.mono fun stage hstage => ⟨hstage, ?_⟩⟩
    obtain hlength | ⟨b, hb, hle, hle'⟩ := hnodes
    · exact .inl (congrArg (· + 1) hlength)
    · exact .inr ⟨b, hb, (roundsLeft_le b p stage).trans (Nat.succ_le_succ hle),
        (roundsLeft_le b p stage).trans (Nat.succ_le_succ hle')⟩
  refine (read_meets (fill_concurs hs hp stop hstart) fun h => h.get_eq).mono ?_ fun _ _ _ h => h
  rintro found u v ⟨rfl, huv⟩
  exact ⟨fun b hb => (huv.nearest b hb).length_le, huv⟩

/-- The same stages of predicates, last to first, before related ones. -/
def SameStages (bound? : Option Nat) (T : List Stage → List Stage → Prop) :
    List Predicate → List Stage → List Stage → Prop
  | [] => T
  | p :: later => SameNearest (TakesWithin bound? p) (SameStages bound? T later)

theorem sameStages_initial {rest rest' : List Stage} (hT : T rest rest') (later : List Predicate) :
    SameStages bound? T later (later.map initial ++ rest) (later.map initial ++ rest') := by
  induction later with
  | nil => exact hT
  | cons p later ih => exact .intro (fun b _ => takesAtMost_initial b p) ih

/-- Reads of what impartial predicates keep end alike if reads of the candidates before do. -/
theorem concur_append (hnodes : Comparable bound? nodes nodes') {ps ps' : List Predicate}
    (hs : Concur R T bound? (read nodes ps) (read nodes' ps')) {later : List Predicate}
    (hlater : ∀ p ∈ later, p.Impartial R) :
    Concur R (SameStages bound? T later) bound? (read nodes (later ++ ps))
      (read nodes' (later ++ ps')) := by
  induction later with
  | nil => exact hs
  | cons p later ih =>
    have ih := ih fun q hq => hlater q (List.mem_cons_of_mem p hq)
    exact concur_cons hnodes ih (hlater p List.mem_cons_self _)

/-- Reads of what predicates keep that do the same end alike among the same stages. -/
theorem read_concurs {ps ps' : List Predicate} (h : List.Forall₂ (Predicate.Concurs R Eq) ps ps')
    (nodes : List Node) (stop : Option Nat) :
    (read nodes ps stop).Concurs R Eq (read nodes ps' stop) := by
  induction h generalizing stop with
  | nil => exact Eval.agreesUnless_pure nodes
  | @cons p p' earlier earlier' hp _ ih =>
    have hcons := concur_cons (.inl rfl) (concur_of_concurs ih) hp
    rintro ⟨log, stages⟩ ⟨log', _⟩ ⟨hlog, rfl⟩
    cases stages with
    | nil =>
      have hanswers : ∀ log, (place.get ⟨log, []⟩).answers stop = false := fun _ => by
        cases stop <;> rfl
      show Meets _ _ _ (read nodes (p :: earlier) stop ⟨log, []⟩)
        (read nodes (p' :: earlier') stop ⟨log', []⟩)
      rw [read_cons, read_cons, fill_of_busy (hanswers log) rfl, fill_of_busy (hanswers log') rfl]
      exact .error ⟨hlog, rfl⟩
    | cons stage rest =>
      have hmeets := hcons.concurs stop ⟨log, stage :: rest⟩ ⟨log', stage :: rest⟩
        ⟨hlog, .intro (fun _ hb => by cases hb) rfl⟩
      have hsame : ∀ {s t : State}, Related R (SameNearest (TakesWithin none p) Eq) s t →
          Related R Eq s t := by
        rintro ⟨slog, _⟩ ⟨tlog, _⟩ ⟨hlog, hsame⟩
        cases hsame with
        | intro _ hrest => exact ⟨hlog, congrArg (List.cons _) hrest⟩
      exact hmeets.mono (fun _ _ _ h => hsame h) fun _ _ _ h => hsame h

/-! ### Visits -/

variable {N : List Stage → List Stage → Prop} {ps ps' : List Predicate}
  (h : Concur R N bound? (read nodes ps) (read nodes' ps')) {β : Type} {enough : β → Bool}
  {visit visit' : Node → β → Eval β} (hv : ∀ n b, (visit n b).Concurs R T (visit' n b))

include h hv

/-- Visits that end alike make walks that do. -/
theorem eachFrom_concurs {fuel fuel' i : Nat}
    (hfuel : fuel = fuel' ∨ ∃ b ∈ bound?, i ≤ b ∧ b < fuel + i ∧ b < fuel' + i)
    {stages stages' : List Stage} (hN : N stages stages') (b : β) :
    (eachFrom nodes ps enough visit fuel i stages b).Concurs R T
      (eachFrom nodes' ps' enough visit' fuel' i stages' b) := by
  intro s t hst
  refine eachFrom_meets
    (W := fun m m' i stages stages' _ s t =>
      (m = m' ∨ ∃ b ∈ bound?, i ≤ b ∧ b < m + i ∧ b < m' + i) ∧ N stages stages' ∧ Related R T s t)
    ?_ (fun h _ => h.2.2) ?_ ⟨hfuel, hN, hst⟩
  · rintro m m' i stages stages' b s t ⟨rfl | ⟨b, -, hi, hm, hm'⟩, -, hst⟩
    · cases m with
      | zero => exact .inl ⟨rfl, rfl, hst⟩
      | succ m => exact .inr ⟨m, m, rfl, rfl⟩
    · exact .inr ⟨m - 1, m' - 1, by omega, by omega⟩
  · rintro m m' i stages stages' b s t ⟨hfuel, hN, hst⟩ -
    have hread := h (some i) ⟨s.log, stages⟩ ⟨t.log, stages'⟩ ⟨hst.1, hN⟩
    refine hread.mono ?_ fun e u v h => ⟨h.1, hst.2⟩
    rintro found u v ⟨hfound, hlog, hN⟩
    cases hn : found[i]? with
    | none => exact ⟨hlog, hst.2⟩
    | some n =>
      have hvisit := hv n b ⟨u.log, s.stages⟩ ⟨v.log, t.stages⟩ ⟨hlog, hst.2⟩
      refine hvisit.mono (fun _ _ _ hst => ⟨?_, hN, hst⟩) fun _ _ _ h => h
      -- The node that was found is within the bound, so there is enough fuel for the next.
      obtain h | ⟨k, hk, -, hlt, hlt'⟩ := hfuel
      · exact .inl (by omega)
      · have := (List.getElem?_eq_some_iff.1 hn).1
        have := hfound k hk
        exact .inr ⟨k, hk, by omega, by omega, by omega⟩

theorem each_concurs (hnodes : Comparable bound? nodes nodes')
    (hN : N (ps.map initial) (ps'.map initial)) (b : β) :
    (each nodes ps enough visit b).Concurs R T (each nodes' ps' enough visit' b) := by
  refine eachFrom_concurs h hv ?_ hN b
  obtain h | ⟨m, hm, hle, hle'⟩ := hnodes
  · exact .inl (congrArg (· + 1) h)
  · exact .inr ⟨m, hm, Nat.zero_le m, by omega, by omega⟩

omit h hv

/-- What predicates keep of two lists of candidates is visited alike, whatever is done there. -/
def VisitedAlike (R : List String → List String → Prop) (nodes : List Node) (ps : List Predicate)
    (nodes' : List Node) (ps' : List Predicate) : Prop :=
  ∀ ⦃T : List Stage → List Stage → Prop⦄ ⦃β : Type⦄ ⦃enough : β → Bool⦄
    ⦃visit visit' : Node → β → Eval β⦄, (∀ n b, (visit n b).Concurs R T (visit' n b)) →
    ∀ b, (each nodes ps enough visit b).Concurs R T (each nodes' ps' enough visit' b)

/-- What predicates keep that do the same is visited alike. -/
theorem visitedAlike_same {ps ps' : List Predicate}
    (hp : List.Forall₂ (Predicate.Concurs R Eq) ps ps') (nodes : List Node) :
    VisitedAlike R nodes ps nodes ps' := by
  have hinitial : ps.map initial = ps'.map initial := by
    induction hp with
    | nil => rfl
    | cons h _ ih => rw [List.map_cons, List.map_cons, h.initial, ih]
  intro T β enough visit visit' hv
  exact each_concurs (concur_of_concurs (read_concurs hp nodes)) hv (.inl rfl) hinitial

theorem visitedAlike_of_impartial {ps : List Predicate} (h : ∀ p ∈ ps, p.Impartial R)
    (nodes : List Node) : VisitedAlike R nodes ps nodes ps :=
  visitedAlike_same (List.forall₂_same.2 fun p hp => h p hp Eq) nodes

end Candidates

/-! ### Paths -/

/-- Steps that lead from every node to candidates that are visited alike. -/
def Stride.Concurs (R : List String → List String → Prop) (s t : Stride) : Prop :=
  ∀ n, Candidates.VisitedAlike R (s.candidates n) s.predicates (t.candidates n) t.predicates

namespace Path

variable (once : Bool) {strides strides' : List Stride}
  (hs : List.Forall₂ (Stride.Concurs R) strides strides')

include hs

theorem follow_concurs (n : Node) (p : Progress) :
    (follow once strides n p).Concurs R T (follow once strides' n p) := by
  induction hs generalizing n p with
  | nil => exact Eval.agreesUnless_pure _
  | cons hstride hrest ih =>
    rw [follow, follow]
    refine hstride n (fun m p => ?_) p
    rw [← hrest.length_eq]
    split
    · exact Eval.agreesUnless_pure p
    · exact ih m _

/-- Steps are followed alike from candidates that are visited alike. -/
theorem collect_concurs {nodes nodes' : List Node} {ps ps' : List Predicate}
    (h : Candidates.VisitedAlike R nodes ps nodes' ps') :
    (collect once nodes ps strides).Concurs R T (collect once nodes' ps' strides') :=
  Eval.agreesUnless_bind (h (fun n p => follow_concurs once hs n p) _)
    (Eval.ensures_true _) fun _ _ => Eval.agreesUnless_pure _

/-- So it is when the steps are made ready one after the other, and some of them restore document
order. -/
theorem selectFrom_concurs {nodes nodes' : List Node} {ps ps' : List Predicate}
    (h : Candidates.VisitedAlike R nodes ps nodes' ps') {σ : Setting} {steps : List (Step Meaning)}
    (hsteps : ∀ s ∈ steps, ∀ m ∈ s.predicates, m.predicate.Impartial R) :
    (selectFrom σ once nodes ps strides steps).Concurs R T
      (selectFrom σ once nodes' ps' strides' steps) := by
  induction steps generalizing nodes nodes' ps ps' strides strides' with
  | nil => exact collect_concurs once hs h
  | cons step rest ih =>
    obtain ⟨hstep, hrest⟩ := List.forall_mem_cons.1 hsteps
    rw [selectFrom, selectFrom]
    cases hready : Stride.ofStep σ step with
    | error e => exact Eval.agreesUnless_throw e
    | ok stride =>
      have hstride : stride.Concurs R stride := fun n =>
        Candidates.visitedAlike_of_impartial (by
          rw [Stride.predicates_ofStep hready]
          exact Meaning.forall_reverse hstep) _
      have hall := List.rel_append hs (List.Forall₂.cons hstride .nil)
      rw [Eval.ofExcept, pure_bind, pure_bind]
      dsimp only
      split
      · exact Eval.agreesUnless_bind (collect_concurs false hall h) (Eval.ensures_true _)
          fun found _ => ih .nil (Candidates.visitedAlike_same .nil _) hrest
      · exact ih hall h hrest

end Path

end XPath
