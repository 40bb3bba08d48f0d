/-
Evaluations that are the same unless the first one fails.

Of two evaluations the first may fail with certain errors where the second goes on.  Otherwise they
do the same.  A stage that wants no more hides a failure of the stages before it; then these have
gone apart, but the stage has come to its end on both sides and never asks them again.

* `Eval.AgreesUnless` — actions that end alike, unless the first fails in such a way;
* `Accord.partialAgreement` — such actions as an accord;
* `Stage.SameOrEnded`, `Stage.AllSameOrEnded` — stages that are the same, or have come to the same
  end;
* `Predicate.pull_agreesUnless`, `Stage.fill_agreesUnless`, `Candidates.read_agreesUnless` — asking
  a stage once, until it can answer, and reading what it has kept;
* `Path.collect_agreesUnless` — following steps;
* `Accord.interpretations_partialAgreement` — the evaluation of the engine is in accord with itself.
-/
import XPath.Proofs.Evaluation.Logging

namespace XPath

/-! ### Actions -/

namespace Eval

variable {α β : Type} {D : Error → Prop} {E : State → State → Prop}

/-- Two actions that end alike from related states, unless the first fails with an error that it may
fail with. -/
def AgreesUnless (D : Error → Prop) (E : State → State → Prop) (x y : Eval α) : Prop :=
  ∀ s t, E s t → Meets D (fun _ => E) (fun _ => E) (x s) (y t)

theorem agreesUnless_pure (a : α) : AgreesUnless D E (pure a) (pure a) := fun _ _ h => .ok h

theorem agreesUnless_throw (e : Error) : AgreesUnless D E (throw e : Eval α) (throw e) :=
  fun _ _ h => .error h

theorem agreesUnless_lost {e : Error} (h : D e) (y : Eval α) : AgreesUnless D E (throw e) y :=
  fun _ _ _ => .lost h

theorem agreesUnless_bind {x y : Eval α} {f g : α → Eval β} {P : α → Prop}
    (hx : x.AgreesUnless D E y) (hP : x.Ensures P)
    (hf : ∀ a, P a → (f a).AgreesUnless D E (g a)) :
    AgreesUnless D E (x >>= f) (y >>= g) :=
  fun s t hst => (hx s t hst).bind fun a u v hxs huv => hf a (hP hxs) u v huv

/-- Any action ends like itself. -/
theorem agreesUnless_refl (x : Eval α) : AgreesUnless D Eq x x := by
  rintro s _ rfl
  cases x s with
  | ok a t => exact .ok rfl
  | error e t => exact .error rfl

end Eval

/-! ### The accord -/

/-- From where two actions are compared: the states that are related, and whether they must not
log anything. -/
structure ComparedFrom where
  related : State → State → Prop
  quiet : Prop

/-- Two actions that end alike, unless the first fails with an error that it may fail with.  Neither
logs anything if that is asked for, and all results satisfy a predicate. -/
structure Eval.Shared {α : Type} (D : Error → Prop) (k : ComparedFrom) (P : α → Prop)
    (x y : Eval α) : Prop where
  agrees : x.AgreesUnless D k.related y
  quiet : k.quiet → x.Quiet ∧ y.Quiet
  left : x.Ensures P
  right : y.Ensures P

/-- Ending alike, unless the first fails, as an accord. -/
def Accord.partialAgreement (σ : Setting) (D : Error → Prop) : Accord ComparedFrom where
  toSides := .same σ
  Holds k _ P x y := x.Shared D k P y
  Good _ := True
  Sized k x y := x.Shared D k (fun _ => True) y
  size h := h
  sized := ⟨Eval.agreesUnless_pure _, fun _ => ⟨Eval.course_quiet.pure _, Eval.course_quiet.pure _⟩,
    Eval.ensures_true _, Eval.ensures_true _⟩
  pure h := ⟨Eval.agreesUnless_pure _,
    fun _ => ⟨Eval.course_quiet.pure _, Eval.course_quiet.pure _⟩,
    Eval.ensures_pure h, Eval.ensures_pure h⟩
  throw _ := ⟨Eval.agreesUnless_throw _, fun _ => ⟨fun _ => rfl, fun _ => rfl⟩,
    fun _ _ _ h => (by cases h), fun _ _ _ h => by cases h⟩
  bind hx hf := ⟨Eval.agreesUnless_bind hx.agrees hx.left fun a ha => (hf a ha).agrees,
    fun hk => ⟨Eval.course_quiet.bind (hx.quiet hk).1 hx.left fun a ha => ((hf a ha).quiet hk).1,
      Eval.course_quiet.bind (hx.quiet hk).2 hx.right fun a ha => ((hf a ha).quiet hk).2⟩,
    Eval.ensures_bind hx.left fun a ha => (hf a ha).left,
    Eval.ensures_bind hx.right fun a ha => (hf a ha).right⟩
  known _ _ _ := trivial
  scalar _ := trivial
  union _ _ := trivial
  identified _ := trivial

/-! ### Stages -/

namespace Stage

/-- States with the given logs whose stages are related. -/
def Alike (log log' : List String) (T : List Stage → List Stage → Prop) (s t : State) : Prop :=
  s.log = log ∧ t.log = log' ∧ T s.stages t.stages

/-- The same stage before related ones, or stages that have come to the same end. -/
inductive SameOrEnded (T : List Stage → List Stage → Prop) : List Stage → List Stage → Prop
  | same (stage : Stage) {rest rest' : List Stage} (h : T rest rest') :
      SameOrEnded T (stage :: rest) (stage :: rest')
  | ended {a b : Stage} {rest rest' : List Stage} (h : a.kept = b.kept)
      (he : a.kept.exhausted = true) : SameOrEnded T (a :: rest) (b :: rest')

/-- The stages of predicates that are the same, from one on that has come to the same end. -/
def AllSameOrEnded : List Predicate → List Stage → List Stage → Prop
  | [] => Eq
  | _ :: earlier => SameOrEnded (AllSameOrEnded earlier)

theorem allSameOrEnded_refl (ps : List Predicate) :
    AllSameOrEnded ps (ps.map initial) (ps.map initial) := by
  induction ps with
  | nil => rfl
  | cons p earlier ih => exact .same (initial p) ih

/-- States after the same answer of the same stage.  If there are no more nodes, what has become of
the stages before it may differ. -/
inductive Answers (log log' : List String) (T : List Stage → List Stage → Prop) :
    Pull → State → State → Prop
  | same {answer : Pull} {s t : State} (h : Beside (Alike log log' T) s t) :
      Answers log log' T answer s t
  | atEnd {a b : Stage} {rest rest' : List Stage} (h : a.kept = b.kept) :
      Answers log log' T .finished ⟨log, a :: rest⟩ ⟨log', b :: rest'⟩

end Stage

/-- Sources that end alike among related stages, unless the first fails, and that log nothing. -/
structure Candidates.SourcesAgree (D : Error → Prop) (T : List Stage → List Stage → Prop)
    (source source' : Option Nat → Eval (List Node)) : Prop where
  agrees : ∀ log log' stop, (source stop).AgreesUnless D (Stage.Alike log log' T) (source' stop)
  left : ∀ stop, (source stop).Quiet
  right : ∀ stop, (source' stop).Quiet

namespace Predicate

open Stage

/-- A stage that wants no more says that there are no more nodes, whatever the stages before it
come to. -/
theorem pull_shut {source : Option Nat → Eval (List Node)} (hs : ∀ stop, (source stop).Quiet)
    (log : List String) {stage : Stage} (hc : stage.closed = true) (p : Predicate)
    (rest : List Stage) :
    ∃ a : Stage, a.kept = stage.kept ∧ ∃ rest', p.pull source ⟨log, stage :: rest⟩ =
      .ok .finished ⟨log, a :: rest'⟩ := by
  have hread : ∀ stop s, s.log = log →
      Ends (fun _ t => t.log = log) (fun _ t => t.log = log) (source stop s) := by
    rintro stop s rfl
    cases hr : source stop s with
    | ok found t => exact ((hs stop).ok hr).symm
    | error e t => exact ((hs stop).error hr).symm
  have hjudge : ∀ judge, p = .test judge → ∀ {nodes : List Node} {n} {s : State},
      stage.closed = false → nodes[stage.taken]? = some n → s.log = log →
        Ends (fun _ _ => True) (fun _ _ => True)
          (judge ⟨n, stage.tried + 1, size source⟩ s) :=
    fun _ _ _ _ _ ho => by simp [hc] at ho
  have hasked := pull_ends hread hjudge (show State.log ⟨log, rest⟩ = log from rfl)
  cases hr : p.pull source ⟨log, stage :: rest⟩ with
  | error e t =>
    rw [hr] at hasked
    cases hasked with
    | looking ho => simp [hc] at ho
    | trying ho => simp [hc] at ho
    | judging ho => simp [hc] at ho
  | ok answer t =>
    rw [hr] at hasked
    cases hasked with
    | looked _ h =>
      obtain ⟨-, rfl⟩ := h
      exact ⟨stage, rfl, _, rfl⟩
    | missed ho => simp [hc] at ho
    | hit ho => simp [hc] at ho
    | hushed _ h =>
      obtain ⟨-, rfl⟩ := h
      exact ⟨stage.attempted, rfl, _, rfl⟩
    | ended _ h =>
      obtain ⟨-, rfl⟩ := h
      exact ⟨stage, rfl, _, rfl⟩
    | late _ _ h =>
      obtain ⟨-, rfl⟩ := h
      exact ⟨stage.advanced, rfl, _, rfl⟩
    | judged ho => simp [hc] at ho

variable {D : Error → Prop} {T : List Stage → List Stage → Prop}
  {source source' : Option Nat → Eval (List Node)}
  (hs : Candidates.SourcesAgree D T source source') (log log' : List String)

include hs

/-- Counting the candidates ends alike. -/
theorem size_shared :
    (size source).Shared D ⟨Alike log log' T, True⟩ (fun _ => True) (size source') where
  agrees := Eval.agreesUnless_bind (hs.agrees log log' none) (Eval.ensures_true _)
    fun _ _ => Eval.agreesUnless_pure _
  quiet _ := ⟨logs_size Eval.course_quiet hs.left, logs_size Eval.course_quiet hs.right⟩
  left := Eval.ensures_true _
  right := Eval.ensures_true _

/-- Asked once more, the stages of predicates in accord end alike. -/
theorem pull_agreesUnless {σ : Setting} {p p' : Predicate}
    (hp : (Accord.partialAgreement σ D).Predicates p p') (stage : Stage)
    {rest rest' : List Stage} (hT : T rest rest') :
    Meets D (Answers log log' T) (fun _ => Beside (Alike log log' T))
      (p.pull source ⟨log, stage :: rest⟩) (p'.pull source' ⟨log', stage :: rest'⟩) := by
  by_cases hc : stage.closed = true
  · obtain ⟨a, ha, restₐ, heqₐ⟩ := pull_shut hs.left log hc p rest
    obtain ⟨b, hb, restᵦ, heqᵦ⟩ := pull_shut hs.right log' hc p' rest'
    rw [heqₐ, heqᵦ]
    exact .ok (.atEnd (ha.trans hb.symm))
  have hreads : (Contract.of D (Alike log log' T)).Reads source source' :=
    hs.agrees log log'
  have hjudges :
      (Contract.of D (Alike log log' T)).Judges source source' stage p p' := by
    cases hp with
    | position x => exact .position x
    | test hj =>
      have hcontexts : ∀ n, (Accord.partialAgreement σ D).Contexts ⟨Alike log log' T, True⟩
          ⟨n, stage.tried + 1, size source⟩ ⟨n, stage.tried + 1, size source'⟩ :=
        fun n => ⟨rfl, trivial, rfl, size_shared hs log log'⟩
      exact .test fun _ _ h => (hj (hcontexts _)).agrees _ _ h
  have hrest : Alike log log' T ⟨log, rest⟩ ⟨log', rest'⟩ := ⟨rfl, rfl, hT⟩
  exact (pull_asked hreads hrest hjudges fun h => absurd h hc).mono
    (fun _ _ _ h => .same h.beside) fun _ _ _ h => h.beside

end Predicate

/-! ### Reads and visits -/

namespace Stage

variable {D : Error → Prop} {T : List Stage → List Stage → Prop}

/-- Stages that are the same or have come to the same end remember the same. -/
theorem Alike.get_eq {log log' : List String} {s t : State}
    (h : Alike log log' (SameOrEnded T) s t) : place.get s = place.get t := by
  obtain ⟨slog, stages⟩ := s
  obtain ⟨tlog, stages'⟩ := t
  obtain ⟨-, -, h⟩ := h
  cases h with
  | same stage h => rfl
  | ended h he => exact h

/-- A read ends alike among stages that are the same or have come to the same end, if asking the
stage once does. -/
theorem fill_agreesUnless {log log' : List String} {pull pull' : Eval Pull}
    (h : ∀ stage {rest rest'}, T rest rest' →
      Meets D (Answers log log' T) (fun _ => Beside (Alike log log' T))
        (pull ⟨log, stage :: rest⟩) (pull' ⟨log', stage :: rest'⟩)) (stop : Option Nat)
    (fuel : Nat) :
    Eval.AgreesUnless D (Alike log log' (SameOrEnded T)) (place.fill pull stop fuel)
      (place.fill pull' stop fuel) := by
  intro s t hst
  have hnoted : ∀ {f : Sequence → Sequence} {u v : State}, Beside (Alike log log' T) u v →
      Alike log log' (SameOrEnded T) (noting f u) (noting f v) := by
    rintro f _ _ ⟨stage, hlog, hlog', hT⟩
    exact ⟨hlog, hlog', .same _ hT⟩
  -- A stage that has come to its end is not asked.
  refine fill_meets_together (W := fun _ => Alike log log' (SameOrEnded T)) (fun h => h.get_eq) id
    (fun h _ => h) (fun h _ _ => h) ?_ hst
  rintro m _ _ stage stage' rest rest' ⟨rfl, rfl, hsame⟩ ha _
  cases hsame with
  | ended _ he =>
    have hopen := Sequence.not_exhausted_of_answers ha
    exact (Bool.false_ne_true (hopen.symm.trans he)).elim
  | same _ hT =>
    refine (h (stage.remember stage.kept.occupied) hT).mono (fun answer u v h => ?_)
      fun e u v h => hnoted h
    cases h with
    | atEnd hkept => exact ⟨rfl, rfl, .ended (congrArg Sequence.ended hkept) rfl⟩
    | same h =>
      cases answer with
      | node n => exact hnoted h
      | nothing => exact hnoted h
      | finished => exact hnoted h

end Stage

namespace Candidates

open Stage

variable {σ : Setting} {D : Error → Prop} {ps ps' : List Predicate}

/-- Predicates in accord log nothing. -/
theorem quiet_of_accord {p p' : Predicate} (h : (Accord.partialAgreement σ D).Predicates p p') :
    p.Logs Eq ∧ p'.Logs Eq := by
  cases h with
  | position x => exact ⟨trivial, trivial⟩
  | @test j j' h =>
    -- A context is in accord with itself when equal states are compared.
    have hj : ∀ c : Context, c.size.Quiet → (j c).Quiet ∧ (j' c).Quiet := fun c hc =>
      (h (k := ⟨Eq, True⟩) ⟨rfl, trivial, rfl, Eval.agreesUnless_refl _, fun _ => ⟨hc, hc⟩,
        Eval.ensures_true _, Eval.ensures_true _⟩).quiet trivial
    exact ⟨fun c hc => (hj c hc).1, fun c hc => (hj c hc).2⟩

variable (h : List.Forall₂ (Accord.partialAgreement σ D).Predicates ps ps')

include h

theorem quiet_of_accords : (∀ p ∈ ps, p.Logs Eq) ∧ ∀ p ∈ ps', p.Logs Eq :=
  ⟨Accord.forall_mem_left h fun _ _ hp => (quiet_of_accord hp).1,
    Accord.forall_mem_left h.flip fun _ _ hp => (quiet_of_accord hp).2⟩

/-- Reads of what predicates in accord keep end alike. -/
theorem read_agreesUnless (nodes : List Node) :
    SourcesAgree D (AllSameOrEnded ps) (read nodes ps) (read nodes ps') := by
  obtain ⟨hleft, hright⟩ := quiet_of_accords h
  refine ⟨fun log log' stop => ?_, logs_read Eval.course_quiet nodes hleft,
    logs_read Eval.course_quiet nodes hright⟩
  clear hleft hright
  induction h generalizing log log' stop with
  | nil => exact Eval.agreesUnless_pure nodes
  | @cons p p' earlier earlier' hp hearlier ih =>
    obtain ⟨hleft, hright⟩ := quiet_of_accords hearlier
    have hsource :
        SourcesAgree D (AllSameOrEnded earlier) (read nodes earlier) (read nodes earlier') :=
      ⟨ih, logs_read Eval.course_quiet nodes hleft, logs_read Eval.course_quiet nodes hright⟩
    intro s t hst
    have hfill := fill_agreesUnless (fun stage {_ _} hT =>
      Predicate.pull_agreesUnless hsource log log' hp stage hT) stop (nodes.length + 1) s t hst
    exact (read_meets hfill fun h => h.get_eq).mono (fun _ _ _ h => h.2) fun _ _ _ h => h

variable {β : Type} {J : State → State → Prop} {enough : β → Bool}
  {visit visit' : Node → β → Eval β} (hv : ∀ n b, (visit n b).AgreesUnless D J (visit' n b))

include hv

/-- Visits that end alike make walks that do.  A read on the stages of the step changes nothing
around it. -/
theorem each_agreesUnless (nodes : List Node) (b : β) :
    (each nodes ps enough visit b).AgreesUnless D J (each nodes ps' enough visit' b) := by
  intro s t hst
  refine eachFrom_meets_together
    (W := fun _ _ stages stages' _ s t => AllSameOrEnded ps stages stages' ∧ J s t)
    (fun h => h.2) (fun h _ => h.2) ?_ ⟨Accord.map_initial h ▸ allSameOrEnded_refl ps, hst⟩
  rintro m i stages stages' b s t ⟨hT, hst⟩ _
  refine ((read_agreesUnless h nodes).agrees s.log t.log (some i) ⟨s.log, stages⟩ ⟨t.log, stages'⟩
    ⟨rfl, rfl, hT⟩).mono ?_ ?_
  · rintro found u v ⟨hu, hv', hT⟩
    rw [hu, hv']
    cases found[i]? with
    | none => exact hst
    | some n => exact (hv n b s t hst).mono (fun _ _ _ h => ⟨hT, h⟩) fun _ _ _ h => h
  · rintro e u v ⟨hu, hv', -⟩
    rw [hu, hv']
    exact hst

end Candidates

/-! ### Paths -/

namespace Path

variable {σ : Setting} {D : Error → Prop} {J : State → State → Prop} (once : Bool)

/-- Strides in accord are followed to the same end. -/
theorem follow_agreesUnless {strides strides' : List Stride}
    (hs : List.Forall₂ (Accord.partialAgreement σ D).Strides strides strides') (n : Node)
    (p : Progress) :
    (follow once strides n p).AgreesUnless D J (follow once strides' n p) := by
  induction hs generalizing n p with
  | nil => exact Eval.agreesUnless_pure _
  | @cons stride stride' rest rest' hstride hrest ih =>
    rw [follow, follow, ← hstride.candidates trivial]
    refine Candidates.each_agreesUnless hstride.predicates (fun m p => ?_) _ p
    rw [← hrest.length_eq]
    split
    · exact Eval.agreesUnless_pure p
    · exact ih m _

variable {k : ComparedFrom} {ps ps' : List Predicate}
  (hp : List.Forall₂ (Accord.partialAgreement σ D).Predicates ps ps')
  {strides strides' : List Stride}
  (hs : List.Forall₂ (Accord.partialAgreement σ D).Strides strides strides')

include hp hs

theorem collect_agreesUnless (nodes : List Node) :
    (Accord.partialAgreement σ D).Plain k (collect once nodes ps strides)
      (collect once nodes ps' strides') where
  agrees := Eval.agreesUnless_bind
    (Candidates.each_agreesUnless hp (fun n p => follow_agreesUnless once hs n p) nodes _)
    (Eval.ensures_true _) fun _ _ => Eval.agreesUnless_pure _
  quiet _ :=
    ⟨logs_collect Eval.course_quiet once nodes (Candidates.quiet_of_accords hp).1
        (Accord.forall_mem_left hs fun _ _ h => (Candidates.quiet_of_accords h.predicates).1),
      logs_collect Eval.course_quiet once nodes (Candidates.quiet_of_accords hp).2
        (Accord.forall_mem_left hs.flip fun _ _ h => (Candidates.quiet_of_accords h.predicates).2)⟩
  left := Eval.ensures_true _
  right := Eval.ensures_true _

end Path

/-- The evaluation of the engine is in accord with itself. -/
theorem Accord.interpretations_partialAgreement (σ : Setting) (D : Error → Prop) :
    (partialAgreement σ D).Interpretations (.standard Registry.core.library σ)
      (.standard Registry.core.library σ) :=
  Follows.interpretations (A := partialAgreement σ D)
    ⟨fun _ => trivial, fun _ => trivial, fun once _ _ _ _ hp _ _ hs =>
      Path.collect_agreesUnless once hp hs _⟩
    libraries_core fun _ _ => trivial

end XPath
