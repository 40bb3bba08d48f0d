/-
Rules for stages.

What is said about an evaluation is said of one run or of two that are compared, and the stages of
a step are asked, read and visited in each of them in the same way.  Here is one rule for each of
these actions.  A rule takes what holds before an action, of one run or between two, and what the
actions inside it are known to do, and gives what holds at the end.  So what is said about an
evaluation has to name an invariant of the stages only, and how a stage works is looked at once.

* `Meets`, `Ends` — how two runs end, and how one does;
* `Contract` — what is known of the reads before a stage and of its judgements;
* `Stage.Asked`, `Stage.Failed` — all that may become of a stage that is asked once;
* `Predicate.pull_asked` — asking a stage once;
* `Stage.fill_meets`, `Candidates.read_meets` — reading what a stage keeps;
* `Candidates.eachFrom_meets` — visiting it;
* `Eval.Keeps`, `Predicate.pull_keeps`, `Candidates.each_keeps` — the same rules for one run;
* `Candidates.eachFrom_along`, `Path.follow_along` — where visiting and following lead.
-/
import XPath.Proofs.Evaluation.Stages

namespace XPath

/-! ### How runs end -/

/-- How two runs end: alike and in related states, unless the first fails with an error that it may
fail with. -/
inductive Meets {α : Type} (D : Error → Prop) (F : α → State → State → Prop)
    (E : Error → State → State → Prop) :
    EStateM.Result Error State α → EStateM.Result Error State α → Prop
  | ok {a : α} {t u : State} (h : F a t u) : Meets D F E (.ok a t) (.ok a u)
  | error {e : Error} {t u : State} (h : E e t u) : Meets D F E (.error e t) (.error e u)
  | lost {e : Error} {t : State} {r : EStateM.Result Error State α} (h : D e) :
      Meets D F E (.error e t) r

/-- How one run ends. -/
def Ends {α : Type} (F : α → State → Prop) (E : Error → State → Prop) :
    EStateM.Result Error State α → Prop
  | .ok a t => F a t
  | .error e t => E e t

theorem ends_ok {α : Type} {F : α → State → Prop} {E : Error → State → Prop} (a : α) (t : State) :
    Ends F E (.ok a t) = F a t := rfl

namespace Meets

variable {α β : Type} {D D' : Error → Prop} {F F' : α → State → State → Prop}
  {E E' : Error → State → State → Prop} {r r' : EStateM.Result Error State α}

theorem mono (h : Meets D F E r r') (hF : ∀ a t u, F a t u → F' a t u)
    (hE : ∀ e t u, E e t u → E' e t u) : Meets D F' E' r r' := by
  cases h with
  | ok h => exact .ok (hF _ _ _ h)
  | error h => exact .error (hE _ _ _ h)
  | lost h => exact .lost h

/-- A run that is compared with itself. -/
theorem of_ends {F : α → State → Prop} {E : Error → State → Prop} (h : Ends F E r) :
    Meets D (fun a t u => t = u ∧ F a t) (fun e t u => t = u ∧ E e t) r r := by
  cases r with
  | ok a t => exact .ok ⟨rfl, h⟩
  | error e t => exact .error ⟨rfl, h⟩

theorem ends (h : Meets (fun _ => False) F E r r) :
    Ends (fun a t => F a t t) (fun e t => E e t t) r := by
  cases h with
  | ok h => exact h
  | error h => exact h
  | lost h => exact h.elim

/-- Runs that end in the same state are one. -/
theorem eq {F : α → State → Prop} {E : Error → State → Prop}
    (h : Meets (fun _ => False) (fun a t u => t = u ∧ F a t) (fun e t u => t = u ∧ E e t) r r') :
    r = r' ∧ Ends F E r := by
  cases h with
  | ok h => exact ⟨congrArg _ h.1, h.2⟩
  | error h => exact ⟨congrArg _ h.1, h.2⟩
  | lost h => exact h.elim

/-- Two actions put together from two. -/
theorem bind {x y : Eval α} {f g : α → Eval β} {G : β → State → State → Prop} {s t : State}
    (h : Meets D F E (x s) (y t))
    (hf : ∀ a u v, x s = .ok a u → F a u v → Meets D G E (f a u) (g a v)) :
    Meets D G E ((x >>= f : Eval β) s) ((y >>= g : Eval β) t) := by
  show Meets D G E (EStateM.bind x f s) (EStateM.bind y g t)
  rw [EStateM.bind, EStateM.bind]
  generalize hx : x s = r at h
  generalize y t = r' at h
  cases h with
  | ok h => exact hf _ _ _ hx h
  | error h => exact .error h
  | lost h => exact .lost h

end Meets

/-! ### One more candidate -/

/-- What is known, on two sides, of the reads before a stage and of its judgements. -/
structure Contract where
  /-- What the first side may fail with on its own. -/
  lost : Error → Prop
  /-- What holds before a read. -/
  before : State → State → Prop
  /-- What holds after a read that has found these nodes. -/
  found (stop : Option Nat) (nodes : List Node) : State → State → Prop
  /-- What holds after a read that has failed. -/
  failed (stop : Option Nat) (e : Error) : State → State → Prop
  /-- What holds after the judgement of one of the nodes that have been found. -/
  judged (nodes : List Node) (n : Node) (verdict : Verdict) : State → State → Prop
  /-- What holds after such a judgement has failed. -/
  refused (nodes : List Node) (n : Node) (e : Error) : State → State → Prop

namespace Contract

/-- The reads before a stage do what is known of them. -/
def Reads (k : Contract) (source source' : Option Nat → Eval (List Node)) : Prop :=
  ∀ stop s t, k.before s t →
    Meets k.lost (k.found stop) (k.failed stop) (source stop s) (source' stop t)

/-- The same number literal, or judgements that do what is known of them. -/
inductive Judges (k : Contract) (source source' : Option Nat → Eval (List Node)) (stage : Stage) :
    Predicate → Predicate → Prop
  | position (x : Float) : Judges k source source' stage (.position x) (.position x)
  | test {judge judge' : Context → Eval Verdict}
      (h : ∀ {nodes n s t}, stage.closed = false → nodes[stage.taken]? = some n →
        k.found (some stage.taken) nodes s t →
          Meets k.lost (k.judged nodes n) (k.refused nodes n)
            (judge ⟨n, stage.tried + 1, Predicate.size source⟩ s)
            (judge' ⟨n, stage.tried + 1, Predicate.size source'⟩ t)) :
      Judges k source source' stage (.test judge) (.test judge')

end Contract

/-- What a stage gives after a verdict. -/
def Verdict.answer (n : Node) : Verdict → Pull
  | picked => .node n
  | kept => .node n
  | dropped => .nothing

namespace Stage

/-- What becomes of a stage after a verdict. -/
def judged (stage : Stage) : Verdict → Stage
  | .picked => stage.advanced.shut
  | .kept => stage.advanced
  | .dropped => stage.advanced

theorem kept_judged (stage : Stage) (v : Verdict) : (stage.judged v).kept = stage.kept := by
  cases v <;> rfl

theorem taken_judged (stage : Stage) (v : Verdict) : (stage.judged v).taken = stage.taken + 1 := by
  cases v <;> rfl

variable (k : Contract)

/-- What becomes of a stage that is asked once, and what it gives. -/
inductive Asked : Predicate → Stage → Pull → State → State → Prop
  /-- A number literal has looked before. -/
  | looked {x stage log log' rest rest'} (hc : stage.closed = true)
      (h : k.before ⟨log, rest⟩ ⟨log', rest'⟩) :
      Asked (.position x) stage .finished ⟨log, stage :: rest⟩ ⟨log', stage :: rest'⟩
  | missed {x stage log log' rest rest' nodes} (hc : stage.closed = false)
      (hn : nodes[Number.wholePart x - 1]? = none)
      (h : k.found (some (Number.wholePart x - 1)) nodes ⟨log, rest⟩ ⟨log', rest'⟩) :
      Asked (.position x) stage .finished ⟨log, stage.shut :: rest⟩ ⟨log', stage.shut :: rest'⟩
  | hit {x stage log log' rest rest' nodes n} (hc : stage.closed = false)
      (hn : nodes[Number.wholePart x - 1]? = some n)
      (h : k.found (some (Number.wholePart x - 1)) nodes ⟨log, rest⟩ ⟨log', rest'⟩) :
      Asked (.position x) stage (.node n) ⟨log, stage.shut :: rest⟩ ⟨log', stage.shut :: rest'⟩
  /-- A stage that wants no more keeps a failure of those before it to itself. -/
  | hushed {judge stage log log' rest rest' e} (hc : stage.closed = true)
      (h : k.failed (some stage.taken) e ⟨log, rest⟩ ⟨log', rest'⟩) :
      Asked (.test judge) stage .finished ⟨log, stage.attempted :: rest⟩
        ⟨log', stage.attempted :: rest'⟩
  | ended {judge stage log log' rest rest' nodes} (hn : nodes[stage.taken]? = none)
      (h : k.found (some stage.taken) nodes ⟨log, rest⟩ ⟨log', rest'⟩) :
      Asked (.test judge) stage .finished ⟨log, stage :: rest⟩ ⟨log', stage :: rest'⟩
  /-- A stage that wants no more takes one more. -/
  | late {judge stage log log' rest rest' nodes n} (hc : stage.closed = true)
      (hn : nodes[stage.taken]? = some n)
      (h : k.found (some stage.taken) nodes ⟨log, rest⟩ ⟨log', rest'⟩) :
      Asked (.test judge) stage .finished ⟨log, stage.advanced :: rest⟩
        ⟨log', stage.advanced :: rest'⟩
  | judged {judge stage log log' rest rest' nodes n} (hc : stage.closed = false)
      (hn : nodes[stage.taken]? = some n) (v : Verdict)
      (h : k.judged nodes n v ⟨log, rest⟩ ⟨log', rest'⟩) :
      Asked (.test judge) stage (v.answer n) ⟨log, stage.judged v :: rest⟩
        ⟨log', stage.judged v :: rest'⟩

/-- What becomes of a stage that fails when it is asked once. -/
inductive Failed : Predicate → Stage → Error → State → State → Prop
  | looking {x stage log log' rest rest' e} (hc : stage.closed = false)
      (h : k.failed (some (Number.wholePart x - 1)) e ⟨log, rest⟩ ⟨log', rest'⟩) :
      Failed (.position x) stage e ⟨log, stage.shut :: rest⟩ ⟨log', stage.shut :: rest'⟩
  | trying {judge stage log log' rest rest' e} (hc : stage.closed = false)
      (h : k.failed (some stage.taken) e ⟨log, rest⟩ ⟨log', rest'⟩) :
      Failed (.test judge) stage e ⟨log, stage.attempted :: rest⟩ ⟨log', stage.attempted :: rest'⟩
  | judging {judge stage log log' rest rest' nodes n e} (hc : stage.closed = false)
      (hn : nodes[stage.taken]? = some n) (h : k.refused nodes n e ⟨log, rest⟩ ⟨log', rest'⟩) :
      Failed (.test judge) stage e ⟨log, stage.advanced :: rest⟩ ⟨log', stage.advanced :: rest'⟩

end Stage

namespace Predicate

open Stage

variable {k : Contract} {source source' : Option Nat → Eval (List Node)}
  (hs : k.Reads source source') {stage : Stage} {log log' : List String}
  {rest rest' : List Stage} (h : k.before ⟨log, rest⟩ ⟨log', rest'⟩)

include hs h

theorem pullPosition_asked (x : Float) :
    Meets k.lost (Asked k (.position x) stage) (Failed k (.position x) stage)
      (pullPosition source x ⟨log, stage :: rest⟩)
      (pullPosition source' x ⟨log', stage :: rest'⟩) := by
  rw [pullPosition_cons, pullPosition_cons]
  by_cases hc : stage.closed = true
  · rw [if_pos hc, if_pos hc]
    exact .ok (.looked hc h)
  rw [if_neg hc, if_neg hc]
  have hc : stage.closed = false := by simpa using hc
  have hread := hs (some (Number.wholePart x - 1)) ⟨log, rest⟩ ⟨log', rest'⟩ h
  generalize source (some (Number.wholePart x - 1)) ⟨log, rest⟩ = r at hread
  generalize source' (some (Number.wholePart x - 1)) ⟨log', rest'⟩ = r' at hread
  cases hread with
  | lost h => exact .lost h
  | error h => exact .error (.looking hc h)
  | @ok nodes t u h =>
    dsimp only
    cases hn : nodes[Number.wholePart x - 1]? with
    | none => exact .ok (.missed hc hn h)
    | some n => exact .ok (.hit hc hn h)

/-- A failure that only one side may have must not be hidden. -/
theorem pullNext_asked {judge judge' : Context → Eval Verdict}
    (hj : k.Judges source source' stage (.test judge) (.test judge'))
    (hlost : stage.closed = true → ∀ e, ¬ k.lost e) :
    Meets k.lost (Asked k (.test judge) stage) (Failed k (.test judge) stage)
      (pullNext source judge ⟨log, stage :: rest⟩)
      (pullNext source' judge' ⟨log', stage :: rest'⟩) := by
  cases hj with
  | test hj =>
    rw [pullNext_cons, pullNext_cons]
    have hread := hs (some stage.taken) ⟨log, rest⟩ ⟨log', rest'⟩ h
    generalize source (some stage.taken) ⟨log, rest⟩ = r at hread
    generalize source' (some stage.taken) ⟨log', rest'⟩ = r' at hread
    by_cases hc : stage.closed = true
    · cases hread with
      | lost h => exact (hlost hc _ h).elim
      | error h =>
        dsimp only
        rw [if_pos hc, if_pos hc]
        exact .ok (.hushed hc h)
      | @ok nodes t u h =>
        dsimp only
        cases hn : nodes[stage.taken]? with
        | none => exact .ok (.ended hn h)
        | some n =>
          dsimp only
          rw [if_pos hc, if_pos hc]
          exact .ok (.late hc hn h)
    have hopen : stage.closed = false := by simpa using hc
    cases hread with
    | lost h =>
      dsimp only
      rw [if_neg hc]
      exact .lost h
    | error h =>
      dsimp only
      rw [if_neg hc, if_neg hc]
      exact .error (.trying hopen h)
    | @ok nodes t u h =>
      dsimp only
      cases hn : nodes[stage.taken]? with
      | none => exact .ok (.ended hn h)
      | some n =>
        have hjudged := hj hopen hn h
        dsimp only
        rw [if_neg hc, if_neg hc]
        generalize judge ⟨n, stage.tried + 1, size source⟩ t = r at hjudged
        generalize judge' ⟨n, stage.tried + 1, size source'⟩ u = r' at hjudged
        cases hjudged with
        | lost h => exact .lost h
        | error h => exact .error (.judging hopen hn h)
        | @ok v _ _ h =>
          cases v with
          | picked => exact .ok (.judged hopen hn .picked h)
          | kept => exact .ok (.judged hopen hn .kept h)
          | dropped => exact .ok (.judged hopen hn .dropped h)

/-- Asked once more, a stage does the same on both sides. -/
theorem pull_asked {p p' : Predicate} (hp : k.Judges source source' stage p p')
    (hlost : stage.closed = true → ∀ e, ¬ k.lost e) :
    Meets k.lost (Asked k p stage) (Failed k p stage) (p.pull source ⟨log, stage :: rest⟩)
      (p'.pull source' ⟨log', stage :: rest'⟩) := by
  cases hp with
  | position x => exact pullPosition_asked hs h x
  | test hj => exact pullNext_asked hs h (.test hj) hlost

end Predicate

/-- A contract of one relation. -/
def Contract.of (D : Error → Prop) (R : State → State → Prop) : Contract where
  lost := D
  before := R
  found _ _ := R
  failed _ _ := R
  judged _ _ _ := R
  refused _ _ _ := R

namespace Stage

/-- States with the same stage, before which a relation holds. -/
inductive Beside (R : State → State → Prop) : State → State → Prop
  | intro (stage : Stage) {log log' : List String} {rest rest' : List Stage}
      (h : R ⟨log, rest⟩ ⟨log', rest'⟩) : Beside R ⟨log, stage :: rest⟩ ⟨log', stage :: rest'⟩

variable {D : Error → Prop} {R : State → State → Prop} {p : Predicate} {stage : Stage}
  {s t : State}

theorem Asked.beside {answer : Pull} (h : Asked (.of D R) p stage answer s t) : Beside R s t := by
  cases h with
  | looked _ h => exact .intro _ h
  | missed _ _ h => exact .intro _ h
  | hit _ _ h => exact .intro _ h
  | hushed _ h => exact .intro _ h
  | ended _ h => exact .intro _ h
  | late _ _ h => exact .intro _ h
  | judged _ _ v h => exact .intro _ h

theorem Failed.beside {e : Error} (h : Failed (.of D R) p stage e s t) : Beside R s t := by
  cases h with
  | looking _ h => exact .intro _ h
  | trying _ h => exact .intro _ h
  | judging _ _ h => exact .intro _ h

end Stage

/-! ### Reads -/

/-- What does not answer a read has not come to its end. -/
theorem Sequence.not_exhausted_of_answers {q : Sequence} {stop : Option Nat}
    (h : q.answers stop = false) : q.exhausted = false := by
  cases stop with
  | none => exact h
  | some i => exact (Bool.or_eq_false_iff.1 h).1

namespace Stage

/-- What a stage remembers after an answer. -/
def noted (answer : Pull) (q : Sequence) : Sequence :=
  match answer with
  | .node n => q.extended n
  | .nothing => q.released
  | .finished => q.ended

/-- The state in which the nearest stage remembers something else. -/
def noting (f : Sequence → Sequence) (s : State) : State := place.set s (f (place.get s))

/-- Where no stage is left, none can be asked. -/
theorem exists_cons_of_idle {s : State} (h : (place.get s).busy = false) :
    ∃ log stage rest, s = ⟨log, stage :: rest⟩ := by
  obtain ⟨log, _ | ⟨stage, rest⟩⟩ := s
  · cases h
  · exact ⟨log, stage, rest, rfl⟩

variable {D : Error → Prop} {W : Nat → Nat → State → State → Prop} {F : State → State → Prop}
  {E : Error → State → State → Prop} {pull pull' : Eval Pull} {stop : Option Nat}

/-- What has to hold after one round of a read: the end if there are no more nodes, and otherwise
what the next round starts from. -/
def Round (W F : State → State → Prop) (answer : Pull) (s t : State) : Prop :=
  match answer with
  | .finished => F (noting (noted answer) s) (noting (noted answer) t)
  | _ => W (noting (noted answer) s) (noting (noted answer) t)

/-- Two reads keep to what each round keeps to, if they remember the same and are allowed as many
rounds as they need. -/
theorem fill_meets (hkept : ∀ {m m' s t}, W m m' s t → place.get s = place.get t)
    (hfuel : ∀ {m m' s t}, W m m' s t →
      m = 0 ∧ m' = 0 ∧ F s t ∨ ∃ l l', m = l + 1 ∧ m' = l' + 1)
    (hanswered : ∀ {m m' s t}, W m m' s t → (place.get s).answers stop = true → F s t)
    (hbusy : ∀ {m m' s t}, W m m' s t → (place.get s).answers stop = false →
      (place.get s).busy = true → E Sequence.outOfTurn s t)
    (hround : ∀ {m m' log log' stage stage' rest rest'},
      W (m + 1) (m' + 1) ⟨log, stage :: rest⟩ ⟨log', stage' :: rest'⟩ →
      stage.kept.answers stop = false → stage.kept.busy = false →
      Meets D (Round (W m m') F)
        (fun e u v => E e (noting Sequence.released u) (noting Sequence.released v))
        (pull ⟨log, stage.remember stage.kept.occupied :: rest⟩)
        (pull' ⟨log', stage'.remember stage'.kept.occupied :: rest'⟩))
    {m m' : Nat} {s t : State} (h : W m m' s t) :
    Meets D (fun _ => F) E (place.fill pull stop m s) (place.fill pull' stop m' t) := by
  induction m generalizing m' s t with
  | zero =>
    obtain ⟨-, rfl, hdone⟩ | ⟨l, l', hl, -⟩ := hfuel h
    · exact .ok hdone
    · omega
  | succ m ih =>
    obtain ⟨m', rfl⟩ : ∃ l, m' = l + 1 := by
      obtain ⟨h, -⟩ | ⟨l, l', -, hl'⟩ := hfuel h
      · omega
      · exact ⟨l', hl'⟩
    have hsame := hkept h
    by_cases ha : (place.get s).answers stop = true
    · rw [fill_of_answers ha, fill_of_answers (hsame ▸ ha)]
      exact .ok (hanswered h ha)
    have ha : (place.get s).answers stop = false := by simpa using ha
    by_cases hb : (place.get s).busy = true
    · rw [fill_of_busy ha hb, fill_of_busy (hsame ▸ ha) (hsame ▸ hb)]
      exact .error (hbusy h ha hb)
    have hb : (place.get s).busy = false := by simpa using hb
    obtain ⟨log, stage, rest, rfl⟩ := exists_cons_of_idle hb
    obtain ⟨log', stage', rest', rfl⟩ := exists_cons_of_idle (hsame ▸ hb)
    have ha' : stage'.kept.answers stop = false := by rwa [hsame] at ha
    have hb' : stage'.kept.busy = false := by rwa [hsame] at hb
    have ha : stage.kept.answers stop = false := ha
    have hb : stage.kept.busy = false := hb
    rw [fill_succ _ _ _ _ _ ha hb, fill_succ _ _ _ _ _ ha' hb']
    have hpull := hround h ha hb
    generalize pull ⟨log, stage.remember stage.kept.occupied :: rest⟩ = r at hpull
    generalize pull' ⟨log', stage'.remember stage'.kept.occupied :: rest'⟩ = r' at hpull
    cases hpull with
    | lost h => exact .lost h
    | error h => exact .error h
    | @ok answer _ _ h =>
      cases answer with
      | node n => exact ih h
      | nothing => exact ih h
      | finished => exact .ok h

/-- So it is with two reads that are allowed as many rounds as each other. -/
theorem fill_meets_together {W : Nat → State → State → Prop}
    (hkept : ∀ {m s t}, W m s t → place.get s = place.get t) (hfuel : ∀ {s t}, W 0 s t → F s t)
    (hanswered : ∀ {m s t}, W m s t → (place.get s).answers stop = true → F s t)
    (hbusy : ∀ {m s t}, W m s t → (place.get s).answers stop = false →
      (place.get s).busy = true → E Sequence.outOfTurn s t)
    (hround : ∀ {m log log' stage stage' rest rest'},
      W (m + 1) ⟨log, stage :: rest⟩ ⟨log', stage' :: rest'⟩ →
      stage.kept.answers stop = false → stage.kept.busy = false →
      Meets D (Round (W m) F)
        (fun e u v => E e (noting Sequence.released u) (noting Sequence.released v))
        (pull ⟨log, stage.remember stage.kept.occupied :: rest⟩)
        (pull' ⟨log', stage'.remember stage'.kept.occupied :: rest'⟩))
    {m : Nat} {s t : State} (h : W m s t) :
    Meets D (fun _ => F) E (place.fill pull stop m s) (place.fill pull' stop m t) := by
  refine fill_meets (W := fun m m' s t => m = m' ∧ W m s t) (fun h => hkept h.2) ?_
    (fun h => hanswered h.2) (fun h => hbusy h.2) ?_ ⟨rfl, h⟩
  · rintro (_ | m) _ s t ⟨rfl, h⟩
    · exact .inl ⟨rfl, rfl, hfuel h⟩
    · exact .inr ⟨m, m, rfl, rfl⟩
  · rintro m _ log log' stage stage' rest rest' ⟨hm, h⟩ ha hb
    obtain rfl := Nat.succ.inj hm
    refine (hround h ha hb).mono (fun answer u v h => ?_) fun _ _ _ h => h
    cases answer with
    | node n => exact ⟨rfl, h⟩
    | nothing => exact ⟨rfl, h⟩
    | finished => exact h

end Stage

namespace Candidates

open Stage

variable {D : Error → Prop} {F : State → State → Prop} {E : Error → State → State → Prop}
  {nodes nodes' : List Node} {p p' : Predicate} {earlier earlier' : List Predicate}
  {stop : Option Nat} {s t : State}

/-- What predicates keep is what the stage of the last one remembers once it has been read. -/
theorem read_meets
    (h : Meets D (fun _ => F) E
      (place.fill (p.pull (read nodes earlier)) stop (nodes.length + 1) s)
      (place.fill (p'.pull (read nodes' earlier')) stop (nodes'.length + 1) t))
    (hkept : ∀ {s t}, F s t → place.get s = place.get t) :
    Meets D (fun found s t => found = (place.get s).found ∧ F s t) E
      (read nodes (p :: earlier) stop s) (read nodes' (p' :: earlier') stop t) := by
  rw [read_cons, read_cons]
  generalize place.fill (p.pull (read nodes earlier)) stop (nodes.length + 1) s = r at h
  generalize place.fill (p'.pull (read nodes' earlier')) stop (nodes'.length + 1) t = r' at h
  cases h with
  | lost h => exact .lost h
  | error h => exact .error h
  | @ok _ u v h =>
    have hsame : (nearest u).kept = (nearest v).kept := hkept h
    dsimp only
    rw [← hsame]
    exact .ok ⟨rfl, h⟩

/-! ### Visits -/

variable {β : Type} {enough : β → Bool} {visit visit' : Node → β → Eval β}
  {ps ps' : List Predicate}
  {W : Nat → Nat → Nat → List Stage → List Stage → β → State → State → Prop}
  {J : β → State → State → Prop}

/-- Two walks keep to what each visit keeps to, if they are allowed as many visits as they need. -/
theorem eachFrom_meets
    (hfuel : ∀ {m m' i stages stages' b s t}, W m m' i stages stages' b s t →
      m = 0 ∧ m' = 0 ∧ J b s t ∨ ∃ l l', m = l + 1 ∧ m' = l' + 1)
    (henough : ∀ {m m' i stages stages' b s t}, W m m' i stages stages' b s t →
      enough b = true → J b s t)
    (hread : ∀ {m m' i stages stages' b s t}, W (m + 1) (m' + 1) i stages stages' b s t →
      enough b = false →
      Meets D
        (fun found u v => match found[i]? with
          | none => J b ⟨u.log, s.stages⟩ ⟨v.log, t.stages⟩
          | some n => Meets D (W m m' (i + 1) u.stages v.stages) E
              (visit n b ⟨u.log, s.stages⟩) (visit' n b ⟨v.log, t.stages⟩))
        (fun e u v => E e ⟨u.log, s.stages⟩ ⟨v.log, t.stages⟩)
        (read nodes ps (some i) ⟨s.log, stages⟩) (read nodes' ps' (some i) ⟨t.log, stages'⟩))
    {m m' i : Nat} {stages stages' : List Stage} {b : β} (h : W m m' i stages stages' b s t) :
    Meets D J E (eachFrom nodes ps enough visit m i stages b s)
      (eachFrom nodes' ps' enough visit' m' i stages' b t) := by
  induction m generalizing m' i stages stages' b s t with
  | zero =>
    obtain ⟨-, rfl, hdone⟩ | ⟨l, l', hl, -⟩ := hfuel h
    · exact .ok hdone
    · omega
  | succ m ih =>
    obtain ⟨m', rfl⟩ : ∃ l, m' = l + 1 := by
      obtain ⟨h, -⟩ | ⟨l, l', -, hl'⟩ := hfuel h
      · omega
      · exact ⟨l', hl'⟩
    rw [eachFrom_succ, eachFrom_succ]
    by_cases he : enough b = true
    · rw [if_pos he, if_pos he]
      exact .ok (henough h he)
    rw [if_neg he, if_neg he, within_apply, within_apply]
    have hfound := hread h (by simpa using he)
    generalize read nodes ps (some i) ⟨s.log, stages⟩ = r at hfound
    generalize read nodes' ps' (some i) ⟨t.log, stages'⟩ = r' at hfound
    cases hfound with
    | lost h => exact .lost h
    | error h => exact .error h
    | @ok found u v h =>
      dsimp only at h ⊢
      cases hn : found[i]? with
      | none =>
        rw [hn] at h
        exact .ok h
      | some n =>
        rw [hn] at h
        dsimp only at h ⊢
        generalize visit n b ⟨u.log, s.stages⟩ = r at h
        generalize visit' n b ⟨v.log, t.stages⟩ = r' at h
        cases h with
        | lost h => exact .lost h
        | error h => exact .error h
        | ok h => exact ih h

/-- So it is with two walks that are allowed as many visits as each other. -/
theorem eachFrom_meets_together
    {W : Nat → Nat → List Stage → List Stage → β → State → State → Prop}
    (hfuel : ∀ {i stages stages' b s t}, W 0 i stages stages' b s t → J b s t)
    (henough : ∀ {m i stages stages' b s t}, W m i stages stages' b s t →
      enough b = true → J b s t)
    (hread : ∀ {m i stages stages' b s t}, W (m + 1) i stages stages' b s t →
      enough b = false →
      Meets D
        (fun found u v => match found[i]? with
          | none => J b ⟨u.log, s.stages⟩ ⟨v.log, t.stages⟩
          | some n => Meets D (W m (i + 1) u.stages v.stages) E
              (visit n b ⟨u.log, s.stages⟩) (visit' n b ⟨v.log, t.stages⟩))
        (fun e u v => E e ⟨u.log, s.stages⟩ ⟨v.log, t.stages⟩)
        (read nodes ps (some i) ⟨s.log, stages⟩) (read nodes' ps' (some i) ⟨t.log, stages'⟩))
    {m i : Nat} {stages stages' : List Stage} {b : β} (h : W m i stages stages' b s t) :
    Meets D J E (eachFrom nodes ps enough visit m i stages b s)
      (eachFrom nodes' ps' enough visit' m i stages' b t) := by
  refine eachFrom_meets
    (W := fun m m' i stages stages' b s t => m = m' ∧ W m i stages stages' b s t)
    ?_ (fun h => henough h.2) ?_ ⟨rfl, h⟩
  · rintro (_ | m) _ i stages stages' b s t ⟨rfl, h⟩
    · exact .inl ⟨rfl, rfl, hfuel h⟩
    · exact .inr ⟨m, m, rfl, rfl⟩
  · rintro m _ i stages stages' b s t ⟨hm, h⟩ he
    obtain rfl := Nat.succ.inj hm
    refine (hread h he).mono (fun found u v h => ?_) fun _ _ _ h => h
    cases hn : found[i]? with
    | none =>
      rw [hn] at h
      exact h
    | some n =>
      rw [hn] at h
      exact h.mono (fun _ _ _ h => ⟨rfl, h⟩) fun _ _ _ h => h

end Candidates

/-! ### What one run keeps to -/

/-- Where something holds the action leaves a state where it holds, or fails and leaves a state
where something else does. -/
def Eval.Keeps {α : Type} (P : State → Prop) (Q : Error → State → Prop) (x : Eval α) : Prop :=
  ∀ s, P s → Ends (fun _ => P) Q (x s)

theorem Ends.mono {α : Type} {F F' : α → State → Prop} {E E' : Error → State → Prop}
    {r : EStateM.Result Error State α} (h : Ends F E r) (hF : ∀ a t, F a t → F' a t)
    (hE : ∀ e t, E e t → E' e t) : Ends F' E' r := by
  cases r with
  | ok a t => exact hF a t h
  | error e t => exact hE e t h

variable {P : State → Prop} {Q : Error → State → Prop}

/-- What is known, in one run, of the reads before a stage and of its judgements. -/
def Contract.alone (before : State → Prop) (found : Option Nat → List Node → State → Prop)
    (failed : Option Nat → Error → State → Prop) (judged : Node → Verdict → State → Prop)
    (refused : Node → Error → State → Prop) : Contract where
  lost _ := False
  before s t := s = t ∧ before s
  found stop nodes s t := s = t ∧ found stop nodes s
  failed stop e s t := s = t ∧ failed stop e s
  judged _ n v s t := s = t ∧ judged n v s
  refused _ n e s t := s = t ∧ refused n e s

/-- Asking a stage once, in one run. -/
theorem Predicate.pull_ends {before : State → Prop} {found : Option Nat → List Node → State → Prop}
    {failed : Option Nat → Error → State → Prop} {judged : Node → Verdict → State → Prop}
    {refused : Node → Error → State → Prop} {source : Option Nat → Eval (List Node)}
    (hs : ∀ stop s, before s → Ends (found stop) (failed stop) (source stop s)) {stage : Stage}
    {p : Predicate}
    (hj : ∀ judge, p = .test judge → ∀ {nodes n s}, stage.closed = false →
      nodes[stage.taken]? = some n → found (some stage.taken) nodes s →
        Ends (judged n) (refused n) (judge ⟨n, stage.tried + 1, size source⟩ s))
    {log : List String} {rest : List Stage} (h : before ⟨log, rest⟩) :
    Ends
      (fun answer t =>
        Stage.Asked (.alone before found failed judged refused) p stage answer t t)
      (fun e t => Stage.Failed (.alone before found failed judged refused) p stage e t t)
      (p.pull source ⟨log, stage :: rest⟩) := by
  have hreads : (Contract.alone before found failed judged refused).Reads source source := by
    rintro stop s _ ⟨rfl, h⟩
    exact .of_ends (hs stop s h)
  have hjudges :
      (Contract.alone before found failed judged refused).Judges source source stage p p := by
    cases p with
    | position x => exact .position x
    | test judge =>
      refine .test fun hc hn => ?_
      rintro ⟨rfl, h⟩
      exact .of_ends (hj judge rfl hc hn h)
  exact (pull_asked hreads ⟨rfl, h⟩ hjudges fun _ _ => id).ends

/-- A predicate that keeps to something if the candidates are counted in some way. -/
def Predicate.Keeps (P : State → Prop) (Q : Error → State → Prop) (size : Eval Nat) :
    Predicate → Prop
  | .position _ => True
  | .test judge => ∀ n position, (judge ⟨n, position, size⟩).Keeps P Q

/-- What holds before a stage that has been asked once, and still remembers the same.  If it wants
no more, the stages before it may have failed. -/
inductive Stage.Answered (P : State → Prop) (Q : Error → State → Prop) (stage : Stage) :
    Pull → State → Prop
  | reached {answer log after rest} (hkept : after.kept = stage.kept) (h : P ⟨log, rest⟩) :
      Answered P Q stage answer ⟨log, after :: rest⟩
  | hushed {log after rest e} (hkept : after.kept = stage.kept) (h : Q e ⟨log, rest⟩) :
      Answered P Q stage .finished ⟨log, after :: rest⟩

/-- What holds before a stage that has failed when it was asked once. -/
inductive Stage.Refused (Q : Error → State → Prop) (stage : Stage) : Error → State → Prop
  | intro {e log after rest} (hkept : after.kept = stage.kept) (h : Q e ⟨log, rest⟩) :
      Refused Q stage e ⟨log, after :: rest⟩

namespace Predicate

variable {source : Option Nat → Eval (List Node)} (hs : ∀ stop, (source stop).Keeps P Q)

include hs

/-- Counting the candidates keeps to what reading them does. -/
theorem size_keeps : (size source).Keeps P Q := by
  intro s h
  have hread := hs none s h
  show Ends _ Q (EStateM.bind (source none) _ s)
  rw [EStateM.bind]
  cases hr : source none s with
  | ok found t => rwa [hr] at hread
  | error e t => rwa [hr] at hread

/-- Asking a stage once keeps to what the reads before it and its judgements do. -/
theorem pull_keeps {p : Predicate} (hp : p.Keeps P Q (size source)) {log : List String}
    (stage : Stage) {rest : List Stage} (h : P ⟨log, rest⟩) :
    Ends (Stage.Answered P Q stage) (Stage.Refused Q stage)
      (p.pull source ⟨log, stage :: rest⟩) := by
  have hj : ∀ judge, p = .test judge → ∀ {nodes : List Node} {n s}, stage.closed = false →
      nodes[stage.taken]? = some n → P s →
        Ends (fun _ => P) Q (judge ⟨n, stage.tried + 1, size source⟩ s) := by
    rintro judge rfl nodes n s _ _ h
    exact hp _ _ s h
  refine (pull_ends (fun stop => hs stop) hj h).mono (fun answer t h => ?_) fun e t h => ?_
  · cases h with
    | looked _ h => exact .reached rfl h.2
    | missed _ _ h => exact .reached rfl h.2
    | hit _ _ h => exact .reached rfl h.2
    | hushed _ h => exact .hushed rfl h.2
    | ended _ h => exact .reached rfl h.2
    | late _ _ h => exact .reached rfl h.2
    | judged _ _ v h => exact .reached (Stage.kept_judged stage v) h.2
  · cases h with
    | looking _ h => exact .intro rfl h.2
    | trying _ h => exact .intro rfl h.2
    | judging _ _ h => exact .intro rfl h.2

end Predicate

section Ends

variable {P : Nat → State → Prop} {F : State → Prop} {pull : Eval Pull} {stop : Option Nat}

/-- What holds at the end of a read, if there is an invariant of its rounds. -/
theorem Stage.fill_ends (hfuel : ∀ {s}, P 0 s → F s)
    (hanswered : ∀ {m s}, P m s → (place.get s).answers stop = true → F s)
    (hbusy : ∀ {m s}, P m s → (place.get s).answers stop = false → (place.get s).busy = true →
      Q Sequence.outOfTurn s)
    (hround : ∀ {m log stage rest}, P (m + 1) ⟨log, stage :: rest⟩ →
      stage.kept.answers stop = false → stage.kept.busy = false →
      Ends
        (fun answer s => match answer with
          | .finished => F (noting (noted answer) s)
          | _ => P m (noting (noted answer) s))
        (fun e s => Q e (noting Sequence.released s))
        (pull ⟨log, stage.remember stage.kept.occupied :: rest⟩)) {m : Nat} {s : State}
    (h : P m s) : Ends (fun _ => F) Q (place.fill pull stop m s) := by
  have hmeets : Meets (fun _ => False) (fun _ s t => s = t ∧ F s) (fun e s t => s = t ∧ Q e s)
      (place.fill pull stop m s) (place.fill pull stop m s) := by
    refine fill_meets_together (W := fun m s t => s = t ∧ P m s) (fun h => congrArg _ h.1)
      (fun h => ⟨h.1, hfuel h.2⟩) (fun h ha => ⟨h.1, hanswered h.2 ha⟩)
      (fun h ha hb => ⟨h.1, hbusy h.2 ha hb⟩) ?_ ⟨rfl, h⟩
    · rintro m log _ stage _ rest _ ⟨⟨⟩, h⟩ ha hb
      refine (Meets.of_ends (hround h ha hb)).mono ?_ ?_
      · rintro answer s _ ⟨rfl, h⟩
        cases answer with
        | node n => exact ⟨rfl, h⟩
        | nothing => exact ⟨rfl, h⟩
        | finished => exact ⟨rfl, h⟩
      · rintro e s _ ⟨rfl, h⟩
        exact ⟨rfl, h⟩
  exact hmeets.ends.mono (fun _ _ h => h.2) fun _ _ h => h.2

/-- What holds at the end of a read of what predicates keep. -/
theorem Candidates.read_cons_ends {nodes : List Node} {p : Predicate} {earlier : List Predicate}
    {s : State} (h : Ends (fun _ => F) Q
      (Stage.place.fill (p.pull (read nodes earlier)) stop (nodes.length + 1) s)) :
    Ends (fun found t => found = (Stage.place.get t).found ∧ F t) Q
      (read nodes (p :: earlier) stop s) := by
  have hfill : Meets (fun _ => False) (fun _ s t => s = t ∧ F s) (fun e s t => s = t ∧ Q e s) _ _ :=
    .of_ends h
  have hread := read_meets hfill fun hst => congrArg _ hst.1
  exact hread.ends.mono (fun _ _ h => ⟨h.1, h.2.2⟩) fun _ _ h => h.2

variable {β : Type} {nodes : List Node} {ps : List Predicate} {enough : β → Bool}
  {visit : Node → β → Eval β} {W : Nat → Nat → List Stage → β → State → Prop}
  {J : β → State → Prop}

/-- What holds at the end of a walk, if there is an invariant of its visits. -/
theorem Candidates.eachFrom_ends
    (hfuel : ∀ {i stages b s}, W 0 i stages b s → J b s)
    (henough : ∀ {m i stages b s}, W m i stages b s → enough b = true → J b s)
    (hread : ∀ {m i stages b s}, W (m + 1) i stages b s → enough b = false →
      Ends
        (fun found u => match found[i]? with
          | none => J b ⟨u.log, s.stages⟩
          | some n => Ends (W m (i + 1) u.stages) Q (visit n b ⟨u.log, s.stages⟩))
        (fun e u => Q e ⟨u.log, s.stages⟩) (read nodes ps (some i) ⟨s.log, stages⟩))
    {m i : Nat} {stages : List Stage} {b : β} {s : State} (h : W m i stages b s) :
    Ends J Q (eachFrom nodes ps enough visit m i stages b s) := by
  have hmeets : Meets (fun _ => False) (fun b s t => s = t ∧ J b s) (fun e s t => s = t ∧ Q e s)
      (eachFrom nodes ps enough visit m i stages b s)
      (eachFrom nodes ps enough visit m i stages b s) := by
    refine eachFrom_meets_together
      (W := fun m i stages stages' b s t => stages = stages' ∧ s = t ∧ W m i stages b s)
      (fun h => ⟨h.2.1, hfuel h.2.2⟩) (fun h he => ⟨h.2.1, henough h.2.2 he⟩) ?_ ⟨rfl, rfl, h⟩
    · rintro m i stages _ b s _ ⟨rfl, rfl, h⟩ he
      refine (Meets.of_ends (hread h he)).mono ?_ ?_
      · rintro found u _ ⟨rfl, h⟩
        cases hn : found[i]? with
        | none =>
          rw [hn] at h
          exact ⟨rfl, h⟩
        | some n =>
          rw [hn] at h
          refine (Meets.of_ends h).mono ?_ fun _ _ _ h => h
          rintro b' s _ ⟨rfl, h⟩
          exact ⟨rfl, rfl, h⟩
      · rintro e u _ ⟨rfl, h⟩
        exact ⟨rfl, h⟩
  exact hmeets.ends.mono (fun _ _ h => h.2) fun _ _ h => h.2

end Ends

/-- A read keeps to what one round of it does. -/
theorem Stage.fill_keeps {pull : Eval Pull} {stop : Option Nat}
    (hbusy : ∀ s, P s → (place.get s).answers stop = false → (place.get s).busy = true →
      Q Sequence.outOfTurn s)
    (hround : ∀ {log stage rest}, P ⟨log, stage :: rest⟩ → stage.kept.answers stop = false →
      stage.kept.busy = false →
      Ends (fun answer s => P (noting (noted answer) s))
        (fun e s => Q e (noting Sequence.released s))
        (pull ⟨log, stage.remember stage.kept.occupied :: rest⟩)) (fuel : Nat) :
    Eval.Keeps P Q (place.fill pull stop fuel) := fun s h => by
  refine fill_ends (P := fun _ => P) id (fun h _ => h) (hbusy _) (fun h ha hb => ?_) h
  refine (hround h ha hb).mono (fun answer t h => ?_) fun _ _ h => h
  cases answer with
  | node n => exact h
  | nothing => exact h
  | finished => exact h

namespace Candidates

variable {nodes : List Node}

/-- A read of what predicates keep does what reading the stage of the last one does. -/
theorem read_cons_keeps {p : Predicate} {earlier : List Predicate} {stop : Option Nat}
    (h : Eval.Keeps P Q
      (Stage.place.fill (p.pull (read nodes earlier)) stop (nodes.length + 1))) :
    (read nodes (p :: earlier) stop).Keeps P Q := fun s hs =>
  (read_cons_ends (h s hs)).mono (fun _ _ h => h.2) fun _ _ h => h

/-- A walk keeps to what reading and visiting do.  The stages of the step are apart from those
around it. -/
theorem each_keeps {β : Type} {ps : List Predicate} {enough : β → Bool}
    {visit : Node → β → Eval β} {V : List Stage → State → Prop}
    (hread : ∀ {i stages s}, V stages s → Ends (fun _ u => V u.stages ⟨u.log, s.stages⟩)
      (fun e u => Q e ⟨u.log, s.stages⟩) (read nodes ps (some i) ⟨s.log, stages⟩))
    (hvisit : ∀ {stages s} n b, V stages s → Ends (fun _ => V stages) Q (visit n b s))
    (b : β) {s : State} (h : V (ps.map Stage.initial) s) :
    Ends (fun _ s => ∃ stages, V stages s) Q (each nodes ps enough visit b s) := by
  refine eachFrom_ends (W := fun _ _ stages _ => V stages) (fun h => ⟨_, h⟩) (fun h _ => ⟨_, h⟩)
    (fun {m i stages b s} h _ => ?_) h
  refine (hread h).mono (fun found u h => ?_) fun _ _ h => h
  cases found[i]? with
  | none => exact ⟨u.stages, h⟩
  | some n => exact hvisit n b h

end Candidates

/-! ### Where walks lead -/

/-- An action leads along a relation if it ends so, whether it fails or not. -/
theorem Eval.along_iff {α : Type} {R : State → State → Prop} {x : Eval α} :
    x.Along R ↔ ∀ s, Ends (fun _ t => R s t) (fun _ t => R s t) (x s) := by
  refine forall_congr' fun s => ?_
  rw [after]
  cases x s with
  | ok a t => exact Iff.rfl
  | error e t => exact Iff.rfl

namespace Candidates

/-- Predicates whose reads, on stages of their own, lead along a relation. -/
def Reads (R : State → State → Prop) (predicates : List Predicate) : Prop :=
  ∀ nodes i stages, (Stage.within stages (read nodes predicates (some i))).Along R

theorem reads_nil {R : State → State → Prop} (hR : Eval.Course R) : Reads R [] :=
  fun _ _ _ s => hR.refl s

theorem reads_stages (predicates : List Predicate) :
    Reads (fun s t => s.stages = t.stages) predicates :=
  fun _ _ stages => Stage.within_stages stages _

/-- Visiting candidates leads where reading and visiting lead. -/
theorem eachFrom_along {β : Type} {R : State → State → Prop} (hR : Eval.Course R)
    (nodes : List Node) {predicates : List Predicate} (hp : Reads R predicates) (enough : β → Bool)
    {visit : Node → β → Eval β} (hv : ∀ n b, (visit n b).Along R) (fuel i : Nat)
    (stages : List Stage) (b : β) :
    (eachFrom nodes predicates enough visit fuel i stages b).Along R := by
  refine Eval.along_iff.2 fun s => ?_
  refine eachFrom_ends (W := fun _ _ _ _ t => R s t) id (fun h _ => h)
    (fun {_ i stages b t} h _ => ?_) (hR.refl s)
  have hread := hp nodes i stages t
  rw [Eval.after, Stage.within_apply] at hread
  cases hr : read nodes predicates (some i) ⟨t.log, stages⟩ with
  | error e u =>
    rw [hr] at hread
    exact hR.trans h hread
  | ok found u =>
    rw [hr] at hread
    have ht : R s ⟨u.log, t.stages⟩ := hR.trans h hread
    rw [ends_ok]
    cases found[i]? with
    | none => exact ht
    | some n =>
      exact (Eval.along_iff.1 (hv n b) _).mono (fun _ _ h => hR.trans ht h) fun _ _ h =>
        hR.trans ht h

end Candidates

/-- Following steps leads where the reads of their predicates lead. -/
theorem Path.follow_along {R : State → State → Prop} (hR : Eval.Course R) (once : Bool)
    {strides : List Stride} (h : ∀ s ∈ strides, Candidates.Reads R s.predicates) (n : Node)
    (p : Progress) : (follow once strides n p).Along R := by
  induction strides generalizing n p with
  | nil => exact hR.pure _
  | cons stride rest ih =>
    rw [follow]
    refine Candidates.eachFrom_along hR _ (h stride (by simp)) _ (fun m p => ?_) _ _ _ _
    split
    · exact hR.pure _
    · exact ih (fun s hs => h s (by simp [hs])) m _

end XPath
