/-
Stages deliver what predicates leave.

While predicates are steady, the stages of a step find, one read after the other, what the
predicates leave of the candidates: a read gives the nodes that it asks for, or fails if the list
breaks off before.  After a failure nothing more is known of a stage, but nobody asks it again: the
evaluation fails as well, or the failure concerns a stage that has picked its candidate and is done.

* `Candidates.Delivers` — reads that give the nodes of a list that may break off;
* `Stage.Due`, `Stage.Follows`, `Stage.Tracked` — how far a stage has got, and all of a step;
* `Predicate.pull_follows`, `Stage.fill_follows` — asking a stage once, and until it can answer;
* `Candidates.delivers_read` — what a read gives;
* `Candidates.comes_each`, `Path.comes_select` — what visits and paths come to;
* `Accord.interpretations_steadiness` — in a steady library the evaluation is steady.
-/
import XPath.Proofs.Evaluation.Rules
import XPath.Proofs.Evaluation.Supply
import XPath.Proofs.Evaluation.Reading

namespace XPath

/-! ### Delivering -/

/-- What a read of a list that may break off ends with. -/
def Supply.Delivered (S : Supply) (I : List Stage → Prop) (stop : Option Nat) :
    EStateM.Result Error State (List Node) → Prop
  | .ok found t => S.answers stop = true ∧ Candidates.Shown S.nodes found stop ∧ I t.stages
  | .error _ _ => S.answers stop = false

/-- Among stages of some kind reads give the nodes of a list that may break off. -/
def Candidates.Delivers (I : List Stage → Prop) (source : Option Nat → Eval (List Node))
    (S : Supply) : Prop :=
  ∀ stop s, I s.stages → S.Delivered I stop (source stop s)

namespace Supply

variable {S : Supply} {i : Nat}

/-- A read beyond the nodes of a list is answered only if the list ends there. -/
theorem complete_of_answers (h : S.answers (some i) = true) (hi : S.nodes[i]? = none) :
    S.complete = true := by
  rw [List.getElem?_eq_none_iff] at hi
  simpa [answers, Nat.not_lt.2 hi] using h

theorem of_not_answers (h : S.answers (some i) = false) :
    S.complete = false ∧ S.nodes.length ≤ i := by
  simpa [answers] using h

end Supply

/-- The candidates are counted unless the list of them breaks off. -/
theorem Predicate.comes_size {I : List Stage → Prop} {source : Option Nat → Eval (List Node)}
    {S : Supply} (hs : Candidates.Delivers I source S) : (size source).Comes I S.size? := by
  intro s hI
  have hread := hs none s hI
  show Amounts I _ (EStateM.bind (source none) _ s)
  rw [EStateM.bind, Supply.size?]
  cases h : source none s with
  | error e t =>
    rw [h] at hread
    have hc : S.complete = false := hread
    rw [hc]
    exact rfl
  | ok found t =>
    rw [h] at hread
    obtain ⟨hc, hfound, ht⟩ := hread
    have hc : S.complete = true := hc
    obtain rfl : found = S.nodes := hfound
    rw [hc]
    exact ⟨rfl, ht⟩

/-! ### Stages that are on their way -/

namespace Stage

/-- What a stage that goes on has still to do with the candidates before it: a number literal has
not looked yet, and any other predicate has to leave what is missing of the whole. -/
def Due : Predicate → Supply → Stage → Prop
  | .position x, _, stage => isPosition x = true ∧ stage.kept.found = []
  | .test judge, S, stage =>
    stage.tried = stage.taken ∧
      (Supply.siftFrom judge S.size? S.complete (stage.taken + 1)
        (S.nodes.drop stage.taken)).prepend stage.kept.found = (Predicate.test judge).sift S

/-- A stage and the stages before it: either it has found all that its predicate leaves, or it goes
on, and then the stages before are of some kind. -/
inductive Follows (p : Predicate) (S : Supply) (I : List Stage → Prop) (stage : Stage)
    (rest : List Stage) : Prop
  | ended (h : stage.kept.exhausted = true ∨ stage.closed = true)
      (hfound : p.sift S = ⟨stage.kept.found, true⟩)
  | ahead (hexhausted : stage.kept.exhausted = false) (hclosed : stage.closed = false)
      (hdue : Due p S stage) (hrest : I rest)

/-- The stages of a step are on their way, and those that may still be asked are not at work. -/
def Tracked (nodes : List Node) : List Predicate → List Stage → Prop
  | [], _ => True
  | p :: earlier, stages => ∃ stage rest, stages = stage :: rest ∧ stage.kept.busy = false ∧
      Follows p (Supply.of nodes earlier) (Tracked nodes earlier) stage rest

variable {p : Predicate} {S : Supply} {I : List Stage → Prop} {stage : Stage} {rest : List Stage}

/-- Whether a stage is at work does not matter to its way. -/
theorem Follows.occupied (h : Follows p S I stage rest) :
    Follows p S I (stage.remember stage.kept.occupied) rest := by
  cases h with
  | ended h hfound => exact .ended h hfound
  | ahead he hc hdue hrest => exact .ahead he hc (by cases p <;> exact hdue) hrest

/-- What a stage remembers is what its predicate leaves, as far as a read asks for it. -/
theorem Follows.shows (h : Follows p S I stage rest) {stop : Option Nat}
    (ha : stage.kept.answers stop = true) :
    (p.sift S).answers stop = true ∧ Candidates.Shown (p.sift S).nodes stage.kept.found stop := by
  cases h with
  | ended h hfound =>
    rw [hfound]
    cases stop <;> exact ⟨rfl, rfl⟩
  | ahead he hc hdue hrest =>
    cases stop with
    | none =>
      have ha : stage.kept.exhausted = true := ha
      rw [he] at ha
      cases ha
    | some i =>
      have hi : i < stage.kept.found.length := by simpa [Sequence.answers, he] using ha
      cases p with
      | position x =>
        rw [hdue.2] at hi
        cases hi
      | test judge =>
        rw [← hdue.2, Supply.answers, Candidates.Shown, Supply.prepend,
          List.getElem?_append_left hi, List.length_append]
        exact ⟨by simp [Nat.lt_add_right _ hi], rfl⟩

section Due

variable {judge : Context → Eval Verdict} {n : Node} (h : Due (.test judge) S stage)

include h

/-- Where the candidates end or break off, so does what the predicate leaves of them. -/
theorem Due.sift_of_none (hn : S.nodes[stage.taken]? = none) :
    (Predicate.test judge).sift S = ⟨stage.kept.found, S.complete⟩ := by
  rw [← h.2, List.drop_eq_nil_of_le (List.getElem?_eq_none_iff.1 hn), Supply.siftFrom,
    Supply.prepend, List.append_nil]

variable (hn : S.nodes[stage.taken]? = some n)

include hn

/-- The next candidate is judged first. -/
theorem Due.sift_of_some :
    (Predicate.test judge).sift S =
      (Supply.siftFrom judge S.size? S.complete (stage.tried + 1)
        (n :: S.nodes.drop (stage.taken + 1))).prepend stage.kept.found := by
  obtain ⟨hlt, rfl⟩ := List.getElem?_eq_some_iff.1 hn
  rw [← h.2, List.drop_eq_getElem_cons hlt, h.1]

theorem Due.failed (hv : (judge (.known n (stage.tried + 1) S.size?)).outcome = none) :
    (Predicate.test judge).sift S = ⟨stage.kept.found, false⟩ := by
  rw [h.sift_of_some hn, Supply.siftFrom, hv]
  simp [Supply.prepend]

theorem Due.picked (hv : (judge (.known n (stage.tried + 1) S.size?)).outcome = some .picked) :
    (Predicate.test judge).sift S = ⟨stage.kept.found ++ [n], true⟩ := by
  rw [h.sift_of_some hn, Supply.siftFrom, hv]
  rfl

theorem Due.kept (hv : (judge (.known n (stage.tried + 1) S.size?)).outcome = some .kept) :
    Due (.test judge) S (stage.advanced.remember (stage.kept.extended n)) := by
  refine ⟨congrArg (· + 1) h.1, ?_⟩
  rw [h.sift_of_some hn, Supply.siftFrom, hv, h.1]
  exact (Supply.prepend_prepend _ _ _).symm

theorem Due.dropped (hv : (judge (.known n (stage.tried + 1) S.size?)).outcome = some .dropped) :
    Due (.test judge) S (stage.advanced.remember stage.kept.released) := by
  refine ⟨congrArg (· + 1) h.1, ?_⟩
  rw [h.sift_of_some hn, Supply.siftFrom, hv, h.1]
  rfl

end Due

/-- The stage of a predicate starts on its way. -/
theorem follows_initial (p : Predicate) (S : Supply) (hrest : I rest) :
    Follows p S I (initial p) rest := by
  cases p with
  | position x =>
    rw [initial]
    by_cases hx : isPosition x = true
    · rw [if_pos hx]
      exact .ahead rfl rfl ⟨hx, rfl⟩ hrest
    · rw [if_neg hx]
      exact .ended (.inl rfl) (Predicate.sift_position_of_not hx)
  | test judge => exact .ahead rfl rfl ⟨rfl, rfl⟩ hrest

theorem tracked_initial (nodes : List Node) (ps : List Predicate) :
    Tracked nodes ps (ps.map initial) := by
  induction ps with
  | nil => trivial
  | cons p earlier ih =>
    exact ⟨initial p, earlier.map initial, rfl, busy_initial p, follows_initial p _ ih⟩

end Stage

/-! ### One more candidate -/

namespace Stage

variable {p : Predicate} {S : Supply} {I : List Stage → Prop} {stage : Stage} {rest : List Stage}

/-- A stage that wants no more has found all that its predicate leaves. -/
theorem Follows.of_closed (h : Follows p S I stage rest) (hc : stage.closed = true) :
    p.sift S = ⟨stage.kept.found, true⟩ := by
  cases h with
  | ended _ hfound => exact hfound
  | ahead _ hclosed => exact (Bool.false_ne_true (hclosed.symm.trans hc)).elim

theorem Follows.of_open (h : Follows p S I stage rest) (hopen : stage.kept.exhausted = false)
    (hc : stage.closed = false) : Due p S stage ∧ I rest := by
  cases h with
  | ended h _ => simp [hopen, hc] at h
  | ahead _ _ hdue hrest => exact ⟨hdue, hrest⟩

end Stage

namespace Predicate

/-- What asking a stage once ends with: the stage is on its way and closer to its end, or it has
found all that its predicate leaves, or this breaks off. -/
def Pulled (p : Predicate) (S : Supply) (I : List Stage → Prop) (stage : Stage) :
    EStateM.Result Error State Pull → Prop :=
  Ends
    (fun answer t => ∃ stage' rest', t.stages = stage' :: rest' ∧ stage'.kept = stage.kept ∧
      match answer with
      | .finished => p.sift S = ⟨stage.kept.found, true⟩
      | _ => Stage.Follows p S I (stage'.remember (Stage.noted answer stage.kept)) rest' ∧
          Stage.left p S.nodes stage' < Stage.left p S.nodes stage)
    fun _ _ => p.sift S = ⟨stage.kept.found, false⟩

variable {I : List Stage → Prop} {source : Option Nat → Eval (List Node)} {S : Supply}
  {stage : Stage} {rest : List Stage}

/-- While a stage wants more, the reads before it deliver; after that it does not matter. -/
theorem ends_of_delivers (hs : Candidates.Delivers I source S) (stop : Option Nat) (s : State)
    (h : stage.closed = false → I s.stages) :
    Ends
      (fun found t => stage.closed = false →
        S.answers stop = true ∧ Candidates.Shown S.nodes found stop ∧ I t.stages)
      (fun _ _ => stage.closed = false → S.answers stop = false) (source stop s) := by
  have hread := fun hc => hs stop s (h hc)
  cases hr : source stop s with
  | ok found t =>
    rw [hr] at hread
    exact hread
  | error e t =>
    rw [hr] at hread
    exact hread

/-- What a judgement comes to for a candidate of a list that may break off. -/
def verdict? (S : Supply) (stage : Stage) (n : Node) : Predicate → Option Verdict
  | .position _ => none
  | .test judge => (judge (.known n (stage.tried + 1) S.size?)).outcome

theorem pull_follows {p : Predicate} (hs : Candidates.Delivers I source S) (hp : p.Steady)
    (h : Stage.Follows p S I stage rest) (hopen : stage.kept.exhausted = false)
    (log : List String) : Pulled p S I stage (p.pull source ⟨log, stage :: rest⟩) := by
  have hI : stage.closed = false → I (State.stages ⟨log, rest⟩) := fun hc => (h.of_open hopen hc).2
  -- The judgement may count the candidates, which does not disturb the stages before.
  have hj : ∀ judge, p = .test judge → ∀ {nodes : List Node} {n} {s : State},
      stage.closed = false → nodes[stage.taken]? = some n →
        (stage.closed = false →
          S.answers (some stage.taken) = true ∧
            Candidates.Shown S.nodes nodes (some stage.taken) ∧ I s.stages) →
        Ends
          (fun v t => S.nodes[stage.taken]? = some n ∧ verdict? S stage n p = some v ∧ I t.stages)
          (fun _ _ => S.nodes[stage.taken]? = some n ∧ verdict? S stage n p = none)
          (judge ⟨n, stage.tried + 1, size source⟩ s) := by
    rintro judge rfl nodes n s hc hn hfound
    obtain ⟨-, hshows, hI⟩ := hfound hc
    have hshows : nodes[stage.taken]? = S.nodes[stage.taken]? := hshows
    have hjudge := hp.comes (c := ⟨n, stage.tried + 1, size source⟩) (comes_size hs) s hI
    cases hv : judge ⟨n, stage.tried + 1, size source⟩ s with
    | ok v t =>
      rw [hv] at hjudge
      exact ⟨hshows.symm.trans hn, hjudge⟩
    | error e t =>
      rw [hv] at hjudge
      exact ⟨hshows.symm.trans hn, hjudge⟩
  refine (pull_ends (ends_of_delivers hs) hj hI).mono (fun answer t hasked => ?_)
    fun e t hfailed => ?_
  · cases hasked with
    | looked hc _ => exact ⟨_, _, rfl, rfl, h.of_closed hc⟩
    | @missed x _ _ _ _ _ nodes hc hn hfound =>
      obtain ⟨hx, hnil⟩ := (h.of_open hopen hc).1
      obtain ⟨hanswers, hshows, -⟩ := hfound.2 hc
      have hn : S.nodes[Number.wholePart x - 1]? = none := hshows.symm.trans hn
      refine ⟨_, _, rfl, rfl, ?_⟩
      rw [sift_position_none hx hn, Supply.complete_of_answers hanswers hn, hnil]
    | @hit x _ _ _ _ _ nodes n hc hn hfound =>
      obtain ⟨hx, hnil⟩ := (h.of_open hopen hc).1
      obtain ⟨-, hshows, -⟩ := hfound.2 hc
      have hn : S.nodes[Number.wholePart x - 1]? = some n := hshows.symm.trans hn
      refine ⟨_, _, rfl, rfl, .ended (.inr rfl) ?_, ?_⟩
      · rw [sift_position_some hx hn]
        simp [Stage.remember, Stage.noted, Sequence.extended, hnil]
      · have hlt : Number.wholePart x - 1 < S.nodes.length := (List.getElem?_eq_some_iff.1 hn).1
        simp only [Stage.left, Stage.shut, hc, if_true, Bool.false_eq_true, if_false]
        omega
    | hushed hc _ => exact ⟨_, _, rfl, rfl, h.of_closed hc⟩
    | @ended judge _ _ _ _ _ nodes hn hfound =>
      refine ⟨_, _, rfl, rfl, ?_⟩
      by_cases hc : stage.closed = true
      · exact h.of_closed hc
      have hc : stage.closed = false := by simpa using hc
      obtain ⟨hanswers, hshows, -⟩ := hfound.2 hc
      have hn : S.nodes[stage.taken]? = none := hshows.symm.trans hn
      rw [(h.of_open hopen hc).1.sift_of_none hn, Supply.complete_of_answers hanswers hn]
    | late hc _ _ => exact ⟨_, _, rfl, rfl, h.of_closed hc⟩
    | @judged judge _ _ _ _ _ nodes n hc hn v hjudged =>
      obtain ⟨-, hn, hv, hI⟩ := hjudged
      have hdue := (h.of_open hopen hc).1
      have hlt : stage.taken < S.nodes.length := (List.getElem?_eq_some_iff.1 hn).1
      have hleft : ∀ v, Stage.left (.test judge) S.nodes (stage.judged v) <
          Stage.left (.test judge) S.nodes stage := fun v => by
        simp only [Stage.left, Stage.taken_judged]
        omega
      cases v with
      | picked => exact ⟨_, _, rfl, rfl, .ended (.inr rfl) (hdue.picked hn hv), hleft .picked⟩
      | kept => exact ⟨_, _, rfl, rfl, .ahead hopen hc (hdue.kept hn hv) hI, hleft .kept⟩
      | dropped =>
        exact ⟨_, _, rfl, rfl, .ahead hopen hc (hdue.dropped hn hv) hI, hleft .dropped⟩
  · cases hfailed with
    | @looking x _ _ _ _ _ e hc hanswers =>
      obtain ⟨hx, hnil⟩ := (h.of_open hopen hc).1
      obtain ⟨hcomplete, hlength⟩ := Supply.of_not_answers (hanswers.2 hc)
      rw [sift_position_none hx (List.getElem?_eq_none_iff.2 hlength), hcomplete, hnil]
    | trying hc hanswers =>
      obtain ⟨hcomplete, hlength⟩ := Supply.of_not_answers (hanswers.2 hc)
      rw [(h.of_open hopen hc).1.sift_of_none (List.getElem?_eq_none_iff.2 hlength), hcomplete]
    | judging hc _ hrefused => exact (h.of_open hopen hc).1.failed hrefused.2.1 hrefused.2.2

end Predicate

/-! ### Reads -/

namespace Stage

/-- A stage that is not at work and on its way. -/
def OnWay (p : Predicate) (S : Supply) (I : List Stage → Prop) (stages : List Stage) : Prop :=
  ∃ stage rest, stages = stage :: rest ∧ stage.kept.busy = false ∧ Follows p S I stage rest

variable {p : Predicate} {S : Supply} {I : List Stage → Prop}
  {source : Option Nat → Eval (List Node)}

/-- A read ends with an answer or a failure, if there is fuel for all that the stage may have to be
asked. -/
theorem fill_follows (hs : Candidates.Delivers I source S) (hp : p.Steady) (stop : Option Nat)
    {fuel : Nat} {s : State} (h : OnWay p S I s.stages)
    (hfuel : left p S.nodes (nearest s) ≤ fuel) :
    Ends (fun _ t => OnWay p S I t.stages ∧ (place.get t).answers stop = true)
      (fun _ _ => (p.sift S).answers stop = false) (place.fill (p.pull source) stop fuel s) := by
  -- Each round uses up one of the times that the stage may have to be asked.
  refine fill_ends
    (P := fun m s => OnWay p S I s.stages ∧ left p S.nodes (nearest s) ≤ m) ?_ ?_ ?_ ?_ ⟨h, hfuel⟩
  · rintro s ⟨-, hfuel⟩
    have := left_pos p S.nodes (nearest s)
    omega
  · exact fun h ha => ⟨h.1, ha⟩
  · rintro m ⟨log, _⟩ ⟨⟨stage, rest, rfl, hidle, -⟩, -⟩ _ hb
    exact (Bool.false_ne_true (hidle.symm.trans hb)).elim
  · rintro m log stage rest ⟨⟨_, _, ⟨⟩, -, h⟩, hfuel⟩ ha _
    have hopen := Sequence.not_exhausted_of_answers ha
    have hfuel : left p S.nodes stage ≤ m + 1 := hfuel
    have hleft : left p S.nodes (stage.remember stage.kept.occupied) = left p S.nodes stage :=
      left_remember _
    refine (Predicate.pull_follows hs hp h.occupied hopen log).mono (fun answer t h => ?_)
      fun e t hsift => ?_
    · obtain ⟨tlog, _⟩ := t
      obtain ⟨stage', rest', rfl, hkept, hanswer⟩ := h
      cases answer with
      | node n =>
        obtain ⟨hfollows, hlt⟩ := hanswer
        rw [← hkept] at hfollows
        refine ⟨⟨_, _, rfl, rfl, hfollows⟩, ?_⟩
        show left p S.nodes (stage'.remember _) ≤ m
        rw [left_remember]
        omega
      | nothing =>
        obtain ⟨hfollows, hlt⟩ := hanswer
        rw [← hkept] at hfollows
        refine ⟨⟨_, _, rfl, rfl, hfollows⟩, ?_⟩
        show left p S.nodes (stage'.remember _) ≤ m
        rw [left_remember]
        omega
      | finished =>
        refine ⟨⟨_, _, rfl, rfl, .ended (.inl rfl) ?_⟩, by cases stop <;> rfl⟩
        show p.sift S = ⟨stage'.kept.found, true⟩
        rw [hanswer, hkept]
    · have hsift : p.sift S = ⟨stage.kept.found, false⟩ := hsift
      rw [hsift]
      cases stop with
      | none => rfl
      | some i => simpa [Supply.answers, Sequence.answers, hopen] using ha

end Stage

namespace Candidates

variable {nodes : List Node} {ps : List Predicate} (hp : ∀ p ∈ ps, p.Steady)

include hp

/-- Reads of what predicates keep give what they leave. -/
theorem delivers_read :
    Delivers (Stage.Tracked nodes ps) (read nodes ps) (Supply.of nodes ps) := by
  induction ps with
  | nil =>
    intro stop s _
    cases stop with
    | none => exact ⟨rfl, rfl, trivial⟩
    | some i => exact ⟨rfl, rfl, trivial⟩
  | cons p earlier ih =>
    intro stop s h
    have hearlier := ih fun q hq => hp q (by simp [hq])
    have hfuel : Stage.left p (Supply.of nodes earlier).nodes (Stage.nearest s) ≤
        nodes.length + 1 :=
      (Stage.left_le _ _ _).trans (Nat.succ_le_succ (Supply.length_of_le nodes earlier))
    have hread := read_cons_ends (Stage.fill_follows hearlier (hp p (by simp)) stop h hfuel)
    cases hr : read nodes (p :: earlier) stop s with
    | error e t => rwa [hr] at hread
    | ok found t =>
      rw [hr] at hread
      obtain ⟨rfl, h, hanswers⟩ := hread
      obtain ⟨log, _⟩ := t
      have htracked := h
      obtain ⟨stage, rest, rfl, -, hfollows⟩ := h
      obtain ⟨ha, hshows⟩ := hfollows.shows hanswers
      exact ⟨ha, hshows, htracked⟩

variable {β : Type} {enough : β → Bool} {visit : Node → β → Eval β} {v : Node → β → Option β}
  {I : List Stage → Prop} (hv : ∀ n b, (visit n b).Comes I (v n b))

include hv

theorem comes_eachFrom {fuel i : Nat} {stages : List Stage}
    (hfuel : (Supply.of nodes ps).nodes.length + 1 ≤ fuel + i)
    (hi : i ≤ (Supply.of nodes ps).nodes.length) (htracked : Stage.Tracked nodes ps stages)
    (b : β) :
    (eachFrom nodes ps enough visit fuel i stages b).Comes I
      (Supply.visitFrom enough v (Supply.of nodes ps).complete
        ((Supply.of nodes ps).nodes.drop i) b) := by
  set S := Supply.of nodes ps
  intro s hs
  have henough : ∀ {b : β}, enough b = true → ∀ complete nodes,
      Supply.visitFrom enough v complete nodes b = some b :=
    fun he complete nodes => by cases nodes <;> simp [Supply.visitFrom, he]
  -- What is left to visit comes to the same all the time.
  have hwalk : Ends
      (fun b' t => Supply.visitFrom enough v S.complete (S.nodes.drop i) b = some b' ∧ I t.stages)
      (fun _ _ => Supply.visitFrom enough v S.complete (S.nodes.drop i) b = none)
      (eachFrom nodes ps enough visit fuel i stages b s) := by
    refine eachFrom_ends
      (W := fun m j stages b' s => Stage.Tracked nodes ps stages ∧ I s.stages ∧ j ≤ S.nodes.length ∧
        S.nodes.length + 1 ≤ m + j ∧
          Supply.visitFrom enough v S.complete (S.nodes.drop i) b =
            Supply.visitFrom enough v S.complete (S.nodes.drop j) b') ?_ ?_ ?_
      ⟨htracked, hs, hi, hfuel, rfl⟩
    · rintro j stages b' s ⟨-, -, hj, hfuel, -⟩
      omega
    · rintro m j stages b' s ⟨-, hs, -, -, hleft⟩ he
      exact ⟨hleft.trans (henough he _ _), hs⟩
    · rintro m j stages b' s ⟨htracked, hs, hj, hfuel, hleft⟩ he
      have he : ¬ enough b' = true := by simp [he]
      have hread := delivers_read hp (some j) ⟨s.log, stages⟩ htracked
      rw [hleft]
      cases hr : read nodes ps (some j) ⟨s.log, stages⟩ with
      | error e t =>
        rw [hr] at hread
        obtain ⟨hcomplete, hlength⟩ := Supply.of_not_answers hread
        show Supply.visitFrom _ _ _ _ _ = none
        rw [List.drop_eq_nil_of_le hlength, hcomplete]
        simp [Supply.visitFrom, he]
      | ok found t =>
        rw [hr] at hread
        obtain ⟨hanswers, hshows, ht⟩ := hread
        have hshows : found[j]? = S.nodes[j]? := hshows
        rw [ends_ok, hshows]
        cases hn : S.nodes[j]? with
        | none =>
          refine ⟨?_, hs⟩
          rw [List.drop_eq_nil_of_le (List.getElem?_eq_none_iff.1 hn),
            Supply.complete_of_answers hanswers hn]
          simp [Supply.visitFrom]
        | some n =>
          obtain ⟨hlt, hget⟩ := List.getElem?_eq_some_iff.1 hn
          have hvisit := hv n b' ⟨t.log, s.stages⟩ hs
          dsimp only
          rw [List.drop_eq_getElem_cons hlt, hget, Supply.visitFrom, if_neg he]
          cases hu : visit n b' ⟨t.log, s.stages⟩ with
          | error e u =>
            rw [hu] at hvisit
            have hvisit : v n b' = none := hvisit
            rw [hvisit]
            exact rfl
          | ok b'' u =>
            rw [hu] at hvisit
            obtain ⟨hb, hu⟩ := hvisit
            rw [hb]
            exact ⟨ht, hu, hlt, by omega, rfl⟩
  cases h : eachFrom nodes ps enough visit fuel i stages b s with
  | ok b' t => rwa [h] at hwalk
  | error e t => rwa [h] at hwalk

/-- Visiting what predicates keep is visiting what they leave. -/
theorem comes_each (b : β) :
    (each nodes ps enough visit b).Comes I ((Supply.of nodes ps).visit enough v b) :=
  comes_eachFrom hp hv (Nat.succ_le_succ (Supply.length_of_le nodes ps)) (Nat.zero_le _)
    (Stage.tracked_initial nodes ps) b

end Candidates

/-! ### Paths -/

/-- A step whose predicates are steady. -/
def Stride.Steady (stride : Stride) : Prop := ∀ p ∈ stride.predicates, p.Steady

namespace Path

variable {I : List Stage → Prop} {once : Bool} {nodes : List Node} {predicates : List Predicate}
  (hp : ∀ p ∈ predicates, p.Steady) {strides : List Stride} (hs : ∀ s ∈ strides, s.Steady)

include hs

theorem comes_follow (n : Node) (p : Progress) :
    (follow once strides n p).Comes I (followed once strides n p) := by
  induction strides generalizing n p with
  | nil => exact Eval.comes_pure _
  | cons stride rest ih =>
    rw [follow, followed]
    simp only [List.contains_iff_mem]
    refine Candidates.comes_each (hs stride (by simp)) (fun m p => ?_) p
    split
    · exact Eval.comes_pure p
    · exact ih (fun s h => hs s (by simp [h])) m _

include hp

theorem comes_collect :
    (collect once nodes predicates strides).Comes I (collected once nodes predicates strides) :=
  Eval.comes_map (Candidates.comes_each hp (comes_follow hs) _)

theorem comes_selectFrom {σ : Setting} {steps : List (Step Meaning)}
    (hsteps : ∀ s ∈ steps, ∀ m ∈ s.predicates, m.predicate.Steady) :
    (selectFrom σ once nodes predicates strides steps).Comes I
      (selectedFrom σ once nodes predicates strides steps) := by
  induction steps generalizing nodes predicates strides with
  | nil => exact comes_collect hp hs
  | cons step rest ih =>
    have hrest : ∀ s ∈ rest, ∀ m ∈ s.predicates, m.predicate.Steady :=
      fun s h => hsteps s (by simp [h])
    rw [selectFrom, selectedFrom]
    cases hstep : Stride.ofStep σ step with
    | error e => exact fun _ _ => rfl
    | ok stride =>
      have hstride : ∀ p ∈ stride.predicates, p.Steady := by
        rw [Stride.predicates_ofStep hstep]
        exact Meaning.forall_reverse (hsteps step (by simp))
      have hall : ∀ s ∈ strides ++ [stride], s.Steady := by
        simpa [or_imp, forall_and] using ⟨hs, hstride⟩
      refine Eval.comes_bind (Eval.comes_pure stride) ?_
      rintro _ ⟨⟩
      dsimp only
      split
      · exact Eval.comes_bind (comes_collect hp hall)
          fun found _ => ih (by simp) (by simp) hrest
      · exact ih hp hall hrest

end Path

/-- A start of a path whose parts are steady. -/
inductive Start.Steady : Start Meaning → Prop
  | root : Steady .root
  | context : Steady .context
  | filter {primary : Meaning} {predicates : List Meaning} (h : XPath.Steady primary.value)
      (hp : ∀ m ∈ predicates, m.predicate.Steady) : Steady (.filter primary predicates)

namespace Path

variable {σ : Setting} {start : Start Meaning} (hstart : start.Steady) {I : List Stage → Prop}
  {c : Context} {size? : Option Nat}

include hstart

theorem comes_startNodes (hc : c.size.Comes I size?) :
    (startNodes σ c start).Comes I (started σ (.known c.node c.position size?) start) := by
  cases hstart with
  | root => exact Eval.comes_pure _
  | context => exact Eval.comes_pure _
  | @filter primary predicates h hp =>
    refine Eval.comes_bind (h.comes hc) fun v _ => ?_
    cases v with
    | nodeSet s => exact Eval.comes_pure _
    | string s => exact Eval.comes_throw _
    | number x => exact Eval.comes_throw _
    | boolean b => exact Eval.comes_throw _

theorem steady_started (c : Context) :
    ∀ r ∈ started σ c start, ∀ p ∈ r.2, p.Steady := by
  intro r hr
  cases hstart with
  | root => cases hr; simp
  | context => cases hr; simp
  | filter h hp =>
    obtain ⟨v, -, hr⟩ := Option.bind_eq_some_iff.1 hr
    cases v with
    | nodeSet s =>
      cases hr
      exact Meaning.forall_reverse hp
    | string s => cases hr
    | number x => cases hr
    | boolean b => cases hr

variable {steps : List (Step Meaning)}
  (hsteps : ∀ s ∈ steps, ∀ m ∈ s.predicates, m.predicate.Steady) (once : Bool)

include hsteps

/-- Selecting comes to what the path leads to. -/
theorem comes_select (hc : c.size.Comes I size?) :
    (select σ once start steps c).Comes I
      (selected σ once start steps (.known c.node c.position size?)) :=
  Eval.comes_bind (comes_startNodes hstart hc) fun r hr =>
    comes_selectFrom (steady_started hstart _ r hr) (by simp) hsteps

theorem steady_select : XPath.Steady (select σ once start steps) := by
  have houtcome : ∀ n position size?,
      (select σ once start steps (.known n position size?)).outcome =
        selected σ once start steps (.known n position size?) := fun n position size? =>
    (comes_select hstart hsteps once (Context.comes_known (I := fun _ => True) n position
      size?)).outcome trivial
  constructor
  · intro I c size? hc
    rw [houtcome]
    exact comes_select hstart hsteps once hc
  · intro n position size found hfound
    rw [houtcome] at hfound ⊢
    -- More is known of the context, so the start of the path is the same.
    obtain ⟨r, hr, hfound⟩ := Option.bind_eq_some_iff.1 hfound
    refine Option.bind_eq_some_iff.2 ⟨r, ?_, hfound⟩
    cases hstart with
    | root => exact hr
    | context => exact hr
    | filter h hp =>
      obtain ⟨v, hv, hr⟩ := Option.bind_eq_some_iff.1 hr
      exact Option.bind_eq_some_iff.2 ⟨v, h.mono hv, hr⟩

end Path

/-! ### Expressions -/

namespace Accord

variable {σ : Setting}

theorem steady_meanings {ms ms' : List Meaning} (h : List.Forall₂ (steadiness σ).Meanings ms ms') :
    ∀ m ∈ ms, m.predicate.Steady :=
  forall_mem_left h fun m m' hm => by
    obtain rfl := (exact_steadiness σ).eq_of_meanings hm
    exact steady_predicate hm.predicate

theorem steady_start {start start' : Start Meaning} (h : (steadiness σ).Starts start start') :
    start.Steady := by
  cases h with
  | root => exact .root
  | context => exact .context
  | filter h hp =>
    obtain rfl := (exact_steadiness σ).eq_of_meanings h
    exact .filter (steady_of_holds h.value) (steady_meanings hp)

/-- The evaluation of the engine, with a steady library, is in accord with itself. -/
theorem interpretations_steadiness {L : Library} (h : L.Steady σ) :
    (steadiness σ).Interpretations (.standard L σ) (.standard L σ) where
  setting_left := rfl
  setting_right := rfl
  library := h
  numberOf := conversions_numberOf h
  bindings _ _ := trivial
  path {start start' steps steps'} hstart hsteps := by
    have hselect : ∀ once, XPath.Steady (Path.select σ once start steps) := Path.steady_select
      (steady_start hstart) (forall_mem_left hsteps fun _ _ hs => steady_meanings hs.predicates)
    obtain rfl := (exact_steadiness σ).eq_of_starts hstart
    obtain rfl := Exact.eq_of_forall₂ hsteps fun _ _ => (exact_steadiness σ).eq_of_steps
    exact meanings_ofTruth
      (fun hc => map (holds_of_steady (hselect false) hc) fun _ _ => trivial)
      (fun hc => map (holds_of_steady (hselect true) hc) fun _ _ => trivial)

end Accord

variable {σ : Setting} {L : Library} (h : L.Steady σ)

include h

/-- In a steady library the value of an expression is steady. -/
theorem Expr.steady_value (e : Expr) : Steady (e.meaning (.standard L σ)).value :=
  Accord.steady_of_holds
    (Accord.meanings_meaning (Accord.interpretations_steadiness h) e).value

/-- So is what it says as a predicate. -/
theorem Expr.steady_predicates (es : List Expr) :
    ∀ m ∈ Expr.meanings (.standard L σ) es, m.predicate.Steady :=
  Accord.steady_meanings (Accord.meanings_meanings (Accord.interpretations_steadiness h) es)

theorem Expr.steady_startMeaning (start : Start Expr) :
    (Expr.startMeaning (.standard L σ) start).Steady :=
  Accord.steady_start (Accord.starts_startMeaning (Accord.interpretations_steadiness h) start)

theorem Expr.steady_stepMeanings (steps : List (Step Expr)) :
    ∀ s ∈ Expr.stepMeanings (.standard L σ) steps, ∀ m ∈ s.predicates, m.predicate.Steady :=
  Accord.forall_mem_left
    (Accord.steps_stepMeanings (Accord.interpretations_steadiness h) steps)
    fun _ _ hs => Accord.steady_meanings hs.predicates

/-- What a path selects is what it leads to. -/
theorem Expr.comes_path (start : Start Expr) (steps : List (Step Expr)) {c : Context}
    {I : List Stage → Prop} {size? : Option Nat} (hc : c.size.Comes I size?) :
    (((path start steps).meaning (.standard L σ)).value c).Comes I
      ((Path.selected σ false (startMeaning (.standard L σ) start)
        (stepMeanings (.standard L σ) steps)
        (.known c.node c.position size?)).map fun found => .nodeSet ⟨found⟩) := by
  rw [meaning]
  exact Eval.comes_map (Path.comes_select (steady_startMeaning h start)
    (steady_stepMeanings h steps) false hc)

end XPath
