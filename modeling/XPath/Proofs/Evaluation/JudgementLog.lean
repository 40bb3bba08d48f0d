/-
Predicates that are watched.

To see in which contexts a predicate is evaluated, it logs for each of them the node, the position
and what the size would be if it were asked for at that moment, and so it does again each time when
the size is asked for.  This is only looked up, not done: the stages stay as they are.  What the
predicate logs while the stages of a step are asked comes from the candidates before it one after
the other, and the size is always the number of them.  After a candidate that it picks it judges
none.

* `Eval.answer`, `Context.logLine` — what an action would give, and a context that is logged;
* `Predicate.watched`, `Meaning.watched` — a predicate that logs its contexts;
* `Judgement`, `Run` — what is logged for one candidate, and for those of a list;
* `Run.Stops` — a run in which no candidate is judged after one that is picked;
* `Predicate.steady_watching` — a watched predicate says the same;
* `Predicate.pull_judgedSoFar` — one more candidate is judged;
* `Candidates.each_watched` — what is logged while the kept candidates are visited.
-/
import XPath.Proofs.Evaluation.Delivery
import XPath.Proofs.Evaluation.Echoing
import XPath.Proofs.Evaluation.Invariants

namespace XPath

/-! ### Watching -/

/-- What an action would give. -/
def Eval.answer {α : Type} (x : Eval α) (s : State) : Option α :=
  match x s with
  | .ok a _ => some a
  | .error _ _ => none

section Watched

variable (line : Node → Nat → Option Nat → String)

namespace Context

/-- Logs the node, the position and what the size would be. -/
def logLine (c : Context) : Eval Unit := fun s =>
  .ok () { s with log := line c.node c.position (c.size.answer s) :: s.log }

/-- The context that is logged again each time when its size is asked for. -/
def watched (c : Context) : Context :=
  { c with
    size := do
      c.logLine line
      c.size }

end Context

namespace Predicate

/-- A judgement that logs the contexts it is made in. -/
def watching (judge : Context → Eval Verdict) (c : Context) : Eval Verdict := do
  c.logLine line
  judge (c.watched line)

/-- A predicate that logs the contexts it is evaluated in. -/
def watched : Predicate → Predicate
  | .position x => .position x
  | .test judge => .test (watching line judge)

end Predicate

/-- An expression that logs the contexts it is evaluated in when it is a predicate. -/
def Meaning.watched (m : Meaning) : Meaning := { m with predicate := m.predicate.watched line }

end Watched

/-- What is seen of the context of one candidate. -/
structure Judgement where
  node : Node
  position : Nat
  /-- The sizes before the judgement and each time when the size is asked for. -/
  sizes : List (Option Nat)

/-- Judgements of the candidates of a list one after the other, without gaps and maybe not of all.
Each candidate has its position, and the size is always the number of candidates, if they can be
counted. -/
structure Supply.Coherent (S : Supply) (judgements : List Judgement) : Prop where
  nodes : judgements.map (·.node) <+: S.nodes
  positions : judgements.map (·.position) = List.range' 1 judgements.length
  sizes : ∀ j ∈ judgements, j.sizes ≠ [] ∧ ∀ size? ∈ j.sizes, size? = S.size?
  bounds : ∀ j ∈ judgements, 1 ≤ j.position ∧ ∀ size ∈ S.size?, j.position ≤ size

/-- The judgements of one predicate on one list of candidates. -/
structure Run where
  supply : Supply
  judgements : List Judgement
  coherent : supply.Coherent judgements

section Lines

variable (line : Node → Nat → Option Nat → String)

/-- What is logged for a candidate. -/
def Judgement.lines (j : Judgement) : List String := j.sizes.map (line j.node j.position)

/-- What is logged for all candidates of a run, oldest first. -/
def Run.lines (r : Run) : List String := r.judgements.flatMap (Judgement.lines line)

end Lines

namespace Supply

variable {S : Supply} {js : List Judgement}

theorem coherent_nil (S : Supply) : S.Coherent [] := ⟨List.nil_prefix, rfl, by simp, by simp⟩

/-- The next candidate is judged. -/
theorem Coherent.snoc (h : S.Coherent js) {n : Node} (hn : S.nodes[js.length]? = some n)
    {sizes : List (Option Nat)} (hne : sizes ≠ []) (hsizes : ∀ size? ∈ sizes, size? = S.size?) :
    S.Coherent (js ++ [⟨n, js.length + 1, sizes⟩]) where
  nodes := by
    obtain ⟨rest, hrest⟩ := h.nodes
    rw [← hrest, List.getElem?_append_right (by simp), List.length_map, Nat.sub_self] at hn
    obtain ⟨more, rfl⟩ : ∃ more, rest = n :: more := by
      cases rest with
      | nil => cases hn
      | cons m more =>
        cases hn
        exact ⟨more, rfl⟩
    exact ⟨more, by simp [← hrest]⟩
  positions := by
    rw [List.map_append, h.positions, List.length_append, List.length_singleton,
      List.range'_concat]
    simp [Nat.add_comm]
  sizes := by simpa [or_imp, forall_and] using ⟨⟨fun j hj => (h.sizes j hj).1, hne⟩,
    fun j hj => (h.sizes j hj).2, hsizes⟩
  bounds := by
    have hlt : js.length < S.nodes.length := (List.getElem?_eq_some_iff.1 hn).1
    intro j hj
    rcases List.mem_append.1 hj with hj | hj
    · exact h.bounds j hj
    · obtain rfl := List.mem_singleton.1 hj
      refine ⟨Nat.le_add_left 1 _, fun size hsize => ?_⟩
      rw [size?] at hsize
      split at hsize
      · cases hsize
        exact hlt
      · cases hsize

end Supply

/-! ### Runs that stop -/

/-- A predicate says of a candidate that it is kept, and no other. -/
def Predicate.Picks (p : Predicate) (n : Node) (position : Nat) (size? : Option Nat) : Prop :=
  match p with
  | Predicate.position x => (x == Number.ofNat position) = true
  | test judge => (judge (.known n position size?)).outcome = some .picked

namespace Run

variable {p : Predicate} {r : Run}

/-- No candidate has been picked. -/
def Unpicked (p : Predicate) (r : Run) : Prop :=
  ∀ j ∈ r.judgements, ¬ p.Picks j.node j.position r.supply.size?

/-- No candidate is judged after one that is picked. -/
def Stops (p : Predicate) (r : Run) : Prop :=
  ∀ j ∈ r.judgements.dropLast, ¬ p.Picks j.node j.position r.supply.size?

variable {n : Node} (hn : r.supply.nodes[r.judgements.length]? = some n)
  {sizes : List (Option Nat)} (hne : sizes ≠ [])
  (hsizes : ∀ size? ∈ sizes, size? = r.supply.size?)

/-- The run with one more candidate. -/
def snoc : Run := ⟨r.supply, _, r.coherent.snoc hn hne hsizes⟩

theorem stops_snoc (h : r.Unpicked p) : (r.snoc hn hne hsizes).Stops p := by
  intro j hj
  rw [snoc, List.dropLast_concat] at hj
  exact h j hj

theorem unpicked_snoc (h : r.Unpicked p)
    (hlast : ¬ p.Picks n (r.judgements.length + 1) r.supply.size?) :
    (r.snoc hn hne hsizes).Unpicked p := by
  intro j hj
  rcases List.mem_append.1 hj with hj | hj
  · exact h j hj
  · obtain rfl := List.mem_singleton.1 hj
    exact hlast

end Run

/-! ### What a watched predicate says -/

theorem Eval.Comes.answer {α : Type} {I : List Stage → Prop} {x : Eval α} {r : Option α}
    (h : x.Comes I r) {s : State} (hs : I s.stages) : x.answer s = r := by
  have hxs := h s hs
  rw [Eval.answer]
  cases hx : x s with
  | error e t =>
    rw [hx] at hxs
    exact hxs.symm
  | ok a t =>
    rw [hx] at hxs
    exact hxs.1.symm

section Steady

variable {line : Node → Nat → Option Nat → String} {I : List Stage → Prop}

/-- An action that comes to something does so after a context has been logged. -/
theorem Context.comes_logLine {α : Type} (c : Context) {x : Eval α} {r : Option α}
    (h : x.Comes I r) : Eval.Comes I (do c.logLine line; x) r := fun s hs =>
  h { s with log := line c.node c.position (c.size.answer s) :: s.log } hs

variable {judge : Context → Eval Verdict} (h : XPath.Steady judge)

include h

theorem Predicate.comes_watching {c : Context} {size? : Option Nat} (hc : c.size.Comes I size?) :
    (watching line judge c).Comes I (judge (.known c.node c.position size?)).outcome :=
  c.comes_logLine (h.comes (c := c.watched line) (c.comes_logLine hc))

/-- A steady judgement says the same when it is watched. -/
theorem Predicate.outcome_watching (n : Node) (position : Nat) (size? : Option Nat) :
    (watching line judge (.known n position size?)).outcome =
      (judge (.known n position size?)).outcome :=
  (comes_watching h (Context.comes_known (I := fun _ => True) n position size?)).outcome trivial

theorem Predicate.steady_watching : XPath.Steady (watching line judge) := by
  refine ⟨fun {I c size?} hc => ?_, fun {n position size a} ha => ?_⟩
  · rw [outcome_watching h]
    exact comes_watching h hc
  · rw [outcome_watching h] at ha ⊢
    exact h.mono ha

end Steady

/-- Counting that logs nothing and does not depend on what has been logged. -/
structure Eval.Silent {α : Type} (x : Eval α) : Prop where
  quiet : x.Quiet
  echoes : x.Echoes x

section Echoes

variable {σ : Setting} {line : Node → Nat → Option Nat → String}

/-- An action does the same after a context has been logged. -/
theorem Context.echoes_logLine {α : Type} (c : Context) {x y : Eval α} (h : x.Echoes y) :
    Eval.Echoes (do c.logLine line; x) y := fun s t hst =>
  h { s with log := line c.node c.position (c.size.answer s) :: s.log } t hst

/-- Expressions that are watched differ in the log only. -/
theorem Accord.meanings_watched {m : Meaning} (h : (echoing σ).Meanings m m) :
    (echoing σ).Meanings (m.watched line) m where
  toArguments := h.toArguments
  predicate := by
    obtain ⟨argument, predicate⟩ := m
    have hp := h.predicate
    cases hp with
    | position x => exact .position x
    | @test judge _ hj =>
      refine .test fun {k c d} hc => ⟨c.echoes_logLine ?_, Eval.ensures_true _⟩
      exact (hj (k := k) (c := c.watched line)
        ⟨hc.node, trivial, hc.position, c.echoes_logLine hc.size⟩).1

end Echoes

/-! ### One more candidate -/

section Stages

variable {line : Node → Nat → Option Nat → String} {base : List String} {S : Supply}
  {p : Predicate}

/-- The log has grown by the judgements of some of the candidates. -/
def Supply.Logged (line : Node → Nat → Option Nat → String) (S : Supply) (base log : List String) :
    Prop :=
  ∃ r : Run, r.supply = S ∧ log = (r.lines line).reverse ++ base

/-- The log has grown so, and after a candidate that is picked none has been judged. -/
def Supply.LoggedBy (line : Node → Nat → Option Nat → String) (S : Supply) (p : Predicate)
    (base log : List String) : Prop :=
  ∃ r : Run, r.supply = S ∧ r.Stops p ∧ log = (r.lines line).reverse ++ base

theorem Supply.LoggedBy.logged {log : List String} (h : S.LoggedBy line p base log) :
    S.Logged line base log := by
  obtain ⟨r, hr, -, hlog⟩ := h
  exact ⟨r, hr, hlog⟩

/-- The log has grown by the judgements of the candidates that a stage has taken, of which none has
been picked.  Once the stage is at its end, it may have taken more. -/
def Stage.JudgedSoFar (line : Node → Nat → Option Nat → String) (S : Supply) (p : Predicate)
    (base log : List String) (stage : Stage) : Prop :=
  ∃ r : Run, r.supply = S ∧ r.Stops p ∧ log = (r.lines line).reverse ++ base ∧
    (stage.kept.exhausted = false → stage.closed = false →
      stage.taken = r.judgements.length ∧ r.Unpicked p)

theorem Stage.JudgedSoFar.loggedBy {log : List String} {stage : Stage}
    (h : stage.JudgedSoFar line S p base log) : S.LoggedBy line p base log := by
  obtain ⟨r, hr, hstops, hlog, -⟩ := h
  exact ⟨r, hr, hstops, hlog⟩

/-- What a stage is asked for once more leaves it on its way. -/
theorem Predicate.Pulled.replied {p : Predicate} {I : List Stage → Prop} {stage : Stage}
    {r : EStateM.Result Error State Pull} (h : Pulled p S I stage r) :
    Stage.Replied (fun _ => Stage.Follows p S I) (fun _ => True) r := by
  refine h.mono (fun answer t h => ?_) fun _ _ _ => trivial
  obtain ⟨stage', rest, hstages, hkept, hanswer⟩ := h
  refine ⟨stage', rest, hstages, ?_⟩
  rw [← hkept] at hanswer
  cases answer with
  | node n => exact hanswer.1
  | nothing => exact hanswer.1
  | finished => exact .ended (.inl rfl) hanswer

variable {I : List Stage → Prop} {source : Option Nat → Eval (List Node)}
  (hs : Candidates.Delivers I source S) (hq : ∀ stop, (source stop).Quiet)

/-- While the next candidate is judged, it has been logged at least once. -/
def Run.judging (line : Node → Nat → Option Nat → String) (I : List Stage → Prop)
    (base : List String) {r : Run} (hr : r.Unpicked p) {n : Node}
    (hn : r.supply.nodes[r.judgements.length]? = some n) : Invariant where
  Running log stages := I stages ∧ ∃ sizes, sizes ≠ [] ∧ (∀ size? ∈ sizes, size? = r.supply.size?) ∧
    log = ((r.judgements ++ [Judgement.mk n (r.judgements.length + 1) sizes]).flatMap
      (Judgement.lines line)).reverse ++ base
  Stopped := r.supply.LoggedBy line p base
  stopped_of_running := by
    rintro log stages ⟨-, sizes, hne, hsizes, rfl⟩
    exact ⟨r.snoc hn hne hsizes, rfl, stops_snoc hn hne hsizes hr, rfl⟩

/-- A stage whose candidate has been judged has taken one more.  If it has been picked, the stage
takes no other. -/
theorem Run.judgedSoFar_of_judging {r : Run} {hr : r.Unpicked p} (hS : r.supply = S) {n : Node}
    {hn : r.supply.nodes[r.judgements.length]? = some n} {log : List String} {stages : List Stage}
    (h : (judging line I base hr hn).Running log stages) {stage : Stage}
    (htaken : stage.taken = r.judgements.length + 1)
    (hpicks : stage.closed = false → ¬ p.Picks n (r.judgements.length + 1) r.supply.size?) :
    stage.JudgedSoFar line S p base log := by
  obtain ⟨-, sizes, hne, hsizes, hlog⟩ := h
  refine ⟨r.snoc hn hne hsizes, hS, stops_snoc hn hne hsizes hr, hlog, fun _ hopen => ⟨?_, ?_⟩⟩
  · rw [htaken, snoc, List.length_append, List.length_singleton]
  · exact unpicked_snoc hn hne hsizes hr (hpicks hopen)

include hs hq

/-- Whatever a judgement does, it keeps the candidates as they are, and each size that it asks for
is logged. -/
theorem Run.judging_watched {r : Run} (hr : r.Unpicked p) (hS : r.supply = S) {n : Node}
    (hn : r.supply.nodes[r.judgements.length]? = some n) {judge : Context → Eval Verdict}
    (hj : Habit.preserving.Judges (.test judge)) {t : State} (ht : I t.stages)
    (hlog : t.log = (r.lines line).reverse ++ base) :
    Preserved (judging line I base hr hn)
      (Predicate.watching line judge ⟨n, r.judgements.length + 1, Predicate.size source⟩ t) := by
  subst hS
  set c : Context := ⟨n, r.judgements.length + 1, Predicate.size source⟩
  have hsize : c.size.Comes I r.supply.size? := Predicate.comes_size hs
  have hquiet : c.size.Quiet := Predicate.logs_size Eval.course_quiet hq
  have hcount : (c.watched line).size.Preserves (judging line I base hr hn) := by
    rintro s ⟨hI, sizes, hne, hsizes, hs⟩
    -- One more size is logged before it is counted.
    have hrunning : ∀ stages, I stages → (judging line I base hr hn).Running
        (line n (r.judgements.length + 1) (c.size.answer s) :: s.log) stages := fun stages h => by
      refine ⟨h, sizes ++ [r.supply.size?], by simp, ?_, ?_⟩
      · simpa [or_imp, forall_and] using hsizes
      · rw [hsize.answer hI, hs]
        simp [Judgement.lines]
    set s' : State := { s with log := line n (r.judgements.length + 1) (c.size.answer s) :: s.log }
    show Preserved _ (c.size s')
    have hcomes := hsize s' hI
    cases hc : c.size s' with
    | error e u =>
      have hlog : s'.log = u.log := hquiet.error hc
      show Invariant.Stopped _ u.log
      rw [← hlog]
      exact Invariant.stopped_of_running _ (hrunning s.stages hI)
    | ok a u =>
      have hlog : s'.log = u.log := hquiet.ok hc
      rw [hc] at hcomes
      show Invariant.Running _ u.log u.stages
      rw [← hlog]
      exact hrunning u.stages hcomes.2
  refine hj (judging line I base hr hn) (c.watched line) hcount
    { t with log := line n (r.judgements.length + 1) (c.size.answer t) :: t.log } ⟨ht, ?_⟩
  refine ⟨[r.supply.size?], by simp, by simp, ?_⟩
  rw [hsize.answer ht, hlog]
  simp [Judgement.lines, Run.lines]

section Asked

variable {judge : Context → Eval Verdict} (hj : Habit.preserving.Judges (.test judge))
  (hjudge : XPath.Steady judge) {stage : Stage} {rest : List Stage}
  (hopen : stage.kept.exhausted = false)
  (h : Stage.Follows (.test (Predicate.watching line judge)) S I stage rest) {log : List String}
  (hjudgedSoFar : stage.JudgedSoFar line S (.test judge) base log)

include hj hjudge hopen h hjudgedSoFar

/-- After the next candidate has been judged, the stage has taken one more and has judged one more.
If that has been picked, it takes no other. -/
theorem Predicate.watching_judgedSoFar {n : Node} {t : State} (hc : stage.closed = false)
    (hn : S.nodes[stage.taken]? = some n) (hlog : t.log = log) (hI : I t.stages) :
    Ends
      (fun verdict u => ∀ {stage' : Stage}, stage'.taken = stage.taken + 1 →
        (stage'.closed = false → verdict ≠ .picked) →
          stage'.JudgedSoFar line S (.test judge) base u.log)
      (fun _ u => S.LoggedBy line (.test judge) base u.log)
      (watching line judge ⟨n, stage.tried + 1, size source⟩ t) := by
  obtain ⟨r, rfl, hstops, hlogged, htaken⟩ := hjudgedSoFar
  obtain ⟨htaken, hunpicked⟩ := htaken hopen hc
  have htried : stage.tried = r.judgements.length := (h.of_open hopen hc).1.1.trans htaken
  have hnode : r.supply.nodes[r.judgements.length]? = some n := htaken ▸ hn
  have hjudged := Run.judging_watched hs hq hunpicked rfl hnode hj hI (hlog.trans hlogged)
  have hcomes := @comes_watching line _ judge hjudge
    ⟨n, r.judgements.length + 1, size source⟩ _ (comes_size hs)
  rw [htried]
  cases hv : watching line judge ⟨n, r.judgements.length + 1, size source⟩ t with
  | error e u =>
    rw [hv] at hjudged
    exact hjudged
  | ok verdict u =>
    rw [hv] at hjudged
    have hverdict := hcomes.ok hI hv
    intro stage' hstage hpicked
    refine Run.judgedSoFar_of_judging rfl hjudged (by rw [hstage, htaken]) fun hopen hpicks => ?_
    exact hpicked hopen (Option.some.inj (hverdict.symm.trans hpicks))

/-- A stage that is asked once more has at most one more candidate judged, the next one. -/
theorem Predicate.pull_judgedSoFar :
    Stage.Replied (fun log stage _ => stage.JudgedSoFar line S (.test judge) base log)
      (S.LoggedBy line (.test judge) base)
      (pull source (.test (watching line judge)) ⟨log, stage :: rest⟩) := by
  -- What comes to its end has nothing more to say.
  have ended : ∀ {stage : Stage}, stage.kept.exhausted = true →
      stage.JudgedSoFar line S (.test judge) base log := fun he => by
    obtain ⟨r, hr, hstops, hlog, -⟩ := hjudgedSoFar
    exact ⟨r, hr, hstops, hlog, fun hf => by rw [he] at hf; cases hf⟩
  have hread : ∀ stop s, s.log = log ∧ (stage.closed = false → I s.stages) →
      Ends
        (fun nodes t => t.log = log ∧
          (stage.closed = false → Candidates.Shown S.nodes nodes stop ∧ I t.stages))
        (fun _ t => t.log = log) (source stop s) := by
    rintro stop s ⟨rfl, hI⟩
    have hends := ends_of_delivers hs stop s hI
    cases hr : source stop s with
    | ok nodes t =>
      rw [hr] at hends
      exact ⟨((hq stop).ok hr).symm, fun hc => (hends hc).2⟩
    | error e t => exact ((hq stop).error hr).symm
  have hwatching : ∀ judge', Predicate.test (watching line judge) = .test judge' →
      ∀ {nodes : List Node} {n} {t : State}, stage.closed = false →
        nodes[stage.taken]? = some n →
          t.log = log ∧ (stage.closed = false →
            Candidates.Shown S.nodes nodes (some stage.taken) ∧ I t.stages) →
            Ends
              (fun verdict u => ∀ {stage' : Stage}, stage'.taken = stage.taken + 1 →
                (stage'.closed = false → verdict ≠ .picked) →
                  stage'.JudgedSoFar line S (.test judge) base u.log)
              (fun _ u => S.LoggedBy line (.test judge) base u.log)
              (judge' ⟨n, stage.tried + 1, size source⟩ t) := by
    rintro _ ⟨⟩ nodes n t hc hn ⟨hlog, hfound⟩
    obtain ⟨hshows, hI⟩ := hfound hc
    have hn : S.nodes[stage.taken]? = some n := hshows.symm.trans hn
    exact watching_judgedSoFar hs hq hj hjudge hopen h hjudgedSoFar hc hn hlog hI
  have hrest : State.log ⟨log, rest⟩ = log ∧ (stage.closed = false → I rest) :=
    ⟨rfl, fun hc => (h.of_open hopen hc).2⟩
  refine (pull_ends hread hwatching hrest).mono (fun answer t hasked => ?_) fun e t hfailed => ?_
  · cases hasked with
    | hushed _ hfailed =>
      obtain ⟨-, rfl⟩ := hfailed
      exact ⟨_, _, rfl, ended rfl⟩
    | ended _ hfound =>
      obtain ⟨-, rfl, -⟩ := hfound
      exact ⟨_, _, rfl, ended rfl⟩
    | late _ _ hfound =>
      obtain ⟨-, rfl, -⟩ := hfound
      exact ⟨_, _, rfl, ended rfl⟩
    | judged _ _ v hjudged =>
      refine ⟨_, _, rfl, hjudged.2 (Stage.taken_judged stage v) fun hopen hpicked => ?_⟩
      subst hpicked
      cases hopen
  · cases hfailed with
    | trying _ hfailed =>
      obtain ⟨-, rfl⟩ := hfailed
      exact hjudgedSoFar.loggedBy
    | judging _ _ hrefused => exact hrefused.2

end Asked

end Stages

/-! ### Visits -/

namespace Candidates

variable {line : Node → Nat → Option Nat → String} {nodes : List Node} {earlier : List Predicate}
  (hearlier : ∀ p ∈ earlier, Habit.preserving.Judges p) (hsteady : ∀ p ∈ earlier, p.Steady)
  {judge : Context → Eval Verdict} (hj : Habit.preserving.Judges (.test judge))
  (hjudge : XPath.Steady judge)

/-- The stage of a watched predicate and those before it are on their way, and what it has judged
has been logged. -/
def watch (line : Node → Nat → Option Nat → String) (nodes : List Node) (earlier : List Predicate)
    (judge : Context → Eval Verdict) (base : List String) : Invariant :=
  .atop (fun log stage rest =>
      Stage.Follows (.test (Predicate.watching line judge)) (Supply.of nodes earlier)
        (Stage.Tracked nodes earlier) stage rest ∧
      stage.JudgedSoFar line (Supply.of nodes earlier) (.test judge) base log)
    ((Supply.of nodes earlier).LoggedBy line (.test judge) base) fun h => h.2.loggedBy

include hearlier hsteady hj hjudge

theorem read_watched (base : List String) (stop : Option Nat) :
    (read nodes (.test (Predicate.watching line judge) :: earlier) stop).Preserves
      (watch line nodes earlier judge base) := by
  have hs : Delivers (Stage.Tracked nodes earlier) (read nodes earlier) (Supply.of nodes earlier) :=
    delivers_read hsteady
  have hq : ∀ stop, (read nodes earlier stop).Quiet :=
    logs_read Eval.course_quiet nodes fun p hp => Habit.quiet_of_preserving (hearlier p hp)
  refine read_cons_preserves (Stage.fill_preserves (fun h => h.2.loggedBy)
    (fun {log stage rest} hrunning hopen => ?_) stop _)
  have hopen : (stage.remember stage.kept.occupied).kept.exhausted = false := hopen
  have hfollows := hrunning.1.occupied
  have hpulled := Predicate.pull_follows (p := .test (Predicate.watching line judge)) hs
    (Predicate.steady_watching hjudge) hfollows hopen log
  have hjudgedSoFar :
      (stage.remember stage.kept.occupied).JudgedSoFar line _ (.test judge) base log := hrunning.2
  exact hpulled.replied.and (Predicate.pull_judgedSoFar hs hq hj hjudge hopen hfollows hjudgedSoFar)

variable {later : List Predicate} (hlater : ∀ p ∈ later, Habit.preserving.Judges p) {β : Type}
  {enough : β → Bool} {visit : Node → β → Eval β} (hv : ∀ n b, (visit n b).Quiet)

include hlater hv

/-- While the candidates are visited that a watched predicate and others keep, it judges what those
before it leave, one candidate after the other, until it picks one. -/
theorem each_watched (b : β) (s : State) :
    (Supply.of nodes earlier).LoggedBy line (.test judge) s.log
      ((each nodes (later ++ .test (Predicate.watching line judge) :: earlier) enough visit b).after
        s).log := by
  refine each_preserves (k := watch line nodes earlier judge s.log)
    (read_watched hearlier hsteady hj hjudge s.log) hlater hv b ?_
  exact ⟨_, _, rfl, Stage.follows_initial _ _ (Stage.tracked_initial nodes earlier),
    ⟨_, [], Supply.coherent_nil _⟩, rfl, nofun, rfl, fun _ _ => ⟨rfl, nofun⟩⟩

end Candidates

end XPath
