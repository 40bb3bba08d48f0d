/-
Reading candidates as they are needed.

The stages of a step remember what they have kept of a list that the plain reading of predicates
gives as a whole.  What they remember is the beginning of that list, and a stage that goes on from
where it has got to comes to its end.  So a read never fails, gives the nodes that it was asked for,
and counts the candidates rightly, as long as the plain reading succeeds.

* `Eval.Yields`, `Eval.Gives` — a result in some state, and in every state;
* `Eval.Settles` — what the stages must give when the plain reading gives it;
* `Accord.laziness` — an action settles on what the plain reading of it yields;
* `Stage.Tracks`, `Stage.Faithful` — the invariant of a stage, and of all stages of a step;
* `Predicate.pull_spec`, `Stage.fill_spec` — asking a stage once, and until it can answer;
* `Candidates.provides_read` — what a read gives;
* `Candidates.settles_eachFrom` — visiting the kept candidates is visiting a list.
-/
import XPath.Evaluation.Eager
import XPath.Proofs.Evaluation.Accord
import XPath.Proofs.Evaluation.Rules
import XPath.Proofs.Number.Grains

namespace XPath

/-! ### Yielding and settling -/

namespace Eval

variable {α β : Type}

/-- In some state the action gives this result. -/
def Yields (x : Eval α) (a : α) : Prop := ∃ s t, x s = .ok a t

/-- In every state the action gives this result. -/
def Gives (x : Eval α) (a : α) : Prop := ∀ s, ∃ t, x s = .ok a t

/-- Among stages of some kind the action gives this result, and leaves stages of that kind. -/
def Settles (I : List Stage → Prop) (x : Eval α) (a : α) : Prop :=
  ∀ s, I s.stages → ∃ t, x s = .ok a t ∧ I t.stages

theorem yields_pure {a b : α} (h : Yields (pure a) b) : b = a := by
  obtain ⟨s, t, ⟨⟩⟩ := h
  rfl

theorem not_yields_throw {e : Error} {a : α} : ¬ Yields (throw e) a := by
  rintro ⟨s, t, ⟨⟩⟩

theorem yields_bind {x : Eval α} {f : α → Eval β} {b : β} (h : Yields (x >>= f) b) :
    ∃ a, x.Yields a ∧ (f a).Yields b := by
  obtain ⟨s, t, h⟩ := h
  change EStateM.bind x f s = _ at h
  rw [EStateM.bind] at h
  cases hx : x s with
  | error e u => rw [hx] at h; cases h
  | ok a u => rw [hx] at h; exact ⟨a, ⟨s, u, hx⟩, ⟨u, t, h⟩⟩

theorem gives_pure (a : α) : Gives (pure a) a := fun s => ⟨s, rfl⟩

/-- Settling is ending so, and never failing. -/
theorem settles_iff {I : List Stage → Prop} {x : Eval α} {a : α} :
    x.Settles I a ↔ ∀ s, I s.stages →
      Ends (fun b t => b = a ∧ I t.stages) (fun _ _ => False) (x s) := by
  refine forall₂_congr fun s _ => ?_
  cases x s with
  | ok b t => simp [Ends, and_comm]
  | error e t => simp [Ends]

theorem settles_pure {I : List Stage → Prop} (a : α) : Settles I (pure a) a :=
  fun s hs => ⟨s, rfl, hs⟩

theorem settles_bind {I : List Stage → Prop} {x : Eval α} {f : α → Eval β} {a : α} {b : β}
    (hx : x.Settles I a) (hf : (f a).Settles I b) : Settles I (x >>= f) b := by
  intro s hs
  obtain ⟨t, hxs, ht⟩ := hx s hs
  obtain ⟨u, hft, hu⟩ := hf t ht
  exact ⟨u, (bind_of_ok hxs).trans hft, hu⟩

end Eval

/-- The accord of the evaluation of the engine with the plain reading: whatever the stages around
it, the one settles on what the other yields. -/
def Accord.laziness (σ : Setting) : Accord (List Stage → Prop) where
  toSides := .same σ
  Holds I _ P x y := ∀ a, y.Yields a → P a ∧ x.Settles I a
  Good _ := True
  Sized I x y := ∀ a, y.Yields a → x.Settles I a
  size h := fun a ha => ⟨trivial, h a ha⟩
  sized := fun a ha => Eval.yields_pure ha ▸ Eval.settles_pure _
  pure h := fun b hb => by
    obtain rfl := Eval.yields_pure hb
    exact ⟨h, Eval.settles_pure _⟩
  throw _ := fun a ha => (Eval.not_yields_throw ha).elim
  bind hx hf := fun b hb => by
    obtain ⟨a, ha, hb⟩ := Eval.yields_bind hb
    obtain ⟨hP, hxa⟩ := hx a ha
    obtain ⟨hQ, hfb⟩ := hf a hP b hb
    exact ⟨hQ, Eval.settles_bind hxa hfb⟩
  known _ _ _ := trivial
  scalar _ := trivial
  union _ _ := trivial
  identified _ := trivial

/-! ### What a predicate keeps -/

namespace Eager

variable {p : Predicate} {size position : Nat} {n : Node} {rest candidates K : List Node}

/-- What is kept of a list is decided by its first candidate and what is kept of the others. -/
theorem yields_keepFrom_cons (h : (keepFrom p size position (n :: rest)).Yields K) :
    ∃ v, (verdict p ⟨n, position, pure size⟩).Yields v ∧
      match v with
      | .picked => K = [n]
      | .kept => ∃ later, K = n :: later ∧ (keepFrom p size (position + 1) rest).Yields later
      | .dropped => (keepFrom p size (position + 1) rest).Yields K := by
  rw [keepFrom] at h
  obtain ⟨v, hv, h⟩ := Eval.yields_bind h
  refine ⟨v, hv, ?_⟩
  cases v with
  | picked => exact Eval.yields_pure h
  | kept =>
    obtain ⟨later, hl, h⟩ := Eval.yields_bind h
    exact ⟨later, Eval.yields_pure h, hl⟩
  | dropped => exact h

theorem length_keepFrom (h : (keepFrom p size position candidates).Yields K) :
    K.length ≤ candidates.length := by
  induction candidates generalizing position K with
  | nil => rw [Eval.yields_pure h]
  | cons n rest ih =>
    obtain ⟨v, -, h⟩ := yields_keepFrom_cons h
    cases v with
    | picked => rw [h]; simp
    | kept =>
      obtain ⟨later, rfl, hl⟩ := h
      simpa using ih hl
    | dropped => exact (ih h).trans (by simp)

/-- A number literal keeps the candidate at its position. -/
theorem keepFrom_position {x : Float}
    (h : (keepFrom (.position x) size position candidates).Yields K) :
    K = if Stage.isPosition x ∧ position ≤ Number.wholePart x then
      candidates[Number.wholePart x - position]?.toList else [] := by
  induction candidates generalizing position K with
  | nil => rw [Eval.yields_pure h]; simp
  | cons n rest ih =>
    obtain ⟨v, hv, h⟩ := yields_keepFrom_cons h
    obtain rfl := Eval.yields_pure hv
    -- The number picks this candidate, or one of the others, or none at all.
    by_cases hx : Stage.isPosition x = true ∧ Number.wholePart x = position
    · obtain ⟨hx, rfl⟩ := hx
      simp only [hx, beq_self_eq_true, Bool.and_self, if_true] at h
      rw [h]
      simp [hx]
    · have hd : (Stage.isPosition x && Number.wholePart x == position) = false := by
        simpa using hx
      simp only [hd, Bool.false_eq_true, if_false] at h
      rw [ih h]
      by_cases hp : Stage.isPosition x = true ∧ position + 1 ≤ Number.wholePart x
      · rw [if_pos hp, if_pos ⟨hp.1, by omega⟩,
          show Number.wholePart x - position = Number.wholePart x - (position + 1) + 1 by omega]
        simp
      · rw [if_neg hp, if_neg]
        rintro ⟨h₁, h₂⟩
        have hne : Number.wholePart x ≠ position := fun he => hx ⟨h₁, he⟩
        exact hp ⟨h₁, by omega⟩

theorem keep_position {x : Float} (h : (keep (.position x) candidates).Yields K) :
    K = if Stage.isPosition x then candidates[Number.wholePart x - 1]?.toList else [] := by
  rw [keepFrom_position h]
  by_cases hx : Stage.isPosition x = true
  · rw [if_pos ⟨hx, Number.wholePart_pos hx⟩, if_pos hx]
  · rw [if_neg (fun h => hx h.1), if_neg hx]

/-- What several predicates, last to first, keep of a list. -/
def Kept (nodes : List Node) : List Predicate → List Node → Prop
  | [], K => K = nodes
  | p :: earlier, K => ∃ L, Kept nodes earlier L ∧ (keep p L).Yields K

theorem survivors_append (ps : List Predicate) (p : Predicate) (nodes : List Node) :
    survivors (ps ++ [p]) nodes = survivors ps nodes >>= keep p := by
  induction ps generalizing nodes with
  | nil => simp [survivors]
  | cons q rest ih => simp [survivors, ih]

theorem kept_of_survivors {ps : List Predicate} {nodes K : List Node}
    (h : (survivors ps.reverse nodes).Yields K) : Kept nodes ps K := by
  induction ps generalizing K with
  | nil => exact Eval.yields_pure h
  | cons p earlier ih =>
    rw [List.reverse_cons, survivors_append] at h
    obtain ⟨L, hL, h⟩ := Eval.yields_bind h
    exact ⟨L, ih hL, h⟩

end Eager

/-! ### Stages that are on their way -/

namespace Stage

/-- What a stage that goes on has still to do: a number literal has not looked yet, and any other
predicate has to keep from the candidates it has not taken what is missing of the whole. -/
def Ahead : Predicate → List Node → List Node → Stage → Prop
  | .position x, _, _, stage => isPosition x = true ∧ stage.kept.found = []
  | p, L, K, stage =>
    stage.tried = stage.taken ∧
      ∃ later, (Eager.keepFrom p L.length (stage.taken + 1) (L.drop stage.taken)).Yields later ∧
        stage.kept.found ++ later = K

/-- A stage that is on its way through the candidates `L`, of which its predicate keeps `K`. -/
structure Tracks (p : Predicate) (L K : List Node) (stage : Stage) : Prop where
  finished : stage.kept.exhausted = true ∨ stage.closed = true → stage.kept.found = K
  ahead : stage.kept.exhausted = false → stage.closed = false → Ahead p L K stage

/-- How many more times a stage may have to be asked. -/
def left : Predicate → List Node → Stage → Nat
  | .position _, L, stage => if stage.closed then 1 else min 2 (L.length + 1)
  | .test _, L, stage => L.length - stage.taken + 1

theorem left_pos (p : Predicate) (L : List Node) (stage : Stage) : 1 ≤ left p L stage := by
  cases p with
  | position x =>
    rw [left]
    split <;> omega
  | test judge =>
    rw [left]
    omega

theorem left_le (p : Predicate) (L : List Node) (stage : Stage) :
    left p L stage ≤ L.length + 1 := by
  cases p with
  | position x =>
    rw [left]
    split <;> omega
  | test judge =>
    rw [left]
    omega

variable {p : Predicate} {L K : List Node} {stage : Stage}

/-- What a stage remembers is the beginning of what its predicate keeps. -/
theorem Tracks.found_begins (h : Tracks p L K stage) : stage.kept.found <+: K := by
  by_cases hf : stage.kept.exhausted = true ∨ stage.closed = true
  · rw [h.finished hf]
  · simp only [not_or, Bool.not_eq_true] at hf
    have ha := h.ahead hf.1 hf.2
    cases p with
    | position x => rw [ha.2]; exact List.nil_prefix
    | test judge =>
      obtain ⟨_, later, _, rfl⟩ := ha
      exact List.prefix_append _ _

/-- The stage of a predicate starts on its way. -/
theorem tracks_initial (h : (Eager.keep p L).Yields K) : Tracks p L K (initial p) := by
  cases p with
  | position x =>
    have hK := Eager.keep_position h
    rw [initial]
    by_cases hx : isPosition x = true
    · rw [if_pos hx]
      exact ⟨by simp [Sequence.fresh], fun _ _ => ⟨hx, rfl⟩⟩
    · rw [if_neg hx] at hK ⊢
      exact ⟨fun _ => hK.symm, by simp [Sequence.ofNodes]⟩
  | test judge =>
    exact ⟨by simp [initial, Sequence.fresh], fun _ _ => ⟨rfl, K, h, rfl⟩⟩

/-- All stages of a step are on their way, and none is at work. -/
inductive Faithful (nodes : List Node) : List Predicate → List Node → List Stage → Prop
  | nil : Faithful nodes [] nodes []
  | cons {p earlier L K stage rest} (hrest : Faithful nodes earlier L rest)
      (hkeep : (Eager.keep p L).Yields K) (hbusy : stage.kept.busy = false)
      (htracks : Tracks p L K stage) : Faithful nodes (p :: earlier) K (stage :: rest)

theorem Faithful.length_le {nodes : List Node} {ps : List Predicate} {stages : List Stage}
    (h : Faithful nodes ps K stages) : K.length ≤ nodes.length := by
  induction h with
  | nil => exact le_refl _
  | cons _ hkeep _ _ ih => exact (Eager.length_keepFrom hkeep).trans ih

theorem faithful_initial {nodes : List Node} {ps : List Predicate}
    (h : Eager.Kept nodes ps K) : Faithful nodes ps K (ps.map initial) := by
  induction ps generalizing K with
  | nil =>
    obtain rfl := h
    exact .nil
  | cons p earlier ih =>
    obtain ⟨L, hL, hkeep⟩ := h
    exact .cons (ih hL) hkeep (busy_initial p) (tracks_initial hkeep)

end Stage

/-- The nodes found by a read are those of a list, as far as the read asked for them. -/
def Candidates.Shown (L found : List Node) : Option Nat → Prop
  | some i => found[i]? = L[i]?
  | none => found = L

/-- Among stages of some kind reads give the nodes of a list, and never fail. -/
def Provides (I : List Stage → Prop) (read : Option Nat → Eval (List Node)) (L : List Node) :
    Prop :=
  ∀ stop s, I s.stages →
    Ends (fun found t => Candidates.Shown L found stop ∧ I t.stages) (fun _ _ => False)
      (read stop s)

theorem Provides.all {I : List Stage → Prop} {read : Option Nat → Eval (List Node)}
    {L : List Node} (h : Provides I read L) : (read none).Settles I L :=
  Eval.settles_iff.2 fun s hI => h none s hI

/-- What a stage remembers is what its predicate keeps, as far as a read asks for it. -/
theorem Stage.Tracks.shown {p : Predicate} {L K : List Node} {stage : Stage}
    (h : Tracks p L K stage) {stop : Option Nat} (ha : stage.kept.answers stop = true) :
    Candidates.Shown K stage.kept.found stop := by
  cases stop with
  | none => exact h.finished (.inl ha)
  | some i =>
    obtain ⟨more, rfl⟩ := h.found_begins
    rcases Bool.or_eq_true_iff.1 ha with he | hi
    · have hall := h.finished (.inl he)
      rw [Candidates.Shown, ← hall]
    · exact (List.getElem?_append_left (by simpa using hi)).symm

/-- What is asked of a stage is answered, and the stage is on its way and closer to its end. -/
def Pull.Answers (p : Predicate) (L K : List Node) (before after : Stage) : Pull → Prop
  | .node n =>
    Stage.Tracks p L K (after.remember (before.kept.extended n)) ∧
      Stage.left p L after < Stage.left p L before
  | .nothing =>
    Stage.Tracks p L K (after.remember before.kept.released) ∧
      Stage.left p L after < Stage.left p L before
  | .finished => before.kept.found = K

namespace Predicate

variable {I : List Stage → Prop} {source : Option Nat → Eval (List Node)} {L K : List Node}
  {stage : Stage} {rest : List Stage}

/-- What asking a stage once ends with. -/
def Answered (p : Predicate) (L K : List Node) (I : List Stage → Prop) (stage : Stage) :
    EStateM.Result Error State Pull → Prop :=
  Ends
    (fun answer t => ∃ stage' rest', t.stages = stage' :: rest' ∧ I rest' ∧
      stage'.kept = stage.kept ∧ answer.Answers p L K stage stage')
    fun _ _ => False

theorem settles_size (h : Provides I source L) : (size source).Settles I L.length :=
  Eval.settles_bind h.all (Eval.settles_pure _)

theorem pullPosition_spec {x : Float} (hs : Provides I source L) (hI : I rest)
    (hkeep : (Eager.keep (.position x) L).Yields K)
    (htracks : Stage.Tracks (.position x) L K stage) (hopen : stage.kept.exhausted = false)
    (log : List String) :
    Answered (.position x) L K I stage (pull source (.position x) ⟨log, stage :: rest⟩) := by
  -- A number literal judges nothing.
  have hjudge : ∀ judge, Predicate.position x = .test judge → ∀ {nodes : List Node} {n}
      {s : State}, stage.closed = false → nodes[stage.taken]? = some n →
        Candidates.Shown L nodes (some stage.taken) ∧ I s.stages →
          Ends (fun _ _ => True) (fun _ _ => True)
            (judge ⟨n, stage.tried + 1, size source⟩ s) := by
    rintro _ ⟨⟩
  refine (pull_ends hs hjudge hI).mono (fun answer t h => ?_) fun e t h => ?_
  · cases h with
    | looked hc h =>
      -- A number literal that has looked finds nothing more.
      exact ⟨_, _, rfl, h.2, rfl, htracks.finished (.inr hc)⟩
    | @missed _ _ _ _ _ _ nodes hc hn h =>
      obtain ⟨-, hshown, hI⟩ := h
      obtain ⟨hx, hfound⟩ := htracks.ahead hopen hc
      refine ⟨_, _, rfl, hI, rfl, hfound.trans ?_⟩
      rw [Eager.keep_position hkeep, if_pos hx, ← show nodes[_]? = L[_]? from hshown, hn]
      rfl
    | @hit _ _ _ _ _ _ nodes n hc hn h =>
      obtain ⟨-, hshown, hI⟩ := h
      obtain ⟨hx, hfound⟩ := htracks.ahead hopen hc
      have hn : L[Number.wholePart x - 1]? = some n := hshown.symm.trans hn
      refine ⟨_, _, rfl, hI, rfl, ⟨fun _ => ?_, by simp [Stage.shut, Stage.remember]⟩, ?_⟩
      · rw [Eager.keep_position hkeep, if_pos hx, hn]
        simp [Stage.remember, Sequence.extended, hfound]
      · have hlt : Number.wholePart x - 1 < L.length := (List.getElem?_eq_some_iff.1 hn).1
        simp only [Stage.left, Stage.shut, hc, if_true, Bool.false_eq_true, if_false]
        omega
  · cases h with
    | looking _ h => exact h.2

section Test

variable {σ : Setting} {judge judge' : Context → Eval Verdict}
  (hj : (Accord.laziness σ).Predicates (.test judge) (.test judge')) (hs : Provides I source L)
  (htracks : Stage.Tracks (.test judge') L K stage) (hopen : stage.kept.exhausted = false)

include hj hs htracks hopen

/-- The judgement of the next candidate may count the candidates; it then reads all that the stages
before keep. -/
theorem judge_spec (hc : stage.closed = false) {n : Node} (hn : L[stage.taken]? = some n)
    {t : State} (ht : I t.stages) :
    Ends (fun v u => (v.answer n).Answers (.test judge') L K stage (stage.judged v) ∧ I u.stages)
      (fun _ _ => False) (judge ⟨n, stage.tried + 1, size source⟩ t) := by
  obtain ⟨htried, later, hlater, hfound⟩ := htracks.ahead hopen hc
  obtain ⟨hlt, hget⟩ := List.getElem?_eq_some_iff.1 hn
  rw [List.drop_eq_getElem_cons hlt, hget] at hlater
  obtain ⟨v, hv, hlater⟩ := Eager.yields_keepFrom_cons hlater
  have hcontexts : (Accord.laziness σ).Contexts I ⟨n, stage.tried + 1, size source⟩
      ⟨n, stage.taken + 1, pure L.length⟩ :=
    ⟨rfl, trivial, by simp [htried], fun m hm => Eval.yields_pure hm ▸ settles_size hs⟩
  have hleft : Stage.left (.test judge') L (stage.judged v) <
      Stage.left (.test judge') L stage := by
    simp only [Stage.left, Stage.taken_judged]
    omega
  cases hj with
  | test hj =>
    obtain ⟨-, hsettles⟩ := hj hcontexts v hv
    refine (Eval.settles_iff.1 hsettles t ht).mono ?_ fun _ _ h => h
    intro v' u hvu
    obtain ⟨rfl, hu⟩ := hvu
    refine ⟨?_, hu⟩
    cases v' with
    | picked =>
      refine ⟨⟨fun _ => ?_, by simp [Stage.judged, Stage.shut, Stage.remember]⟩, hleft⟩
      rw [← hfound, hlater]
      rfl
    | kept =>
      obtain ⟨more, rfl, hmore⟩ := hlater
      refine ⟨⟨?_, fun _ _ => ?_⟩, hleft⟩
      · simp [Stage.judged, Stage.advanced, Stage.remember, Sequence.extended, hopen, hc]
      · exact ⟨by simp [Stage.judged, Stage.advanced, Stage.remember, htried], more, hmore,
          by rw [← hfound]; simp [Stage.remember, Sequence.extended]⟩
    | dropped =>
      refine ⟨⟨?_, fun _ _ => ?_⟩, hleft⟩
      · simp [Stage.judged, Stage.advanced, Stage.remember, Sequence.released, hopen, hc]
      · exact ⟨by simp [Stage.judged, Stage.advanced, Stage.remember, htried], later, hlater,
          hfound⟩

theorem pullNext_spec (hI : I rest) (log : List String) :
    Answered (.test judge') L K I stage (pull source (.test judge) ⟨log, stage :: rest⟩) := by
  have hjudge : ∀ j, Predicate.test judge = .test j → ∀ {nodes : List Node} {n} {t : State},
      stage.closed = false → nodes[stage.taken]? = some n →
        Candidates.Shown L nodes (some stage.taken) ∧ I t.stages →
          Ends
            (fun v u =>
              (v.answer n).Answers (.test judge') L K stage (stage.judged v) ∧ I u.stages)
            (fun _ _ => False) (j ⟨n, stage.tried + 1, size source⟩ t) := by
    rintro _ ⟨⟩ nodes n t hc hn ⟨hshown, ht⟩
    exact judge_spec hj hs htracks hopen hc (hshown.symm.trans hn) ht
  refine (pull_ends hs hjudge hI).mono (fun answer t h => ?_) fun e t h => ?_
  · cases h with
    | hushed _ h => exact h.2.elim
    | ended hn h =>
      obtain ⟨-, hshown, hI⟩ := h
      have hn : L[stage.taken]? = none := hshown.symm.trans hn
      refine ⟨_, _, rfl, hI, rfl, ?_⟩
      by_cases hc : stage.closed = true
      · exact htracks.finished (.inr hc)
      -- All candidates have been taken, so nothing is missing of the whole.
      obtain ⟨-, later, hlater, hfound⟩ := htracks.ahead hopen (by simpa using hc)
      rw [List.drop_eq_nil_of_le (List.getElem?_eq_none_iff.1 hn)] at hlater
      obtain rfl := Eval.yields_pure hlater
      exact (List.append_nil _).symm.trans hfound
    | late hc _ h =>
      -- A stage that has picked its candidate only finds out whether there is another one.
      exact ⟨_, _, rfl, h.2.2, rfl, htracks.finished (.inr hc)⟩
    | judged _ _ v h => exact ⟨_, _, rfl, h.2.2, Stage.kept_judged stage v, h.2.1⟩
  · cases h with
    | trying _ h => exact h.2
    | judging _ _ h => exact h.2

end Test

/-- Asked once more, a stage answers as the plain reading of its predicate wants it to. -/
theorem pull_spec {σ : Setting} {p p' : Predicate} (hp : (Accord.laziness σ).Predicates p p')
    (hs : Provides I source L) (hI : I rest) (hkeep : (Eager.keep p' L).Yields K)
    (htracks : Stage.Tracks p' L K stage) (hopen : stage.kept.exhausted = false)
    (log : List String) :
    Answered p' L K I stage (p.pull source ⟨log, stage :: rest⟩) := by
  cases hp with
  | position x => exact pullPosition_spec hs hI hkeep htracks hopen log
  | test hj => exact pullNext_spec (.test hj) hs htracks hopen hI log

end Predicate

/-! ### Reads -/

namespace Stage

variable {I : List Stage → Prop} {source : Option Nat → Eval (List Node)} {p p' : Predicate}
  {L K : List Node} {stage : Stage} {rest : List Stage}

/-- What a stage remembers of being at work does not matter to its way. -/
theorem Tracks.occupied (h : Tracks p L K stage) :
    Tracks p L K (stage.remember stage.kept.occupied) := by
  refine ⟨h.finished, fun he hc => ?_⟩
  have ha := h.ahead he hc
  cases p <;> exact ha

theorem left_remember (q : Sequence) : left p L (stage.remember q) = left p L stage := by
  cases p <;> rfl

/-- A stage that is not at work and on its way, before stages of some kind. -/
def OnTrack (p : Predicate) (L K : List Node) (I : List Stage → Prop) (stages : List Stage) :
    Prop :=
  ∃ stage rest, stages = stage :: rest ∧ stage.kept.busy = false ∧ Tracks p L K stage ∧ I rest

/-- A read ends with an answer, if there is fuel for all that the stage may have to be asked. -/
theorem fill_spec {σ : Setting} (hp : (Accord.laziness σ).Predicates p p')
    (hs : Provides I source L) (hkeep : (Eager.keep p' L).Yields K) (stop : Option Nat)
    {fuel : Nat} {s : State} (h : OnTrack p' L K I s.stages)
    (hfuel : left p' L (nearest s) ≤ fuel) :
    Ends (fun _ t => OnTrack p' L K I t.stages ∧ (place.get t).answers stop = true)
      (fun _ _ => False) (place.fill (p.pull source) stop fuel s) := by
  -- Each round uses up one of the times that the stage may have to be asked.
  refine fill_ends (P := fun m s => OnTrack p' L K I s.stages ∧ left p' L (nearest s) ≤ m)
    ?_ ?_ ?_ ?_ ⟨h, hfuel⟩
  · rintro s ⟨-, hfuel⟩
    have := left_pos p' L (nearest s)
    omega
  · exact fun h ha => ⟨h.1, ha⟩
  · rintro m ⟨log, _⟩ ⟨⟨stage, rest, rfl, hidle, -⟩, -⟩ _ hb
    exact Bool.false_ne_true (hidle.symm.trans hb)
  · rintro m log stage rest ⟨⟨_, _, ⟨⟩, -, htracks, hI⟩, hfuel⟩ ha _
    have hopen := Sequence.not_exhausted_of_answers ha
    have hfuel : left p' L stage ≤ m + 1 := hfuel
    have hleft : left p' L (stage.remember stage.kept.occupied) = left p' L stage :=
      left_remember _
    refine (p.pull_spec hp hs hI hkeep htracks.occupied hopen log).mono (fun answer t h => ?_)
      fun _ _ h => h
    obtain ⟨tlog, _⟩ := t
    obtain ⟨stage', rest', rfl, hI, hkept, hanswers⟩ := h
    have hnext : ∀ q, left p' L stage' < left p' L (stage.remember stage.kept.occupied) →
        left p' L (stage'.remember q) ≤ m := fun q hlt => by
      rw [left_remember]
      omega
    cases answer with
    | node n =>
      obtain ⟨htracks, hlt⟩ := hanswers
      rw [← hkept] at htracks
      exact ⟨⟨_, _, rfl, rfl, htracks, hI⟩, hnext _ hlt⟩
    | nothing =>
      obtain ⟨htracks, hlt⟩ := hanswers
      rw [← hkept] at htracks
      exact ⟨⟨_, _, rfl, rfl, htracks, hI⟩, hnext _ hlt⟩
    | finished =>
      refine ⟨⟨_, _, rfl, rfl, ⟨fun _ => ?_, fun h => by cases h⟩, hI⟩, by cases stop <;> rfl⟩
      exact (congrArg Sequence.found hkept).trans hanswers

end Stage

namespace Candidates

open Stage

/-- A read of faithful stages gives what the plain reading of the predicates keeps. -/
theorem provides_read {σ : Setting} (nodes : List Node) {ps ps' : List Predicate} {K : List Node}
    (hp : List.Forall₂ (Accord.laziness σ).Predicates ps ps') :
    Provides (Faithful nodes ps' K) (read nodes ps) K := by
  induction hp generalizing K with
  | nil =>
    rintro stop ⟨log, _⟩ ⟨⟩
    cases stop with
    | none => exact ⟨rfl, .nil⟩
    | some i => exact ⟨rfl, .nil⟩
  | @cons p p' earlier earlier' hp _ ih =>
    rintro stop ⟨log, stages⟩ hs
    cases hs with
    | @cons _ _ L _ stage rest hrest hkeep hbusy htracks =>
      have hfuel : left p' L stage ≤ nodes.length + 1 :=
        (left_le p' L stage).trans (Nat.succ_le_succ hrest.length_le)
      have hfill := fill_spec hp (ih (K := L)) hkeep stop (s := ⟨log, stage :: rest⟩)
        ⟨stage, rest, rfl, hbusy, htracks, hrest⟩ hfuel
      refine (read_cons_ends hfill).mono ?_ fun _ _ h => h
      rintro found ⟨tlog, _⟩ ⟨rfl, ⟨stage', rest', rfl, hbusy', htracks', hrest'⟩, ha⟩
      exact ⟨htracks'.shown ha, .cons hrest' hkeep hbusy' htracks'⟩

variable {β : Type} {I : List Stage → Prop} {σ : Setting} {nodes K : List Node}
  {ps ps' : List Predicate} {visit : Node → β → Eval β} {f : β → Node → β}

/-- Visiting all kept candidates one by one comes to the same as visiting the list of them. -/
theorem settles_eachFrom (hp : List.Forall₂ (Accord.laziness σ).Predicates ps ps')
    (hv : ∀ n ∈ K, ∀ b, (visit n b).Settles I (f b n)) {fuel i : Nat} {stages : List Stage}
    (hs : Faithful nodes ps' K stages) (hfuel : K.length < i + fuel) (b : β) :
    (eachFrom nodes ps (fun _ => false) visit fuel i stages b).Settles I
      ((K.drop i).foldl f b) := by
  refine Eval.settles_iff.2 fun s hI => ?_
  -- The visit sees the stages around the step, the read only those of the step.
  refine eachFrom_ends
    (W := fun m j stages b' s => Faithful nodes ps' K stages ∧ I s.stages ∧ K.length < j + m ∧
      (K.drop j).foldl f b' = (K.drop i).foldl f b) ?_ (fun _ he => by cases he) ?_
    ⟨hs, hI, hfuel, rfl⟩
  · rintro j stages b' s ⟨-, hI, hlt, hleft⟩
    rw [List.drop_eq_nil_of_le (by omega)] at hleft
    exact ⟨hleft, hI⟩
  · rintro m j stages b' s ⟨hs, hI, hlt, hleft⟩ -
    refine (provides_read nodes hp (some j) ⟨s.log, stages⟩ hs).mono ?_ fun _ _ h => h
    rintro found t ⟨hshown, ht⟩
    have hshown : found[j]? = K[j]? := hshown
    rw [hshown]
    cases hn : K[j]? with
    | none =>
      rw [List.drop_eq_nil_of_le (List.getElem?_eq_none_iff.1 hn)] at hleft
      exact ⟨hleft, hI⟩
    | some n =>
      obtain ⟨hj, hget⟩ := List.getElem?_eq_some_iff.1 hn
      rw [List.drop_eq_getElem_cons hj, hget] at hleft
      have hvisit := hv n (hget ▸ List.getElem_mem hj) b'
      refine (Eval.settles_iff.1 hvisit ⟨t.log, s.stages⟩ hI).mono ?_ fun _ _ h => h
      rintro _ u ⟨rfl, hu⟩
      exact ⟨ht, hu, by omega, hleft⟩

/-- Visiting what predicates keep, from the start. -/
theorem settles_each (hp : List.Forall₂ (Accord.laziness σ).Predicates ps ps')
    (hK : Eager.Kept nodes ps' K) (hv : ∀ n ∈ K, ∀ b, (visit n b).Settles I (f b n)) (b : β) :
    (each nodes ps (fun _ => false) visit b).Settles I (K.foldl f b) := by
  have hs := faithful_initial hK
  rw [← Accord.map_initial hp] at hs
  have hlen := hs.length_le
  exact settles_eachFrom hp hv hs (by omega) b

end Candidates

end XPath
