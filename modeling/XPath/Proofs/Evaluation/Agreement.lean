/-
Evaluations that come to the same.

Two views that show the same of all nodes that come up lead an evaluation through the same states to
the same result.  Nodes come up in candidates, and what stages keep of these are candidates, in
their order and each of them at most once.  So the nodes that a stage has kept are known if the
candidates are, and they are all different if the candidates are.

* `Value.Unique`, `Value.Among` — no node twice, and known nodes only;
* `Setting.Shared` — what the settings of two evaluations have in common;
* `Eval.Agree`, `Accord.agreement` — actions that do the same;
* `Stage.Takes`, `Stage.Orderly` — the invariant of a stage, and of all stages of a step;
* `Predicate.pull_agree`, `Stage.fill_agree`, `Candidates.read_agree` — asking a stage once, until
  it can answer, and reading what it has kept;
* `Candidates.agree_eachFrom` — visiting the kept candidates.
-/
import XPath.Proofs.Evaluation.Accord
import XPath.Proofs.Evaluation.Rules

namespace XPath

/-! ### Values -/

namespace Value

/-- No node is there twice. -/
def Unique : Value → Prop
  | nodeSet s => s.nodes.Nodup
  | _ => True

/-- All nodes are known. -/
def Among (Known : Node → Prop) : Value → Prop
  | nodeSet s => ∀ n ∈ s.nodes, Known n
  | _ => True

theorem unique_ofNodes (nodes : List Node) : (ofNodes nodes).Unique := nodup_firstOccurrences nodes

theorem among_ofNodes {Known : Node → Prop} {nodes : List Node} (h : ∀ n ∈ nodes, Known n) :
    (ofNodes nodes).Among Known :=
  fun n hn => h n (mem_firstOccurrences.1 hn)

end Value

/-! ### Actions -/

/-- Among stages of some kind two actions do the same.  They leave stages of that kind, and a
result satisfies a predicate. -/
def Eval.Agree {α : Type} (I : List Stage → Prop) (P : α → Prop) (x y : Eval α) : Prop :=
  ∀ s, I s.stages → x s = y s ∧ Ends (fun a t => P a ∧ I t.stages) (fun _ t => I t.stages) (x s)

namespace Eval

variable {α β : Type} {I : List Stage → Prop} {P : α → Prop} {Q : β → Prop}

theorem Agree.mono {x y : Eval α} {P' : α → Prop} (h : x.Agree I P y) (hP : ∀ a, P a → P' a) :
    x.Agree I P' y :=
  fun s hs => ⟨(h s hs).1, (h s hs).2.mono (fun a _ ha => ⟨hP a ha.1, ha.2⟩) fun _ _ => id⟩

theorem Agree.meets {x y : Eval α} (h : x.Agree I P y) {s : State} (hs : I s.stages) :
    Meets (fun _ => False) (fun a t u => t = u ∧ P a ∧ I t.stages)
      (fun _ t u => t = u ∧ I t.stages) (x s) (y s) := by
  obtain ⟨heq, hends⟩ := h s hs
  rw [← heq]
  exact .of_ends hends

/-- What does the same from all states is the same. -/
theorem Agree.eq {x y : Eval α} (h : x.Agree (fun _ => True) P y) : x = y :=
  funext fun s => (h s trivial).1

theorem agree_pure {a : α} (h : P a) : Agree I P (pure a) (pure a) := fun _ hs => ⟨rfl, h, hs⟩

theorem agree_throw (e : Error) : Agree I P (throw e : Eval α) (throw e) := fun _ hs => ⟨rfl, hs⟩

theorem agree_bind {x y : Eval α} {f g : α → Eval β} (hx : x.Agree I P y)
    (hf : ∀ a, P a → (f a).Agree I Q (g a)) : (x >>= f : Eval β).Agree I Q (y >>= g) := by
  intro s hs
  refine ((hx.meets hs).bind fun a t _ _ h => ?_).eq
  obtain ⟨rfl, ha, ht⟩ := h
  exact (hf a ha).meets ht

/-- An action whose result is passed on by a function. -/
theorem agree_map {x y : Eval α} {f : α → β} (hx : x.Agree I P y) (hf : ∀ a, P a → Q (f a)) :
    Eval.Agree I Q (x >>= fun a => pure (f a)) (y >>= fun a => pure (f a)) :=
  agree_bind hx fun a ha => agree_pure (hf a ha)

end Eval

/-! ### The accord -/

/-- A setting that an evaluation in another view shares: all that it starts from is known, and no
node is twice in what it has. -/
structure Setting.Shared (σ : Setting) (w : View) (Known : Node → Prop) : Prop where
  alike : σ.view.Alike w Known
  document : Known σ.document
  root : Known σ.root
  nodup_descendants : (σ.view.descendants σ.document).Nodup
  bindings : ∀ p ∈ σ.bindings, p.2.Unique ∧ p.2.Among Known

/-- Doing the same, as an accord of evaluations in two views. -/
def Accord.agreement {σ : Setting} {w : View} {Known : Node → Prop} (h : σ.Shared w Known) :
    Accord (List Stage → Prop) where
  setting := σ
  mirror := w
  Known := Known
  alike := h.alike
  document := h.document
  root := h.root
  Holds I _ P x y := x.Agree I P y
  Good v := v.Unique ∧ v.Among Known
  Sized I x y := x.Agree I (fun _ => True) y
  size h := h
  sized := Eval.agree_pure trivial
  pure h := Eval.agree_pure h
  throw _ := Eval.agree_throw _
  bind hx hf := Eval.agree_bind hx hf
  known h := h.2
  scalar {v} hv := by cases v <;> first | exact ⟨trivial, trivial⟩ | exact (hv rfl).elim
  union {s t} hs ht := by
    have hperm := σ.view.sort_perm (firstOccurrences (s.nodes ++ t.nodes))
    refine ⟨hperm.nodup_iff.2 (nodup_firstOccurrences _), fun n hn => ?_⟩
    have hn := mem_firstOccurrences.1 (hperm.mem_iff.1 hn)
    exact (List.mem_append.1 hn).elim (hs.2 n) (ht.2 n)
  identified words :=
    ⟨h.nodup_descendants.filter _,
      fun _ hn => h.alike.known_descendants h.document (List.mem_of_mem_filter hn)⟩

/-! ### What stages keep -/

namespace Stage

/-- What a stage has kept of the candidates it takes from: at most the one that a number literal
picks, and only when it is closed, or some of those that it has taken, in their order. -/
def Takes : Predicate → List Node → List Node → Stage → Prop
  | .position _, L, kept, stage => kept.Sublist L ∧ (stage.closed = false → kept = [])
  | .test _, L, kept, stage => stage.taken ≤ L.length ∧ kept.Sublist (L.take stage.taken)

/-- The stage of a predicate, before which stages of some kind keep its candidates. -/
def Atop (p : Predicate) (I : List Node → List Stage → Prop) (K : List Node)
    (stages : List Stage) : Prop :=
  ∃ stage rest L, stages = stage :: rest ∧ stage.kept.found = K ∧ I L rest ∧ Takes p L K stage

/-- Stages of predicates, last to first, the last of which has kept `K`. -/
def Orderly (nodes : List Node) : List Predicate → List Node → List Stage → Prop
  | [], K, stages => K = nodes ∧ stages = []
  | p :: earlier, K, stages => Atop p (Orderly nodes earlier) K stages

/-- Stages of some kind that have kept at least `K`. -/
def Grown (I : List Node → List Stage → Prop) (K : List Node) (stages : List Stage) : Prop :=
  ∃ L, K <+: L ∧ I L stages

theorem Grown.trans {I : List Node → List Stage → Prop} {K L : List Node} {stages : List Stage}
    (hKL : K <+: L) (h : Grown I L stages) : Grown I K stages := by
  obtain ⟨M, hLM, hM⟩ := h
  exact ⟨M, hKL.trans hLM, hM⟩

variable {p : Predicate} {L K : List Node} {stage : Stage} {nodes : List Node}

theorem Takes.sublist (h : Takes p L K stage) : K.Sublist L := by
  cases p with
  | position x => exact h.1
  | test judge => exact h.2.trans (List.take_sublist _ L)

/-- More candidates do not change what has been taken of them. -/
theorem Takes.mono {M : List Node} (h : Takes p L K stage) (hLM : L <+: M) :
    Takes p M K stage := by
  obtain ⟨more, rfl⟩ := hLM
  cases p with
  | position x => exact ⟨h.1.trans (List.sublist_append_left L more), h.2⟩
  | test judge =>
    refine ⟨?_, ?_⟩
    · rw [List.length_append]
      exact Nat.le_add_right_of_le h.1
    · rw [List.take_append_of_le_length h.1]
      exact h.2

/-- What is kept are candidates, in their order. -/
theorem Orderly.sublist {ps : List Predicate} {stages : List Stage}
    (h : Orderly nodes ps K stages) : K.Sublist nodes := by
  induction ps generalizing K stages with
  | nil => exact h.1 ▸ List.Sublist.refl _
  | cons p earlier ih =>
    obtain ⟨stage, rest, L, -, -, hrest, htakes⟩ := h
    exact htakes.sublist.trans (ih hrest)

/-- The stage of a predicate starts with nothing kept. -/
theorem takes_initial (p : Predicate) (L : List Node) :
    Takes p L (initial p).kept.found (initial p) := by
  cases p with
  | position x =>
    have hfound : (initial (.position x)).kept.found = [] := by
      rw [initial]
      split <;> rfl
    rw [hfound]
    exact ⟨List.nil_sublist L, fun _ => rfl⟩
  | test judge => exact ⟨Nat.zero_le _, List.nil_sublist _⟩

theorem orderly_initial (nodes : List Node) (ps : List Predicate) :
    ∃ K, Orderly nodes ps K (ps.map initial) := by
  induction ps with
  | nil => exact ⟨nodes, rfl, rfl⟩
  | cons p earlier ih =>
    obtain ⟨L, hL⟩ := ih
    exact ⟨_, initial p, _, L, rfl, rfl, hL, takes_initial p L⟩

end Stage

/-! ### One more candidate -/

/-- Reads that do the same among stages of some kind, and find at least what was found before. -/
def Candidates.Sources (I : List Node → List Stage → Prop)
    (read read' : Option Nat → Eval (List Node)) : Prop :=
  ∀ stop K s, I K s.stages → read stop s = read' stop s ∧
    Ends (fun found t => K <+: found ∧ I found t.stages) (fun _ t => Stage.Grown I K t.stages)
      (read stop s)

/-- Reads and judgements that do the same before a stage that has found `L` there. -/
def Contract.agreeing (I : List Node → List Stage → Prop) (L : List Node) : Contract where
  lost _ := False
  before s t := s = t ∧ I L s.stages
  found _ nodes s t := s = t ∧ L <+: nodes ∧ I nodes s.stages
  failed _ _ s t := s = t ∧ Stage.Grown I L s.stages
  judged nodes _ _ s t := s = t ∧ L <+: nodes ∧ Stage.Grown I nodes s.stages
  refused nodes _ _ s t := s = t ∧ L <+: nodes ∧ Stage.Grown I nodes s.stages

namespace Stage

/-- The stage of a predicate that has been asked: it remembers what it did, and with what it gives
it has kept `K`. -/
def Holding (p : Predicate) (I : List Node → List Stage → Prop) (memory : Sequence)
    (K : List Node) (stages : List Stage) : Prop :=
  ∃ stage rest M, stages = stage :: rest ∧ stage.kept = memory ∧ I M rest ∧ Takes p M K stage

variable {I : List Node → List Stage → Prop} {L : List Node} {p : Predicate} {stage : Stage}
  {s t : State}

/-- What has been taken now ends with the candidate, which is the only one that may be kept. -/
theorem Takes.advanced {judge : Context → Eval Verdict} {K candidates : List Node} {n : Node}
    (h : Takes (.test judge) candidates K stage) (hn : candidates[stage.taken]? = some n) :
    Takes (.test judge) candidates K stage.advanced ∧
      Takes (.test judge) candidates (K ++ [n]) stage.advanced := by
  obtain ⟨hlt, hget⟩ := List.getElem?_eq_some_iff.1 hn
  have htake : candidates.take (stage.taken + 1) = candidates.take stage.taken ++ [n] := by
    rw [List.take_succ_eq_append_getElem hlt, hget]
  refine ⟨⟨hlt, ?_⟩, hlt, ?_⟩
  · rw [Stage.advanced, htake]
    exact h.2.trans (List.sublist_append_left _ _)
  · rw [Stage.advanced, htake]
    exact h.2.append (List.Sublist.refl _)

theorem Takes.shut {x : Float} {K : List Node} (h : Takes (.position x) L K stage) :
    Takes (.position x) L K stage.shut :=
  ⟨h.1, fun h => by cases h⟩

theorem Asked.holding {answer : Pull} (h : Asked (.agreeing I L) p stage answer s t)
    (htakes : Takes p L stage.kept.found stage) :
    s = t ∧ Holding p I stage.kept (noted answer stage.kept).found s.stages := by
  cases h with
  | looked _ h =>
    obtain ⟨⟨⟩, hI⟩ := h
    exact ⟨rfl, _, _, L, rfl, rfl, hI, htakes⟩
  | missed _ _ h =>
    obtain ⟨⟨⟩, hLM, hM⟩ := h
    exact ⟨rfl, _, _, _, rfl, rfl, hM, (htakes.mono hLM).shut⟩
  | hit hc hn h =>
    obtain ⟨⟨⟩, hLM, hM⟩ := h
    refine ⟨rfl, _, _, _, rfl, rfl, hM, ?_, fun h => by cases h⟩
    show (stage.kept.found ++ [_]).Sublist _
    rw [htakes.2 hc]
    exact List.singleton_sublist.2 (List.mem_of_getElem? hn)
  | @hushed judge _ _ _ _ _ _ _ h =>
    obtain ⟨⟨⟩, M, hLM, hM⟩ := h
    exact ⟨rfl, stage.attempted, _, M, rfl, rfl, hM, htakes.mono hLM⟩
  | ended _ h =>
    obtain ⟨⟨⟩, hLM, hM⟩ := h
    exact ⟨rfl, _, _, _, rfl, rfl, hM, htakes.mono hLM⟩
  | late _ hn h =>
    obtain ⟨⟨⟩, hLM, hM⟩ := h
    exact ⟨rfl, _, _, _, rfl, rfl, hM, ((htakes.mono hLM).advanced hn).1⟩
  | judged _ hn v h =>
    obtain ⟨⟨⟩, hLM, M, hM, hI⟩ := h
    obtain ⟨hdropped, hkept⟩ := (htakes.mono hLM).advanced hn
    refine ⟨rfl, _, _, M, rfl, kept_judged stage v, hI, ?_⟩
    cases v with
    | picked => exact hkept.mono hM
    | kept => exact hkept.mono hM
    | dropped => exact hdropped.mono hM

theorem Failed.holding {e : Error} (h : Failed (.agreeing I L) p stage e s t)
    (htakes : Takes p L stage.kept.found stage) :
    s = t ∧ Holding p I stage.kept stage.kept.found s.stages := by
  cases h with
  | looking _ h =>
    obtain ⟨⟨⟩, M, hLM, hM⟩ := h
    exact ⟨rfl, _, _, M, rfl, rfl, hM, (htakes.mono hLM).shut⟩
  | trying _ h =>
    obtain ⟨⟨⟩, M, hLM, hM⟩ := h
    exact ⟨rfl, stage.attempted, _, M, rfl, rfl, hM, htakes.mono hLM⟩
  | judging _ hn h =>
    obtain ⟨⟨⟩, hLM, M, hM, hI⟩ := h
    exact ⟨rfl, _, _, M, rfl, rfl, hI, ((htakes.mono hLM).advanced hn).1.mono hM⟩

end Stage

namespace Predicate

variable {I : List Node → List Stage → Prop} {source source' : Option Nat → Eval (List Node)}
  (hs : Candidates.Sources I source source') {L : List Node}

include hs

/-- The candidates are counted alike. -/
theorem size_agree : (size source).Agree (Stage.Grown I L) (fun _ => True) (size source') := by
  have hnone : (source none).Agree (Stage.Grown I L) (fun _ => True) (source' none) := by
    rintro s ⟨K, hLK, hK⟩
    obtain ⟨heq, hends⟩ := hs none K s hK
    exact ⟨heq, hends.mono (fun found _ h => ⟨trivial, found, hLK.trans h.1, h.2⟩)
      fun _ _ h => h.trans hLK⟩
  exact Eval.agree_map hnone fun _ _ => trivial

/-- Asked once more, the stages of predicates in accord do the same. -/
theorem pull_agree {σ : Setting} {w : View} {Known : Node → Prop} {h : σ.Shared w Known}
    (hknown : ∀ {K stages}, I K stages → ∀ n ∈ K, Known n) {p p' : Predicate}
    (hp : (Accord.agreement h).Predicates p p') {stage : Stage} {rest : List Stage} (hI : I L rest)
    (ht : Stage.Takes p L stage.kept.found stage) (log : List String) :
    Meets (fun _ => False)
      (fun answer s t =>
        s = t ∧ Stage.Holding p I stage.kept (Stage.noted answer stage.kept).found s.stages)
      (fun _ s t => s = t ∧ Stage.Holding p I stage.kept stage.kept.found s.stages)
      (p.pull source ⟨log, stage :: rest⟩) (p'.pull source' ⟨log, stage :: rest⟩) := by
  have hreads : (Contract.agreeing I L).Reads source source' := by
    rintro stop s _ ⟨rfl, hI⟩
    obtain ⟨heq, hends⟩ := hs stop L s hI
    rw [← heq]
    exact .of_ends hends
  have hjudges : (Contract.agreeing I L).Judges source source' stage p p' := by
    cases hp with
    | position x => exact .position x
    | test hj =>
      refine .test fun {nodes n s t} _ hn h => ?_
      obtain ⟨rfl, hLn, hnodes⟩ := h
      have hc : (Accord.agreement h).Contexts (Stage.Grown I nodes)
          ⟨n, stage.tried + 1, size source⟩ ⟨n, stage.tried + 1, size source'⟩ :=
        ⟨rfl, hknown hnodes n (List.mem_of_getElem? hn), rfl, size_agree hs⟩
      exact ((hj hc).meets ⟨nodes, List.prefix_refl _, hnodes⟩).mono
        (fun _ _ _ h => ⟨h.1, hLn, h.2.2⟩) fun _ _ _ h => ⟨h.1, hLn, h.2⟩
  exact (pull_asked hreads ⟨rfl, hI⟩ hjudges fun _ _ => id).mono (fun _ _ _ h => h.holding ht)
    fun _ _ _ h => h.holding ht

end Predicate

/-! ### Reads -/

namespace Stage

/-- What has been taken does not depend on what is remembered. -/
theorem takes_remember {p : Predicate} {L K : List Node} {stage : Stage} (q : Sequence) :
    Takes p L K (stage.remember q) ↔ Takes p L K stage := by
  cases p <;> exact Iff.rfl

/-- A stage that has been asked remembers what it has kept. -/
theorem Holding.atop {p : Predicate} {I : List Node → List Stage → Prop} {K : List Node}
    {memory : Sequence} {t : State} (h : Holding p I memory K t.stages) {f : Sequence → Sequence}
    (hf : (f memory).found = K) : Atop p I K (noting f t).stages := by
  obtain ⟨log, stages⟩ := t
  obtain ⟨stage, rest, M, rfl, rfl, hM, htakes⟩ := h
  exact ⟨stage.remember (f stage.kept), rest, M, rfl, hf, hM, (takes_remember _).2 htakes⟩

/-- What has been kept stays kept. -/
theorem found_noted (answer : Pull) (q : Sequence) : q.found <+: (noted answer q).found := by
  cases answer with
  | node n => exact List.prefix_append _ _
  | nothing => exact List.prefix_refl _
  | finished => exact List.prefix_refl _

variable {σ : Setting} {w : View} {Known : Node → Prop} {h : σ.Shared w Known}
  {I : List Node → List Stage → Prop} {source source' : Option Nat → Eval (List Node)}
  {p p' : Predicate}

/-- A read asks the stages on both sides the same, and what has been kept stays kept. -/
theorem fill_agree (hs : Candidates.Sources I source source')
    (hknown : ∀ {K stages}, I K stages → ∀ n ∈ K, Known n)
    (hp : (Accord.agreement h).Predicates p p') (stop : Option Nat) (fuel : Nat) {K : List Node}
    {s : State} (hK : Atop p I K s.stages) :
    Meets (fun _ => False) (fun _ s t => s = t ∧ Grown (Atop p I) K s.stages)
      (fun _ s t => s = t ∧ Grown (Atop p I) K s.stages)
      (place.fill (p.pull source) stop fuel s) (place.fill (p'.pull source') stop fuel s) := by
  refine fill_meets_together (W := fun _ s t => s = t ∧ Grown (Atop p I) K s.stages)
    (fun h => congrArg _ h.1) id (fun h _ => h) (fun h _ _ => h) ?_
    ⟨rfl, K, List.prefix_refl K, hK⟩
  rintro m log _ stage _ rest _ ⟨⟨⟩, M, hKM, _, _, L, ⟨⟩, rfl, hI, htakes⟩ - -
  have htakes := (takes_remember stage.kept.occupied).2 htakes
  refine (Predicate.pull_agree hs hknown hp hI htakes log).mono (fun answer u v h => ?_)
    fun e u v h => ?_
  · obtain ⟨rfl, hholding⟩ := h
    have hgrown : Grown (Atop p I) K (noting (noted answer) u).stages :=
      ⟨_, hKM.trans (found_noted answer stage.kept.occupied), hholding.atop rfl⟩
    cases answer with
    | node n => exact ⟨rfl, hgrown⟩
    | nothing => exact ⟨rfl, hgrown⟩
    | finished => exact ⟨rfl, hgrown⟩
  · obtain ⟨rfl, hholding⟩ := h
    exact ⟨rfl, _, hKM, hholding.atop rfl⟩

end Stage

namespace Candidates

open Stage

variable {σ : Setting} {w : View} {Known : Node → Prop} {h : σ.Shared w Known} {nodes : List Node}
  (hnodes : ∀ n ∈ nodes, Known n) {ps ps' : List Predicate}
  (hp : List.Forall₂ (Accord.agreement h).Predicates ps ps')

include hnodes hp

/-- Reads of what predicates in accord keep of known candidates do the same. -/
theorem read_agree : Sources (Orderly nodes ps) (read nodes ps) (read nodes ps') := by
  induction hp with
  | nil =>
    rintro stop K s ⟨rfl, hs⟩
    exact ⟨rfl, List.prefix_refl K, rfl, hs⟩
  | @cons p p' earlier earlier' hp _ ih =>
    intro stop K s hK
    have hknown : ∀ {K stages}, Orderly nodes earlier K stages → ∀ n ∈ K, Known n :=
      fun hK n hn => hnodes n (hK.sublist.subset hn)
    have hfill := fill_agree ih hknown hp stop (nodes.length + 1) hK
    refine ((read_meets hfill fun h => congrArg _ h.1).mono ?_ fun _ _ _ h => h).eq
    rintro _ ⟨log, stages⟩ _ ⟨rfl, rfl, L, hKL, hL⟩
    obtain ⟨stage, rest, M, rfl, rfl, hM, htakes⟩ := hL
    exact ⟨rfl, hKL, stage, rest, M, rfl, rfl, hM, htakes⟩

variable {β : Type} {enough : β → Bool} {visit visit' : Node → β → Eval β}
  {J : List Stage → Prop} {Q : List Node → β → Prop}
  (hv : ∀ seen n b, (seen ++ [n]).Sublist nodes → Q seen b →
    (visit n b).Agree J (Q (seen ++ [n])) (visit' n b))

include hv

/-- Visits that do the same make walks that do.  What is asked of the result of a visit may depend
on the candidates visited so far. -/
theorem agree_eachFrom {fuel i : Nat} {stages : List Stage} {K : List Node} {b : β}
    (hK : Orderly nodes ps K stages) (hi : i ≤ K.length) (hb : Q (K.take i) b) :
    (eachFrom nodes ps enough visit fuel i stages b).Agree J
      (fun b => ∃ seen, seen.Sublist nodes ∧ Q seen b)
      (eachFrom nodes ps' enough visit' fuel i stages b) := by
  intro s hs
  have hdone : ∀ {i : Nat} {K : List Node} {b : β}, K.Sublist nodes → Q (K.take i) b →
      ∃ seen, seen.Sublist nodes ∧ Q seen b :=
    fun hK hb => ⟨_, (List.take_sublist _ _).trans hK, hb⟩
  refine (eachFrom_meets_together (W := fun _ j stages stages' b s t =>
      stages = stages' ∧ s = t ∧ J s.stages ∧
        ∃ K, Orderly nodes ps K stages ∧ j ≤ K.length ∧ Q (K.take j) b)
    (J := fun b s t => s = t ∧ (∃ seen, seen.Sublist nodes ∧ Q seen b) ∧ J s.stages) ?_ ?_ ?_
    ⟨rfl, rfl, hs, K, hK, hi, hb⟩).eq
  · rintro j stages _ b s _ ⟨rfl, rfl, hs, K, hK, -, hb⟩
    exact ⟨rfl, hdone hK.sublist hb, hs⟩
  · rintro m j stages _ b s _ ⟨rfl, rfl, hs, K, hK, -, hb⟩ -
    exact ⟨rfl, hdone hK.sublist hb, hs⟩
  · rintro m j stages _ b s _ ⟨rfl, rfl, hs, K, hK, hj, hb⟩ -
    obtain ⟨heq, hends⟩ := read_agree hnodes hp (some j) K ⟨s.log, stages⟩ hK
    rw [← heq]
    refine (Meets.of_ends hends).mono ?_ fun e u v h => ⟨congrArg (State.mk · s.stages) ?_, hs⟩
    · rintro found u _ ⟨rfl, ⟨more, rfl⟩, hfound⟩
      cases hn : (K ++ more)[j]? with
      | none => exact ⟨rfl, hdone hK.sublist hb, hs⟩
      | some n =>
        obtain ⟨hlt, hget⟩ := List.getElem?_eq_some_iff.1 hn
        have htake : (K ++ more).take (j + 1) = K.take j ++ [n] := by
          rw [List.take_succ_eq_append_getElem hlt, hget, List.take_append_of_le_length hj]
        have hvisited : (K.take j ++ [n]).Sublist nodes := by
          rw [← htake]
          exact (List.take_sublist _ _).trans hfound.sublist
        have hvisit := hv (K.take j) n b hvisited hb
        refine (hvisit.meets (s := ⟨u.log, s.stages⟩) hs).mono ?_ fun _ _ _ h => h
        rintro b' s _ ⟨rfl, hb', hs⟩
        exact ⟨rfl, rfl, hs, _, hfound, hlt, htake.symm ▸ hb'⟩
    · rw [h.1]

/-- Visiting all that predicates keep, from the start. -/
theorem agree_each {b : β} (hb : Q [] b) :
    (each nodes ps enough visit b).Agree J (fun b => ∃ seen, seen.Sublist nodes ∧ Q seen b)
      (each nodes ps' enough visit' b) := by
  obtain ⟨K, hK⟩ := orderly_initial nodes ps
  rw [each, each, ← Accord.map_initial hp]
  exact agree_eachFrom hnodes hp hv hK (Nat.zero_le _) hb

end Candidates

end XPath
