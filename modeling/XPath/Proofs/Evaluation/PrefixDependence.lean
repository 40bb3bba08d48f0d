/-
A number literal looks no further than it must.

A number literal after another predicate asks that predicate for what it keeps up to one position,
and asks only once.  If the predicate does not ask for the number of its candidates, it judges them
from the first one on until as many have been kept, and none after that.  So candidates after these
make no difference: whatever is there instead, visiting what is kept comes to the same, with the
same error if there is one, and the same judgements are made.

* `Candidates.concur_literal` — a number literal finds the same of candidates that begin alike;
* `Predicate.BeginAlike` — lists of candidates that begin alike as far as it looks;
* `Candidates.visitedAlike_of_beginAlike` — what is kept of them is visited alike;
* `Predicate.impartial_watched`, … — so it is if the predicate is watched;
* `Log.EndAlike` — runs that end alike;
* `Path.select_endAlike`, `Path.collect_endAlike` — filters and steps whose runs do;
* `literal_looks_no_further` — paths end alike with candidates that begin alike.
-/
import XPath.Proofs.Evaluation.Coherence
import XPath.Proofs.Evaluation.Concurrence
import XPath.Proofs.Evaluation.Seeking
import XPath.Proofs.Number.Grains

namespace XPath

variable {R : List String → List String → Prop}

/-! ### A number literal on two sides -/

namespace Candidates

/-- The stages of a number literal and of the predicates before it: nothing has been asked of them
yet, or the literal has looked and never asks again. -/
inductive LiteralStages (x : Float) (p : Predicate) (I J : List Stage → Prop) :
    List Stage → List Stage → Prop
  | start {rest rest' : List Stage} (h : I rest) (h' : J rest') :
      LiteralStages x p I J (Stage.initial (.position x) :: Stage.initial p :: rest)
        (Stage.initial (.position x) :: Stage.initial p :: rest')
  | looked {stage : Stage} {rest rest' : List Stage} (hclosed : stage.closed = true)
      (hbusy : stage.kept.busy = false) (hlength : stage.kept.found.length ≤ 1) :
      LiteralStages x p I J (stage :: rest) (stage :: rest')

theorem within_one {found : List Node} (h : found.length ≤ 1) : Within (some 1) found := by
  rintro _ ⟨⟩
  exact h

section Literal

variable (hR : Equivalence R) {nodes nodes' : List Node} {earlier : List Predicate}
  (hearlier : ∀ p ∈ earlier, p.Steady) (hlogs : ∀ p ∈ earlier, p.Logs R) {A : List Node}
  (hA : A <+: (Supply.of nodes earlier).nodes) (hA' : A <+: (Supply.of nodes' earlier).nodes)
  {p : Predicate} (hp : p.Steady) (himpartial : p.Impartial R) (hsizeless : p.Sizeless A)
  {x : Float} (hx : Stage.isPosition x = true)
  (hsurvivors : Number.wholePart x - 1 < (p.survivors A).length)

include hR hearlier hlogs hA hA' hp himpartial hsizeless hx hsurvivors

/-- What a number literal keeps of candidates that begin alike is found alike. -/
theorem concur_literal :
    Concur R (LiteralStages x p (Stage.Tracked nodes earlier) (Stage.Tracked nodes' earlier))
      (some 1) (read nodes (.position x :: p :: earlier))
      (read nodes' (.position x :: p :: earlier)) := by
  have hshut : (Stage.initial (.position x)).shut = ⟨.fresh, 0, 0, true⟩ := by
    rw [Stage.initial, if_pos hx]
    rfl
  rintro stop ⟨log, _⟩ ⟨log', _⟩ ⟨hlog, hstages⟩
  cases hstages with
  | @start rest rest' h h' =>
    -- Both sides seek the same candidate, and the literal does not look again.
    have hsought := read_literal hR hearlier hlogs hA hp himpartial hsizeless hx hsurvivors h stop
      (s := ⟨log, []⟩) (hR.refl log)
    have hsought' := read_literal hR hearlier hlogs hA' hp himpartial hsizeless hx hsurvivors h'
      stop (s := ⟨log, []⟩) hlog
    generalize p.seek (Number.wholePart x - 1) A ⟨log, []⟩ = sought at hsought hsought'
    generalize read nodes (.position x :: p :: earlier) stop _ = r at hsought
    generalize read nodes' (.position x :: p :: earlier) stop _ = r' at hsought'
    cases hsought with
    | found hlog =>
      cases hsought' with
      | found hlog' =>
        exact .ok ⟨within_one (le_refl 1), hR.trans (hR.symm hlog) hlog',
          .looked rfl rfl (le_refl 1)⟩
    | failed hlog =>
      cases hsought' with
      | failed hlog' =>
        rw [hshut]
        exact .error ⟨hR.trans (hR.symm hlog) hlog', .looked rfl rfl (Nat.zero_le 1)⟩
  | @looked stage _ _ hclosed hbusy hlength =>
    rw [read_cons, read_cons, Predicate.pull, Predicate.pull, Stage.fill_closed hclosed hbusy,
      Stage.fill_closed hclosed hbusy]
    dsimp only [Stage.nearest_cons]
    split
    · exact .ok ⟨within_one hlength, hlog, .looked hclosed hbusy hlength⟩
    · exact .ok ⟨within_one hlength, hlog, .looked hclosed rfl hlength⟩

end Literal

end Candidates

/-! ### Candidates that begin alike -/

/-- Lists of candidates that begin alike for a predicate: what the predicates before it leave of
them begins with the same nodes, for which it does not ask for the size and of which it keeps at
least `k`. -/
def Predicate.BeginAlike (p : Predicate) (earlier : List Predicate) (k : Nat)
    (nodes nodes' : List Node) : Prop :=
  ∃ A, A <+: (Supply.of nodes earlier).nodes ∧ A <+: (Supply.of nodes' earlier).nodes ∧
    p.Sizeless A ∧ k ≤ (p.survivors A).length

theorem Candidates.visitedAlike_of_beginAlike (hR : Equivalence R) {earlier later : List Predicate}
    (hearlier : ∀ p ∈ earlier, p.Steady) (hlogs : ∀ p ∈ earlier, p.Logs R)
    (hlater : ∀ p ∈ later, p.Impartial R) {p : Predicate} (hp : p.Steady)
    (himpartial : p.Impartial R) {x : Float} (hx : Stage.isPosition x = true)
    {nodes nodes' : List Node} (h : p.BeginAlike earlier (Number.wholePart x) nodes nodes') :
    VisitedAlike R nodes (later ++ .position x :: p :: earlier) nodes'
      (later ++ .position x :: p :: earlier) := by
  obtain ⟨A, hA, hA', hsizeless, hsurvivors⟩ := h
  have hpos := Number.wholePart_pos hx
  have hlength := p.length_survivors_le A
  have hnonempty : ∀ {nodes : List Node}, A <+: (Supply.of nodes earlier).nodes →
      1 ≤ nodes.length := fun {nodes} hA => by
    have := hA.length_le.trans (Supply.length_of_le nodes earlier)
    omega
  have hnodes : Comparable (some 1) nodes nodes' := .inr ⟨1, rfl, hnonempty hA, hnonempty hA'⟩
  have hliteral := concur_literal hR hearlier hlogs hA hA' hp himpartial hsizeless hx
    (Nat.sub_one_lt_of_le hpos hsurvivors)
  intro T β enough visit visit' hv
  refine each_concurs (concur_append hnodes hliteral hlater) hv hnodes ?_
  rw [List.map_append]
  exact sameStages_initial
    (.start (Stage.tracked_initial nodes earlier) (Stage.tracked_initial nodes' earlier)) later

/-! ### Predicates that are watched -/

section Watched

variable {seen : String → Bool} {T : List Stage → List Stage → Prop}

theorem Log.Agree.cons {l l' : List String} (h : Log.Agree seen l l') (line : String) :
    Log.Agree seen (line :: l) (line :: l') := by
  rw [Agree, List.filter_cons, List.filter_cons, h]

variable (line : Node → Nat → String)

/-- Actions end alike after the same node and position have been logged. -/
theorem Context.concurs_logLine {α : Type} {c d : Context} (hnode : c.node = d.node)
    (hposition : c.position = d.position) {x y : Eval α} (h : x.Concurs (Log.Agree seen) T y) :
    Eval.Concurs (Log.Agree seen) T (do c.logLine (fun n position _ => line n position); x)
      (do d.logLine (fun n position _ => line n position); y) := by
  intro s t hst
  have hlog := hst.1.cons (line c.node c.position)
  exact h { s with log := line c.node c.position :: s.log }
    { t with log := line d.node d.position :: t.log } ⟨by rwa [← hnode, ← hposition], hst.2⟩

namespace Predicate

variable {p : Predicate}

theorem impartial_watched (hp : p.Impartial (Log.Agree seen)) :
    (p.watched fun n position _ => line n position).Impartial (Log.Agree seen) := by
  intro T
  cases p with
  | position x => exact .position x
  | test judge =>
    have hj := hp T
    cases hj with
    | test hj =>
      exact .test fun c d hc => Context.concurs_logLine line hc.node hc.position
        (hj (c.watched _) (d.watched _)
          ⟨hc.node, hc.position, Context.concurs_logLine line hc.node hc.position hc.size⟩)

theorem steady_watched (hp : p.Steady) :
    (p.watched fun n position _ => line n position).Steady := by
  cases p with
  | position x => trivial
  | test judge => exact steady_watching hp

/-- A predicate that is watched keeps the same candidates. -/
theorem survivors_watched (hp : p.Steady) (nodes : List Node) :
    (p.watched fun n position _ => line n position).survivors nodes = p.survivors nodes := by
  cases p with
  | position x => rfl
  | test judge =>
    have hfrom : ∀ position, Candidates.survivors
        (watching (fun n position _ => line n position) judge) position nodes =
          Candidates.survivors judge position nodes := by
      induction nodes with
      | nil => exact fun _ => rfl
      | cons n rest ih =>
        intro position
        rw [Candidates.survivors, Candidates.survivors, outcome_watching hp, ih]
    exact hfrom 1

theorem sizeless_watched {nodes : List Node} (hp : p.Sizeless nodes) :
    (p.watched fun n position _ => line n position).Sizeless nodes := by
  cases p with
  | position x => trivial
  | test judge =>
    intro i n hn size size'
    -- The line that is logged first does not tell the size.
    exact congrArg
      (fun x : Eval Verdict => do
        (⟨n, i + 1, size⟩ : Context).logLine fun n position _ => line n position
        x)
      (hp i n hn (Context.watched _ ⟨n, i + 1, size⟩).size
        (Context.watched _ ⟨n, i + 1, size'⟩).size)

theorem BeginAlike.watched (hp : p.Steady) {earlier : List Predicate} {k : Nat}
    {nodes nodes' : List Node} (h : p.BeginAlike earlier k nodes nodes') :
    (p.watched fun n position _ => line n position).BeginAlike earlier k nodes nodes' := by
  obtain ⟨A, hA, hA', hsizeless, hk⟩ := h
  exact ⟨A, hA, hA', sizeless_watched line hsizeless, (survivors_watched line hp A).symm ▸ hk⟩

end Predicate

end Watched

/-! ### Steps and filters -/

/-- Runs with the same result or error and the same stages, after which the same lines are seen. -/
inductive Log.EndAlike (seen : String → Bool) {α : Type} :
    EStateM.Result Error State α → EStateM.Result Error State α → Prop
  | ok {a : α} {t u : State} (hlog : Log.Agree seen t.log u.log) (hstages : t.stages = u.stages) :
      EndAlike seen (.ok a t) (.ok a u)
  | error {e : Error} {t u : State} (hlog : Log.Agree seen t.log u.log)
      (hstages : t.stages = u.stages) : EndAlike seen (.error e t) (.error e u)

theorem Log.endAlike_of_concurs {seen : String → Bool} {α : Type} {x y : Eval α}
    (h : x.Concurs (Log.Agree seen) Eq y) (s : State) : EndAlike seen (x s) (y s) := by
  have hs := h s s ⟨rfl, rfl⟩
  generalize x s = r at hs
  generalize y s = r' at hs
  cases hs with
  | lost h => exact h.elim
  | ok h => exact .ok h.1 h.2
  | error h => exact .error h.1 h.2

/-- If all lines are seen, such runs are the same. -/
theorem Log.EndAlike.eq {α : Type} {r r' : EStateM.Result Error State α}
    (h : EndAlike (fun _ => true) r r') : r = r' := by
  have hsame : ∀ {t u : State}, Agree (fun _ => true) t.log u.log → t.stages = u.stages →
      t = u := by
    rintro ⟨tlog, stages⟩ ⟨ulog, _⟩ hlog rfl
    simpa [Agree] using hlog
  cases h with
  | ok hlog hstages => rw [hsame hlog hstages]
  | error hlog hstages => rw [hsame hlog hstages]

/-- Filters that evaluate alike to sets that are visited alike. -/
theorem Path.select_endAlike {σ : Setting} {once : Bool} {seen : String → Bool}
    {primary primary' : Meaning} {ms : List Meaning} {found found' : NodeSet} {c : Context}
    {s u : State} (h : Candidates.VisitedAlike (Log.Agree seen) (σ.view.sort found.nodes)
      (ms.map (·.predicate)).reverse (σ.view.sort found'.nodes) (ms.map (·.predicate)).reverse)
    (hfound : primary.value c s = .ok (.nodeSet found) u)
    (hfound' : primary'.value c s = .ok (.nodeSet found') u) {steps : List (Step Meaning)}
    (hsteps : ∀ s ∈ steps, ∀ m ∈ s.predicates, m.predicate.Impartial (Log.Agree seen)) :
    Log.EndAlike seen (select σ once (.filter primary ms) steps c s)
      (select σ once (.filter primary' ms) steps c s) := by
  have hselect : ∀ {primary : Meaning} {found : NodeSet},
      primary.value c s = .ok (.nodeSet found) u → select σ once (.filter primary ms) steps c s =
        selectFrom σ once (σ.view.sort found.nodes) (ms.map (·.predicate)).reverse [] steps u := by
    intro primary found hfound
    rw [select, startNodes, bind_assoc]
    exact Eval.bind_of_ok hfound
  rw [hselect hfound, hselect hfound']
  exact Log.endAlike_of_concurs (selectFrom_concurs once .nil h hsteps) u

/-- A step whose predicates end alike wherever they stand. -/
def Stride.Impartial (seen : String → Bool) (stride : Stride) : Prop :=
  ∀ p ∈ stride.predicates, p.Impartial (Log.Agree seen)

/-- Steps are followed alike of which one leads to other candidates that are visited alike. -/
theorem Path.collect_endAlike {once : Bool} {seen : String → Bool} {nodes : List Node}
    {qs : List Predicate} (hqs : ∀ q ∈ qs, q.Impartial (Log.Agree seen)) {s t : Stride}
    (hst : s.Concurs (Log.Agree seen) t) {before after : List Stride}
    (hstrides : ∀ stride ∈ before ++ after, stride.Impartial seen) (u : State) :
    Log.EndAlike seen (collect once nodes qs (before ++ s :: after) u)
      (collect once nodes qs (before ++ t :: after) u) := by
  have hsame : ∀ {strides : List Stride}, (∀ stride ∈ strides, stride.Impartial seen) →
      List.Forall₂ (Stride.Concurs (Log.Agree seen)) strides strides := fun h =>
    List.forall₂_same.2 fun stride hs n => Candidates.visitedAlike_of_impartial (h stride hs) _
  obtain ⟨hbefore, hafter⟩ := List.forall_mem_append.1 hstrides
  have hall := List.rel_append (hsame hbefore) (List.Forall₂.cons hst (hsame hafter))
  exact Log.endAlike_of_concurs
    (collect_concurs once hall (Candidates.visitedAlike_of_impartial hqs nodes)) u

/-- An expression that is a predicate, which may log the nodes and positions it is evaluated at. -/
inductive Meaning.Seen (m : Meaning) : Meaning → Prop
  | unseen : Seen m m
  | seen (line : Node → Nat → String) : Seen m (m.watched fun n position _ => line n position)

namespace Meaning.Seen

variable {m m' : Meaning} (h : m.Seen m') {seen : String → Bool}

include h

theorem steady (hm : m.predicate.Steady) : m'.predicate.Steady := by
  cases h with
  | unseen => exact hm
  | seen line => exact Predicate.steady_watched line hm

theorem impartial (hm : m.predicate.Impartial (Log.Agree seen)) :
    m'.predicate.Impartial (Log.Agree seen) := by
  cases h with
  | unseen => exact hm
  | seen line => exact Predicate.impartial_watched line hm

theorem beginAlike (hm : m.predicate.Steady) {earlier : List Predicate} {k : Nat}
    {nodes nodes' : List Node} (hnodes : m.predicate.BeginAlike earlier k nodes nodes') :
    m'.predicate.BeginAlike earlier k nodes nodes' := by
  cases h with
  | unseen => exact hnodes
  | seen line => exact hnodes.watched line hm

end Meaning.Seen

/-- A number literal after a predicate looks no further than it must.  Let two lists of candidates
begin alike as far as the predicate keeps as many as the literal asks for, whatever comes after them
on either side.  If it does not ask for the size until then, nothing tells the lists apart: neither
the result nor an error, nor the lines that are logged, and so the evaluations of a predicate that
logs where it is evaluated.  Only what predicates before it log may differ, and is not looked at.
So it is for the values that a path filters, and for the candidates of a step anywhere in a path. -/
theorem literal_looks_no_further {σ : Setting} {L : Library} (hL : L.Steady σ)
    {seen : String → Bool} (hM : L.Impartial seen σ) (earlier later : List Expr) (e : Expr)
    {x : Float} (hx : Stage.isPosition x = true)
    (hlogs : ∀ p ∈ Expr.filters (.standard L σ) earlier, p.Logs (Log.Agree seen)) {m : Meaning}
    (hm : (e.meaning (.standard L σ)).Seen m) :
    let i := Interpretation.standard L σ
    let ms := Expr.meanings i earlier ++ m :: Meaning.number x :: Expr.meanings i later
    let ps := (ms.map (·.predicate)).reverse
    let BeginAlike := (e.meaning i).predicate.BeginAlike (Expr.filters i earlier)
      (Number.wholePart x)
    (∀ nodes nodes', BeginAlike nodes nodes' →
      Candidates.VisitedAlike (Log.Agree seen) nodes ps nodes' ps) ∧
    (∀ (primary primary' : Meaning) (c : Context) (s u : State) (found found' : NodeSet),
      primary.value c s = .ok (.nodeSet found) u → primary'.value c s = .ok (.nodeSet found') u →
      BeginAlike (σ.view.sort found.nodes) (σ.view.sort found'.nodes) → ∀ once steps,
        Log.EndAlike seen
          (Path.select σ once (.filter primary ms) (Expr.stepMeanings i steps) c s)
          (Path.select σ once (.filter primary' ms) (Expr.stepMeanings i steps) c s)) ∧
    ∀ candidates candidates' : Node → List Node,
      (∀ n, candidates n = candidates' n ∨ BeginAlike (candidates n) (candidates' n)) →
      ∀ qs before after, (∀ q ∈ qs, q.Impartial (Log.Agree seen)) →
        (∀ stride ∈ before ++ after, stride.Impartial seen) → ∀ once nodes s,
        Log.EndAlike seen (Path.collect once nodes qs (before ++ ⟨candidates, ps⟩ :: after) s)
          (Path.collect once nodes qs (before ++ ⟨candidates', ps⟩ :: after) s) := by
  intro i ms ps BeginAlike
  have hps : ps =
      Expr.filters i later ++ .position x :: m.predicate :: Expr.filters i earlier := by
    simp [ps, ms, Expr.filters, Meaning.number]
  have himpartial : ∀ es, ∀ p ∈ Expr.filters i es, p.Impartial (Log.Agree seen) :=
    fun es => Meaning.forall_reverse (Expr.impartial_predicates hM es)
  have he : (e.meaning i).predicate.Steady := Accord.steady_predicate
    (Accord.meanings_meaning (Accord.interpretations_steadiness hL) e).predicate
  have hm' := hm.impartial (Expr.impartial_predicate hM e)
  have hvisits : ∀ nodes nodes', BeginAlike nodes nodes' →
      Candidates.VisitedAlike (Log.Agree seen) nodes ps nodes' ps := by
    intro nodes nodes' h
    rw [hps]
    exact Candidates.visitedAlike_of_beginAlike (Log.agree_equivalence seen)
      (Meaning.forall_reverse (Expr.steady_predicates hL earlier)) hlogs (himpartial later)
      (hm.steady he) hm' hx (hm.beginAlike he h)
  refine ⟨hvisits, ?_, ?_⟩
  · intro primary primary' c s u found found' hfound hfound' h once steps
    exact Path.select_endAlike (hvisits _ _ h) hfound hfound' (Expr.impartial_stepMeanings hM steps)
  · intro candidates candidates' h qs before after hqs hstrides once nodes s
    refine Path.collect_endAlike hqs (fun n => ?_) hstrides s
    show Candidates.VisitedAlike (Log.Agree seen) (candidates n) ps (candidates' n) ps
    rcases h n with h | h
    · rw [h, hps]
      refine Candidates.visitedAlike_of_impartial (fun p hp => ?_) _
      simp only [List.mem_append, List.mem_cons] at hp
      obtain hp | rfl | rfl | hp := hp
      · exact himpartial later p hp
      · exact fun T => .position x
      · exact hm'
      · exact himpartial earlier p hp
    · exact hvisits _ _ h

/-- The predicate `@id or $w`. -/
def Expr.identifiedOr : Expr :=
  .or (.path .context [⟨.attribute, .name "id", []⟩]) (.variableReference "w")

/-- The sample, with two variables that both have its first paragraph before other elements. -/
def Setting.withElements : Setting :=
  { Setting.ofTree .sample with
    bindings := [("u", .nodeSet ⟨[⟨0, 1⟩, ⟨0, 6⟩]⟩), ("v", .nodeSet ⟨[⟨0, 1⟩, ⟨0, 5⟩, ⟨0, 8⟩]⟩)] }

/-- The first paragraph of the sample has an identifier.  For another element the predicate comes to
a variable without a value and fails, but it is not evaluated there: the first node that it keeps of
either variable is the paragraph, and it is evaluated for no other node. -/
theorem literal_looks_no_further_sample :
    let i := Interpretation.standard Registry.core.library .withElements
    let m := (Expr.identifiedOr.meaning i).watched fun n _ _ => toString n.id
    let one := Meaning.number (Number.ofNat 1)
    let ps := [one.predicate, m.predicate]
    let select := fun name => Path.select .withElements false
      (.filter ((Expr.variableReference name).meaning i) [m, one]) [] (.alone ⟨0, 0⟩)
    let visit := fun nodes => Path.collect false [⟨0, 0⟩] [] [⟨fun _ => nodes, ps⟩]
    ((Expr.identifiedOr.meaning i).value (.alone ⟨0, 6⟩)).outcome.isNone = true ∧
    Candidates.VisitedAlike (Log.Agree fun _ => true) [⟨0, 1⟩, ⟨0, 6⟩] ps
      [⟨0, 1⟩, ⟨0, 5⟩, ⟨0, 8⟩] ps ∧
    select "u" .start = select "v" .start ∧
    (select "u").outcome = some [⟨0, 1⟩] ∧ ((select "u").after .start).log = ["1"] ∧
    visit [⟨0, 1⟩, ⟨0, 6⟩] .start = visit [⟨0, 1⟩, ⟨0, 5⟩, ⟨0, 8⟩] .start := by
  intro i m one ps select visit
  have halike : (Expr.identifiedOr.meaning i).predicate.BeginAlike []
      (Number.wholePart (Number.ofNat 1)) [⟨0, 1⟩, ⟨0, 6⟩] [⟨0, 1⟩, ⟨0, 5⟩, ⟨0, 8⟩] :=
    ⟨[⟨0, 1⟩], by decide, by decide, fun _ _ _ _ _ => rfl, by decide +kernel⟩
  obtain ⟨hvisits, hfilters, hsteps⟩ := literal_looks_no_further (σ := .withElements)
    (Registry.steady_core _) (Registry.impartial_core (fun _ => true) _) [] []
    Expr.identifiedOr (x := Number.ofNat 1) (by decide +kernel)
    (by simp [Expr.filters, Expr.meanings]) (.seen fun n _ => toString n.id)
  refine ⟨by decide +kernel, hvisits _ _ halike, ?_, by decide +kernel, by decide +kernel, ?_⟩
  · have hu : Setting.withElements.view.sort [⟨0, 1⟩, ⟨0, 6⟩] = [⟨0, 1⟩, ⟨0, 6⟩] := by
      decide +kernel
    have hv : Setting.withElements.view.sort [⟨0, 1⟩, ⟨0, 5⟩, ⟨0, 8⟩] =
        [⟨0, 1⟩, ⟨0, 5⟩, ⟨0, 8⟩] := by decide +kernel
    exact (hfilters _ _ _ _ _ ⟨[⟨0, 1⟩, ⟨0, 6⟩]⟩ ⟨[⟨0, 1⟩, ⟨0, 5⟩, ⟨0, 8⟩]⟩ rfl rfl
      (hu.symm ▸ hv.symm ▸ halike) false []).eq
  · exact (hsteps _ _ (fun _ => .inr halike) [] [] [] (by simp) (by simp) false _ _).eq

end XPath
