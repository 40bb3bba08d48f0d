/-
Looking for one of the candidates that a predicate keeps.

A stage that is asked for what its predicate keeps up to an index, and has not been asked before,
judges one candidate after the other from the first one on.  If the predicate does not ask for the
number of its candidates it does nothing else, and it stops as soon as there are enough.  A number
literal after it asks for just this, and only once.

* `Predicate.survivors`, `Predicate.seek` — the candidates that a predicate keeps one by one, and
  looking for one of them;
* `Predicate.Sizeless` — the predicate does not ask for the size on the way;
* `Candidates.Finds`, `Candidates.Sought` — reads that end as seeking does;
* `Stage.fill_seeks`, `Candidates.read_seeks` — a stage that is asked for it does no more than that;
* `Stage.fill_position` — a read of a number literal, as one equation;
* `Candidates.read_literal` — a number literal after a predicate.
-/
import XPath.Proofs.Evaluation.Delivery
import XPath.Proofs.Evaluation.Impartiality

namespace XPath

/-! ### What a predicate keeps one by one -/

namespace Candidates

variable (judge : Context → Eval Verdict)

/-- The candidates that are kept when each of them is judged on its own, the first one at
`position`.  A candidate on which the judgement fails is not kept. -/
def survivors : Nat → List Node → List Node
  | _, [] => []
  | position, n :: rest =>
    match (judge (.known n position none)).outcome with
    | some .picked => [n]
    | some .kept => n :: survivors (position + 1) rest
    | some .dropped | none => survivors (position + 1) rest

/-- Judges the candidates one after the other until, after `index` others, one more is kept, and
gives that one. -/
def seek : Nat → Nat → List Node → Eval (Option Node)
  | _, _, [] => pure none
  | index, position, n :: rest => do
    match ← judge (.known n position none) with
    | .dropped => seek index (position + 1) rest
    | .picked => return if index = 0 then some n else none
    | .kept => if index = 0 then return some n else seek (index - 1) (position + 1) rest

theorem length_survivors_le (position : Nat) (nodes : List Node) :
    (survivors judge position nodes).length ≤ nodes.length := by
  induction nodes generalizing position with
  | nil => exact le_refl _
  | cons n rest ih =>
    have hrest := ih (position + 1)
    rw [survivors]
    split <;> simp only [List.length_cons, List.length_nil] <;> omega

end Candidates

namespace Predicate

/-- The candidates that a predicate keeps when each of them is judged on its own. -/
def survivors : Predicate → List Node → List Node
  | .position x, nodes =>
    if Stage.isPosition x then nodes[Number.wholePart x - 1]?.toList else []
  | .test judge, nodes => Candidates.survivors judge 1 nodes

theorem length_survivors_le (p : Predicate) (nodes : List Node) :
    (p.survivors nodes).length ≤ nodes.length := by
  cases p with
  | test judge => exact Candidates.length_survivors_le judge 1 nodes
  | position x =>
    rw [survivors]
    split
    · cases hn : nodes[Number.wholePart x - 1]? with
      | none => exact Nat.zero_le _
      | some n => exact Nat.one_le_of_lt (List.getElem?_eq_some_iff.1 hn).1
    · exact Nat.zero_le _

/-- Looks for the candidate that a predicate keeps after `index` others. -/
def seek (index : Nat) : Predicate → List Node → Eval (Option Node)
  | .position x, nodes => pure ((position x).survivors nodes)[index]?
  | .test judge, nodes => Candidates.seek judge index 1 nodes

/-- The predicate does not ask for the size while it judges these candidates. -/
def Sizeless : Predicate → List Node → Prop
  | .position _, _ => True
  | .test judge, nodes => ∀ i n, nodes[i]? = some n → ∀ size size',
      judge ⟨n, i + 1, size⟩ = judge ⟨n, i + 1, size'⟩

end Predicate

/-! ### Reads of a predicate -/

/-- A read that finds, at an index, what seeking it gives, or fails as seeking it does. -/
inductive Candidates.Finds (R : List String → List String → Prop) (index : Nat) :
    EStateM.Result Error State (Option Node) → EStateM.Result Error State (List Node) → Prop
  | found {n : Node} {found : List Node} {t u : State} (hlog : R t.log u.log)
      (hn : found[index]? = some n) : Finds R index (.ok (some n) t) (.ok found u)
  | failed {e : Error} {t u : State} (hlog : R t.log u.log) :
      Finds R index (.error e t) (.error e u)

variable {R : List String → List String → Prop}

namespace Stage

/-- What the nearest stage has kept when a read ends. -/
def keptAfter : EStateM.Result Error State Unit → EStateM.Result Error State (List Node)
  | .ok () t => .ok (nearest t).kept.found t
  | .error e t => .error e t

/-- What has been kept at the index is found without asking for more. -/
theorem finds_of_kept {index : Nat} (stage : Stage) {n : Node}
    (h : stage.kept.found[index]? = some n) (pull : Eval Pull) (fuel : Nat)
    {log log' : List String} (hlog : R log log') (stages rest : List Stage) :
    Candidates.Finds R index (.ok (some n) ⟨log, stages⟩)
      (keptAfter (place.fill pull (some index) fuel ⟨log', stage :: rest⟩)) := by
  have ha : stage.kept.answers (some index) = true := by
    simp [Sequence.answers, (List.getElem?_eq_some_iff.1 h).1]
  rw [fill_of_answers (s := ⟨log', stage :: rest⟩) ha]
  exact .found hlog h

end Stage

/-- An impartial judgement of a candidate, without the size, ends alike among any stages, and leaves
the stages as they are. -/
theorem Predicate.Impartial.judged {judge : Context → Eval Verdict}
    (h : (Predicate.test judge).Impartial R) (n : Node) (position : Nat) {s : State}
    {log : List String} (hlog : R s.log log) (stages : List Stage) :
    Meets (fun _ => False) (fun _ => Stage.Related R fun _ after => after = stages)
      (fun _ => Stage.Related R fun _ after => after = stages) (judge (.known n position none) s)
      (judge (.known n position none) ⟨log, stages⟩) := by
  have hj := h fun _ after => after = stages
  cases hj with
  | test hj =>
    exact hj (.known n position none) (.known n position none)
      ⟨rfl, rfl, Eval.agreesUnless_throw _⟩ _ _ ⟨hlog, rfl⟩

/-- What a stage answers and becomes when it has judged its next candidate. -/
def Predicate.judged (stage : Stage) (n : Node) :
    EStateM.Result Error State Verdict → EStateM.Result Error State Pull
  | .error e t => .error e ⟨t.log, stage.advanced :: t.stages⟩
  | .ok .picked t => .ok (.node n) ⟨t.log, stage.advanced.shut :: t.stages⟩
  | .ok .kept t => .ok (.node n) ⟨t.log, stage.advanced :: t.stages⟩
  | .ok .dropped t => .ok .nothing ⟨t.log, stage.advanced :: t.stages⟩

section Seeking

variable (hR : Equivalence R) {I : List Stage → Prop} {source : Option Nat → Eval (List Node)}
  {S : Supply} (hs : Candidates.Delivers I source S) (hq : ∀ stop, (source stop).Logs R)
  {nodes : List Node} (hnodes : nodes <+: S.nodes)

include hs hq hnodes

/-- A read up to one of the first nodes finds it. -/
theorem Candidates.Delivers.get {i : Nat} {n : Node} (hn : nodes[i]? = some n)
    {rest : List Stage} (hI : I rest) (log : List String) :
    ∃ found log' rest', source (some i) ⟨log, rest⟩ = .ok found ⟨log', rest'⟩ ∧ R log log' ∧
      found[i]? = some n ∧ I rest' := by
  have hn : S.nodes[i]? = some n := by
    obtain ⟨hlt, rfl⟩ := List.getElem?_eq_some_iff.1 hn
    exact List.prefix_iff_getElem?.1 hnodes i hlt
  have hdelivered := hs (some i) ⟨log, rest⟩ hI
  cases hr : source (some i) ⟨log, rest⟩ with
  | error e t =>
    rw [hr] at hdelivered
    have hlt := (List.getElem?_eq_some_iff.1 hn).1
    have hle := (Supply.of_not_answers hdelivered).2
    omega
  | ok found t =>
    rw [hr] at hdelivered
    obtain ⟨-, hshows, ht⟩ := hdelivered
    exact ⟨found, t.log, t.stages, rfl, (hq (some i)).ok hr, hshows.trans hn, ht⟩

variable {judge : Context → Eval Verdict} (hsizeless : (Predicate.test judge).Sizeless nodes)

include hsizeless

/-- A stage that goes on takes the next candidate and judges it as it would be judged without the
size. -/
theorem Predicate.pullNext_eq (stage : Stage) {n : Node} (hn : nodes[stage.taken]? = some n)
    (htried : stage.tried = stage.taken) (hclosed : stage.closed = false) {rest : List Stage}
    (hI : I rest) (log : List String) :
    ∃ log' rest', R log log' ∧ I rest' ∧ pullNext source judge ⟨log, stage :: rest⟩ =
      judged stage n (judge (.known n (stage.taken + 1) none) ⟨log', rest'⟩) := by
  obtain ⟨found, log', rest', hread, hlog, hfound, hrest'⟩ := hs.get hq hnodes hn hI log
  refine ⟨log', rest', hlog, hrest', ?_⟩
  have hsame : judge ⟨n, stage.tried + 1, size source⟩ =
      judge (.known n (stage.taken + 1) none) := htried ▸ hsizeless stage.taken n hn _ _
  rw [pullNext_cons, hread]
  dsimp only
  rw [hfound]
  dsimp only
  rw [if_neg (by simp [hclosed]), hsame]
  rcases judge (.known n (stage.taken + 1) none) ⟨log', rest'⟩ with ⟨_ | _ | _, t⟩ | ⟨e, t⟩ <;> rfl

variable (himpartial : (Predicate.test judge).Impartial R) (hsteady : XPath.Steady judge)

include hR himpartial hsteady

/-- A stage that goes on judges the candidates as seeking does, as long as there are enough that it
keeps. -/
theorem Stage.fill_seeks {index : Nat} {rest : List Node} (stage : Stage)
    (hrest : nodes.drop stage.taken = rest) (htried : stage.tried = stage.taken)
    (hexhausted : stage.kept.exhausted = false) (hclosed : stage.closed = false)
    (hbusy : stage.kept.busy = false) (hindex : stage.kept.found.length ≤ index)
    (hkept : index < stage.kept.found.length +
      (Candidates.survivors judge (stage.taken + 1) rest).length)
    {stages : List Stage} (hI : I stages) {fuel : Nat} (hfuel : rest.length ≤ fuel) {s : State}
    {log : List String} (hlog : R s.log log) :
    Candidates.Finds R index
      (Candidates.seek judge (index - stage.kept.found.length) (stage.taken + 1) rest s)
      (keptAfter (place.fill (Predicate.pullNext source judge) (some index) fuel
        ⟨log, stage :: stages⟩)) := by
  -- Each round judges the next candidate, so the induction is on those that are left.
  induction rest generalizing stage stages fuel s log with
  | nil => simp [Candidates.survivors] at hkept; omega
  | cons n rest ih =>
    obtain ⟨fuel, rfl⟩ : ∃ m, fuel = m + 1 := ⟨fuel - 1, by simp at hfuel; omega⟩
    have hfuel : rest.length ≤ fuel := by simpa using hfuel
    have hn : nodes[stage.taken]? = some n := by
      rw [← List.head?_drop, hrest]
      rfl
    have hdrop : nodes.drop (stage.taken + 1) = rest := by
      rw [← List.tail_drop, hrest]
      rfl
    have ha : stage.kept.answers (some index) = false := by
      simp [Sequence.answers, hexhausted, hindex]
    obtain ⟨log', stages', hlog', hI', hpull⟩ := Predicate.pullNext_eq hs hq hnodes hsizeless
      (stage.remember stage.kept.occupied) hn htried hclosed hI log
    rw [fill_succ _ _ _ _ _ ha hbusy, hpull]
    show Candidates.Finds R index (EStateM.bind (judge (.known n (stage.taken + 1) none)) _ s) _
    rw [EStateM.bind]
    have hmeets := himpartial.judged n (stage.taken + 1) (hR.trans hlog hlog') stages'
    have hcomes := hsteady.comes (I := fun _ => True)
      (Context.comes_known n (stage.taken + 1) none) s trivial
    simp only [show (stage.remember stage.kept.occupied).taken = stage.taken from rfl]
    generalize judge (.known n (stage.taken + 1) none) s = r at hmeets hcomes
    generalize judge (.known n (stage.taken + 1) none) ⟨log', stages'⟩ = r' at hmeets
    cases hmeets with
    | lost h => exact h.elim
    | error h => exact .failed h.1
    | @ok verdict t u h =>
      obtain ⟨ulog, _⟩ := u
      obtain ⟨hlog, rfl⟩ := h
      have houtcome : (judge (.known n (stage.taken + 1) none)).outcome = some verdict := hcomes.1
      rw [Candidates.survivors, houtcome] at hkept
      have hextended : (stage.kept.extended n).found.length = stage.kept.found.length + 1 := by
        simp [Sequence.extended]
      have hlast : stage.kept.found.length = index →
          (stage.kept.extended n).found[index]? = some n := by
        rintro rfl
        simp [Sequence.extended]
      cases verdict with
      | dropped =>
        exact ih (stage.advanced.remember stage.kept.released) hdrop (congrArg (· + 1) htried)
          hexhausted hclosed rfl hindex hkept hI' hfuel hlog
      | kept =>
        dsimp only at hkept ⊢
        rw [List.length_cons] at hkept
        by_cases hzero : index - stage.kept.found.length = 0
        · rw [if_pos hzero]
          exact finds_of_kept (stage.advanced.remember (stage.kept.extended n)) (hlast (by omega))
            _ fuel hlog _ _
        · rw [if_neg hzero, Nat.sub_sub, ← hextended]
          refine ih (stage.advanced.remember (stage.kept.extended n)) hdrop
            (congrArg (· + 1) htried) hexhausted hclosed rfl ?_ ?_ hI' hfuel hlog
          · show (stage.kept.extended n).found.length ≤ index
            omega
          · show index < (stage.kept.extended n).found.length + _
            rw [hextended, Nat.add_assoc, Nat.add_comm 1]
            exact hkept
      | picked =>
        dsimp only at hkept ⊢
        rw [List.length_singleton] at hkept
        rw [if_pos (by omega)]
        exact finds_of_kept (stage.advanced.shut.remember (stage.kept.extended n))
          (hlast (by omega)) _ fuel hlog _ _

end Seeking

/-! ### Reads of a number literal -/

namespace Stage

variable {x : Float} {source : Option Nat → Eval (List Node)}

/-- The stage of a number literal that has picked a candidate, after a read. -/
def picked (n : Node) (stop : Option Nat) : Stage :=
  ⟨⟨[n], decide (stop ≠ some 0), false⟩, 0, 0, true⟩

/-- A number literal that has looked is not asked for anything. -/
theorem fill_closed {stage : Stage} (hclosed : stage.closed = true)
    (hbusy : stage.kept.busy = false) (stop : Option Nat) (fuel : Nat) (log : List String)
    (rest : List Stage) :
    place.fill (Predicate.pullPosition source x) stop (fuel + 1) ⟨log, stage :: rest⟩ =
      .ok () ⟨log, (if stage.kept.answers stop then stage else stage.remember stage.kept.ended) ::
        rest⟩ := by
  by_cases ha : stage.kept.answers stop = true
  · rw [fill_of_answers (s := ⟨log, stage :: rest⟩) ha, if_pos ha]
  · have ha' : stage.kept.answers stop = false := by simpa using ha
    rw [if_neg ha, fill_succ _ _ _ _ _ ha' hbusy, Predicate.pullPosition_cons,
      if_pos (show (stage.remember stage.kept.occupied).closed = true from hclosed)]
    rfl

/-- A number literal looks once, at its position. -/
theorem fill_position (hx : isPosition x = true) (stop : Option Nat) (fuel : Nat)
    (log : List String) (rest : List Stage) :
    place.fill (Predicate.pullPosition source x) stop (fuel + 2)
        ⟨log, initial (.position x) :: rest⟩ =
      match source (some (Number.wholePart x - 1)) ⟨log, rest⟩ with
      | .error e t => .error e ⟨t.log, (initial (.position x)).shut :: t.stages⟩
      | .ok candidates t =>
        .ok () ⟨t.log, candidates[Number.wholePart x - 1]?.elim ⟨.ofNodes [], 0, 0, true⟩
          (picked · stop) :: t.stages⟩ := by
  have hinitial : initial (.position x) = ⟨.fresh, 0, 0, false⟩ := by rw [initial, if_pos hx]
  rw [hinitial]
  have ha : Sequence.fresh.answers stop = false := by cases stop <;> rfl
  rw [fill_succ _ _ _ _ _ ha rfl, Predicate.pullPosition_cons,
    if_neg (show ¬ Stage.closed _ = true from Bool.false_ne_true)]
  cases source (some (Number.wholePart x - 1)) ⟨log, rest⟩ with
  | error e t => rfl
  | ok candidates t =>
    dsimp only
    cases candidates[Number.wholePart x - 1]? with
    | none => rfl
    | some n =>
      show place.fill (Predicate.pullPosition source x) stop (fuel + 1)
        ⟨t.log, ⟨Sequence.fresh.extended n, 0, 0, true⟩ :: t.stages⟩ = _
      rw [fill_closed rfl rfl]
      cases stop with
      | none => rfl
      | some i => cases i <;> rfl

end Stage

namespace Candidates

/-- A read of a number literal that finds what seeking gives, or fails as seeking does.  It has
looked then, and has kept what it found. -/
inductive Sought (R : List String → List String → Prop) (x : Float) (stop : Option Nat) :
    EStateM.Result Error State (Option Node) → EStateM.Result Error State (List Node) → Prop
  | found {n : Node} {t u : State} (hlog : R t.log u.log) :
      Sought R x stop (.ok (some n) t) (.ok [n] ⟨u.log, Stage.picked n stop :: u.stages⟩)
  | failed {e : Error} {t u : State} (hlog : R t.log u.log) :
      Sought R x stop (.error e t)
        (.error e ⟨u.log, (Stage.initial (.position x)).shut :: u.stages⟩)

section Reads

variable (hR : Equivalence R) {nodes : List Node} {earlier : List Predicate}
  (hearlier : ∀ p ∈ earlier, p.Steady) (hlogs : ∀ p ∈ earlier, p.Logs R) {A : List Node}
  (hA : A <+: (Supply.of nodes earlier).nodes) {p : Predicate} (hp : p.Steady)
  (himpartial : p.Impartial R) (hsizeless : p.Sizeless A)

include hR hearlier hlogs hA hp himpartial hsizeless

/-- The first read of what a predicate keeps, up to an index, is seeking the candidate there. -/
theorem read_seeks {index : Nat} (hindex : index < (p.survivors A).length) {rest : List Stage}
    (hrest : Stage.Tracked nodes earlier rest) {s : State} {log : List String}
    (hlog : R s.log log) :
    Finds R index (p.seek index A s)
      (read nodes (p :: earlier) (some index) ⟨log, Stage.initial p :: rest⟩) := by
  have hs : Delivers (Stage.Tracked nodes earlier) (read nodes earlier) (Supply.of nodes earlier) :=
    delivers_read hearlier
  have hq : ∀ stop, (read nodes earlier stop).Logs R :=
    logs_read ⟨fun s => hR.refl s.log, hR.trans⟩ nodes hlogs
  have hread : ∀ s, read nodes (p :: earlier) (some index) s = Stage.keptAfter
      (Stage.place.fill (p.pull (read nodes earlier)) (some index) (nodes.length + 1) s) :=
    fun s => by
      rw [read_cons]
      cases Stage.place.fill (p.pull (read nodes earlier)) (some index) (nodes.length + 1) s <;> rfl
  have hlength : A.length ≤ nodes.length := hA.length_le.trans (Supply.length_of_le nodes earlier)
  rw [hread]
  cases p with
  | test judge =>
    exact Stage.fill_seeks hR hs hq hA hsizeless himpartial hp (Stage.initial (.test judge))
      rfl rfl rfl rfl rfl (Nat.zero_le _) (lt_of_lt_of_le hindex (Nat.le_add_left _ _)) hrest
      (Nat.le_succ_of_le hlength) hlog
  | position x =>
    by_cases hx : Stage.isPosition x = true
    · cases hn : A[Number.wholePart x - 1]? with
      | none => simp [Predicate.survivors, hn] at hindex
      | some n =>
        have hsurvivors : (Predicate.position x).survivors A = [n] := by
          simp [Predicate.survivors, hx, hn]
        obtain rfl : index = 0 := by simpa [hsurvivors] using hindex
        obtain ⟨hlt, -⟩ := List.getElem?_eq_some_iff.1 hn
        obtain ⟨fuel, hfuel⟩ : ∃ m, nodes.length = m + 1 := ⟨nodes.length - 1, by omega⟩
        obtain ⟨found, log', rest', hsource, hlog', hfound, -⟩ := hs.get hq hA hn hrest log
        rw [hfuel, Predicate.seek, hsurvivors]
        show Finds R 0 _ (Stage.keptAfter
          (Stage.place.fill (Predicate.pullPosition (read nodes earlier) x) _ _ _))
        rw [Stage.fill_position hx, hsource]
        dsimp only
        rw [hfound]
        exact .found (hR.trans hlog hlog') rfl
    · simp [Predicate.survivors, hx] at hindex

/-- The first read of what a number literal keeps seeks the candidate at its position. -/
theorem read_literal {x : Float} (hx : Stage.isPosition x = true)
    (hsurvivors : Number.wholePart x - 1 < (p.survivors A).length) {rest : List Stage}
    (hrest : Stage.Tracked nodes earlier rest) (stop : Option Nat) {s : State} {log : List String}
    (hlog : R s.log log) :
    Sought R x stop (p.seek (Number.wholePart x - 1) A s)
      (read nodes (.position x :: p :: earlier) stop
        ⟨log, Stage.initial (.position x) :: Stage.initial p :: rest⟩) := by
  have hlength : 1 ≤ nodes.length := by
    have hsupply := hA.length_le.trans (Supply.length_of_le nodes earlier)
    have := p.length_survivors_le A
    omega
  obtain ⟨fuel, hfuel⟩ : ∃ m, nodes.length + 1 = m + 2 := ⟨nodes.length - 1, by omega⟩
  have hfinds :=
    read_seeks hR hearlier hlogs hA hp himpartial hsizeless hsurvivors hrest hlog
  rw [read_cons, Predicate.pull, hfuel, Stage.fill_position hx]
  generalize p.seek (Number.wholePart x - 1) A s = r at hfinds
  generalize read nodes (p :: earlier) (some (Number.wholePart x - 1))
    ⟨log, Stage.initial p :: rest⟩ = r' at hfinds
  cases hfinds with
  | failed hlog => exact .failed hlog
  | found hlog hn =>
    dsimp only
    rw [hn]
    exact .found hlog

end Reads

end Candidates

end XPath
