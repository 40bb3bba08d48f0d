/-
Paths step by step.

While predicates are steady it can be said without stages what a step leads to from a node, and
whether its candidates break off.  The engine goes along a path in depth and follows no node twice.
If nothing breaks off on its way, it arrives at what each step leads to from all the nodes that the
steps before it select.  If something does, then the path fails: a node that is not followed again
has been followed to the end before.

* `Stride.supply`, `Stride.leads` — what a step leaves of its candidates from a node;
* `Path.Unbroken`, `Path.Marked` — no candidates break off on the way from a node, and from all
  nodes that have been passed on;
* `Path.collected_eq_some_iff` — what is arrived at, and when;
* `Path.selected_append_singleton`, `Path.selected_append` — the last steps go on from what the
  others select;
* `Supply.of_eq_of_survivors` — predicates leave what the plain reading of them yields.
-/
import XPath.Proofs.Evaluation.Delivery
import XPath.Proofs.Evaluation.Laziness

namespace XPath

namespace Stride

/-- What the predicates of a step leave of its candidates from a node. -/
def supply (stride : Stride) (n : Node) : Supply :=
  Supply.of (stride.candidates n) stride.predicates

/-- The nodes that a step leads to from a node. -/
def leads (stride : Stride) (n : Node) : List Node := (stride.supply n).nodes

/-- The nodes that a step leads to from any of several nodes, unless some candidates break off. -/
def advanced (stride : Stride) (inputs : List Node) : Option (List Node) :=
  if inputs.all fun n => (stride.supply n).complete then
    some (firstOccurrences (inputs.flatMap stride.leads))
  else none

theorem advanced_eq_some_iff {stride : Stride} {inputs found : List Node} :
    stride.advanced inputs = some found ↔
      (∀ n ∈ inputs, (stride.supply n).complete = true) ∧
      firstOccurrences (inputs.flatMap stride.leads) = found := by
  simp [advanced]

end Stride

/-- What a step passes on, in document order if it restores this. -/
def Axis.arranged (σ : Setting) (axis : Axis) (found : List Node) : List Node :=
  if axis.restoresOrder then σ.view.sort found else found

/-- What a step passes on from any of several nodes, if it can be made ready. -/
def Step.advanced (σ : Setting) (step : Step Meaning) (inputs : List Node) : Option (List Node) :=
  (Eval.ofExcept (Stride.ofStep σ step)).outcome.bind fun stride =>
    (stride.advanced inputs).map (step.axis.arranged σ)

/-! ### Whole lists -/

namespace Supply

/-- The nodes of a list, unless it breaks off. -/
def whole (S : Supply) : Option (List Node) := if S.complete then some S.nodes else none

/-- The nodes of several lists, unless some of them break off. -/
def gathered (lists : List Supply) : Option (List Node) :=
  if lists.all (·.complete) then some (firstOccurrences (lists.flatMap (·.nodes))) else none

/-- A list that does not break off is no other one's beginning. -/
theorem Begins.eq_of_complete {S T : Supply} (h : S.Begins T) (hS : S.complete = true) : S = T := by
  obtain rfl | ⟨hbroken, -⟩ := h
  · rfl
  · rw [hS] at hbroken
    cases hbroken

theorem whole_begins {S T : Supply} (h : S.Begins T) {nodes : List Node} (hS : nodes ∈ S.whole) :
    nodes ∈ T.whole := by
  rw [whole] at hS
  split at hS
  · next hcomplete =>
    rwa [← h.eq_of_complete hcomplete, whole, if_pos hcomplete]
  · cases hS

theorem gathered_begins {f g : Node → Supply} {inputs found : List Node}
    (h : ∀ n ∈ inputs, (f n).Begins (g n)) (hf : found ∈ gathered (inputs.map f)) :
    found ∈ gathered (inputs.map g) := by
  have hall : (inputs.map f).all (·.complete) = true := by
    rw [gathered] at hf
    split at hf
    · assumption
    · cases hf
  have hsame : inputs.map f = inputs.map g := List.map_congr_left fun n hn =>
    (h n hn).eq_of_complete (List.all_eq_true.1 hall _ (List.mem_map_of_mem hn))
  rwa [← hsame]

end Supply

theorem Stride.advanced_eq_gathered (stride : Stride) (inputs : List Node) :
    stride.advanced inputs = Supply.gathered (inputs.map stride.supply) := by
  rw [advanced, Supply.gathered, List.all_map, List.flatMap_map]
  rfl

/-- What a step passes on, by what its predicates leave. -/
theorem Step.advanced_eq (σ : Setting) (axis : Axis) (test : NodeTest) (ms : List Meaning)
    (inputs : List Node) :
    advanced σ ⟨axis, test, ms⟩ inputs =
      (Eval.ofExcept (Stride.ofStep σ ⟨axis, test, []⟩)).outcome.bind fun base =>
        (Supply.gathered (inputs.map fun n =>
          Supply.of (base.candidates n) (ms.map (·.predicate)).reverse)).map (axis.arranged σ) := by
  rw [advanced, Stride.ofStep_eq]
  cases Stride.ofStep σ ⟨axis, test, []⟩ with
  | error e => rfl
  | ok base => exact congrArg (Option.map _) (Stride.advanced_eq_gathered _ inputs)

/-! ### Visiting whole lists -/

namespace Supply

variable {visit : Node → Path.Progress → Option Path.Progress} {complete : Bool}
  {nodes : List Node} {p q : Path.Progress}

/-- If one node is not enough, all nodes are visited, and the list must not break off.  What each
visit keeps is kept. -/
theorem of_visitFrom (lead : Node → Path.Progress → Path.Progress) (Kept : Path.Progress → Prop)
    (Clear : Node → Prop)
    (h : ∀ n p q, Kept p → visit n p = some q → q = lead n p ∧ Clear n ∧ Kept q) (hp : Kept p)
    (hq : visitFrom (Path.Progress.enough false) visit complete nodes p = some q) :
    q = nodes.foldl (fun p n => lead n p) p ∧ (complete = true ∧ ∀ n ∈ nodes, Clear n) ∧
      Kept q := by
  induction nodes generalizing p with
  | nil =>
    cases complete with
    | false => cases hq
    | true =>
      cases hq
      exact ⟨rfl, ⟨rfl, by simp⟩, hp⟩
  | cons n rest ih =>
    obtain ⟨m, hm, hq⟩ := Option.bind_eq_some_iff.1 hq
    obtain ⟨rfl, hn, hkept⟩ := h n p m hp hm
    obtain ⟨hfold, ⟨hcomplete, hrest⟩, hq⟩ := ih hkept hq
    exact ⟨hfold, ⟨hcomplete, List.forall_mem_cons.2 ⟨hn, hrest⟩⟩, hq⟩

theorem visitFrom_eq_foldl {lead : Node → Path.Progress → Path.Progress}
    (h : ∀ n ∈ nodes, ∀ p, visit n p = some (lead n p)) :
    visitFrom (Path.Progress.enough false) visit true nodes p =
      some (nodes.foldl (fun p n => lead n p) p) := by
  induction nodes generalizing p with
  | nil => rfl
  | cons n rest ih =>
    obtain ⟨hn, hrest⟩ := List.forall_mem_cons.1 h
    show (visit n p).bind _ = _
    rw [hn p]
    exact ih hrest

end Supply

namespace Path

/-! ### Following -/

/-- On the way along steps from a node no candidates break off. -/
def Unbroken : List Stride → Node → Prop
  | [], _ => True
  | stride :: rest, n =>
    (stride.supply n).complete = true ∧ ∀ m ∈ stride.leads n, Unbroken rest m

/-- From the nodes that have been passed on no candidates break off on the rest of the way. -/
def Marked (strides : List Stride) (p : Progress) : Prop :=
  ∀ rest, rest <:+ strides → rest.length < strides.length →
    ∀ m, (rest.length, m) ∈ p.seen → Unbroken rest m

theorem marked_start (strides : List Stride) : Marked strides ⟨[], []⟩ := by
  intro _ _ _ _ h
  cases h

section Marked

variable {stride : Stride} {rest : List Stride} {n : Node} {p : Progress}

theorem Marked.tail (h : Marked (stride :: rest) p) : Marked rest p :=
  fun r hr hlt => h r (hr.trans (List.suffix_cons _ _)) (Nat.lt_succ_of_lt hlt)

/-- A mark for the whole way does not matter to the parts of it. -/
theorem Marked.push (h : Marked rest p) (n : Node) :
    Marked rest { p with seen := (rest.length, n) :: p.seen } := by
  intro r hr hlt m hm
  rcases List.mem_cons.1 hm with heq | hm
  · exact (hlt.ne (congrArg Prod.fst heq)).elim
  · exact h r hr hlt m hm

theorem Marked.cons (h : Marked rest p) (hrest : ∀ m, (rest.length, m) ∈ p.seen → Unbroken rest m) :
    Marked (stride :: rest) p := by
  intro r hr _ m hm
  rcases List.suffix_cons_iff.1 hr with rfl | hr
  · exact (Nat.lt_irrefl _ ‹_›).elim
  obtain rfl | hlt := hr.length_le.eq_or_lt.imp_left hr.eq_of_length
  · exact hrest m hm
  · exact h r hr hlt m hm

end Marked

variable {strides : List Stride} {n : Node} {p q : Progress}

/-- Where following steps from a node succeeds, no candidates break off. -/
theorem of_followed (hp : Marked strides p) (h : followed false strides n p = some q) :
    q = descend (strides.map Stride.leads) n p ∧ Unbroken strides n ∧ Marked strides q := by
  induction strides generalizing n p q with
  | nil =>
    cases h
    exact ⟨rfl, trivial, fun r _ hlt => (Nat.not_lt_zero _ hlt).elim⟩
  | cons stride rest ih =>
    rw [List.map_cons, descend_cons, List.length_map]
    refine Supply.of_visitFrom
      (fun m p => if (rest.length, m) ∈ p.seen then p
        else descend (rest.map Stride.leads) m { p with seen := (rest.length, m) :: p.seen })
      (Marked (stride :: rest)) (Unbroken rest) (fun m p q hp hq => ?_) hp h
    simp only [List.contains_iff_mem] at hq
    by_cases hm : (rest.length, m) ∈ p.seen
    · rw [if_pos hm] at hq ⊢
      cases hq
      exact ⟨rfl, hp rest (List.suffix_cons _ _) (Nat.lt_succ_self _) m hm, hp⟩
    rw [if_neg hm] at hq ⊢
    obtain ⟨rfl, hclear, hmarked⟩ := ih (hp.tail.push m) hq
    refine ⟨rfl, hclear, hmarked.cons fun l hl => ?_⟩
    -- Only the mark that has just been made is new among those for the whole rest.
    rw [mem_seen_descend (List.length_map _).le, List.mem_cons, Prod.mk.injEq] at hl
    rcases hl with ⟨-, rfl⟩ | hl
    · exact hclear
    · exact hp rest (List.suffix_cons _ _) (Nat.lt_succ_self _) l hl

/-- Where no candidates break off, following steps from a node succeeds. -/
theorem followed_of_unbroken (h : Unbroken strides n) :
    followed false strides n p = some (descend (strides.map Stride.leads) n p) := by
  induction strides generalizing n p with
  | nil => rfl
  | cons stride rest ih =>
    obtain ⟨hcomplete, hrest⟩ := h
    have hcomplete : (Supply.of (stride.candidates n) stride.predicates).complete = true :=
      hcomplete
    rw [List.map_cons, descend_cons, List.length_map, followed, Supply.visit, hcomplete]
    simp only [List.contains_iff_mem]
    refine Supply.visitFrom_eq_foldl fun m hm p => ?_
    split
    · rfl
    · exact ih (hrest m hm)

/-- Steps are followed in depth from nodes to what they lead to level by level, unless some
candidates break off. -/
theorem collected_eq_some_iff {nodes found : List Node} {ps : List Predicate} :
    collected false nodes ps strides = some found ↔
      (Supply.of nodes ps).complete = true ∧
      (∀ n ∈ (Supply.of nodes ps).nodes, Unbroken strides n) ∧
      levels (strides.map Stride.leads) (Supply.of nodes ps).nodes = found := by
  have hlevels := found_descend (strides.map Stride.leads) (Supply.of nodes ps).nodes
    (p := ⟨[], []⟩) (by simp)
  rw [List.nil_append] at hlevels
  rw [← hlevels, collected, Option.map_eq_some_iff]
  constructor
  · rintro ⟨q, hq, rfl⟩
    obtain ⟨rfl, ⟨hcomplete, hclear⟩, -⟩ := Supply.of_visitFrom
      (descend (strides.map Stride.leads)) (Marked strides) (Unbroken strides)
      (fun n p q hp hq => of_followed hp hq) (marked_start strides) hq
    exact ⟨hcomplete, hclear, rfl⟩
  · rintro ⟨hcomplete, hclear, rfl⟩
    rw [Supply.visit, hcomplete]
    exact ⟨_, Supply.visitFrom_eq_foldl fun n hn p => followed_of_unbroken (hclear n hn), rfl⟩

/-! ### The last step -/

/-- One step more does not break off if it does not from what the others lead to. -/
theorem unbroken_append_singleton {nodes : List Node} {stride : Stride} :
    (∀ n ∈ nodes, Unbroken (strides ++ [stride]) n) ↔
      (∀ n ∈ nodes, Unbroken strides n) ∧
      ∀ m ∈ levels (strides.map Stride.leads) nodes, (stride.supply m).complete = true := by
  induction strides generalizing nodes with
  | nil => simp [Unbroken, levels]
  | cons first rest ih =>
    have hnext : ∀ ss : List Stride, (∀ n ∈ nodes, ∀ m ∈ first.leads n, Unbroken ss m) ↔
        ∀ m ∈ firstOccurrences (nodes.flatMap first.leads), Unbroken ss m := by
      intro ss
      simp only [mem_firstOccurrences, List.mem_flatMap, forall_exists_index, and_imp]
      exact ⟨fun h m n hn hm => h n hn m hm, fun h n hn m hm => h m n hn hm⟩
    simp only [List.cons_append, Unbroken, forall_and, List.map_cons, levels]
    rw [hnext, hnext, ih, and_assoc]

variable {σ : Setting} {nodes : List Node} {ps : List Predicate}

theorem collected_append_singleton (stride : Stride) :
    collected false nodes ps (strides ++ [stride]) =
      (collected false nodes ps strides).bind stride.advanced := by
  refine Option.ext fun found => ?_
  simp only [collected_eq_some_iff, unbroken_append_singleton, List.map_append, List.map_singleton,
    levels_append, Option.bind_eq_some_iff, Stride.advanced_eq_some_iff]
  constructor
  · rintro ⟨hcomplete, ⟨hclear, hlast⟩, hfound⟩
    exact ⟨_, ⟨hcomplete, hclear, rfl⟩, hlast, hfound⟩
  · rintro ⟨_, ⟨hcomplete, hclear, rfl⟩, hlast, hfound⟩
    exact ⟨hcomplete, ⟨hclear, hlast⟩, hfound⟩

/-- Without steps nodes lead to what predicates leave of them. -/
theorem collected_nil (nodes : List Node) (ps : List Predicate) :
    collected false nodes ps [] = (Supply.of nodes ps).whole := by
  refine Option.ext fun found => ?_
  rw [collected_eq_some_iff, Supply.whole]
  simp [Unbroken, levels]

/-- The last step goes on from all the nodes that the others select. -/
theorem selectedFrom_append_singleton (before : List (Step Meaning)) (last : Step Meaning) :
    selectedFrom σ false nodes ps strides (before ++ [last]) =
      (selectedFrom σ false nodes ps strides before).bind (last.advanced σ) := by
  induction before generalizing nodes ps strides with
  | nil =>
    rw [List.nil_append, selectedFrom.eq_2, selectedFrom.eq_1]
    unfold Step.advanced
    cases (Eval.ofExcept (Stride.ofStep σ last)).outcome with
    | none => simp
    | some stride =>
      simp only [Option.bind_some, selectedFrom, collected_nil]
      refine Eq.trans ?_ Option.map_bind
      rw [← collected_append_singleton]
      unfold Axis.arranged
      split
      · rw [Option.map_eq_bind]
        rfl
      · exact Option.map_id'.symm
  | cons step rest ih =>
    rw [List.cons_append, selectedFrom, selectedFrom]
    cases (Eval.ofExcept (Stride.ofStep σ step)).outcome with
    | none => rfl
    | some stride =>
      rw [Option.bind_some, Option.bind_some]
      split
      · rw [Option.bind_assoc]
        exact congrArg _ (funext fun found => ih)
      · exact ih

/-- The last step of a path goes on from all the nodes that the path selects without it. -/
theorem selected_append_singleton (start : Start Meaning) (before : List (Step Meaning))
    (last : Step Meaning) (c : Context) :
    selected σ false start (before ++ [last]) c =
      (selected σ false start before c).bind (last.advanced σ) := by
  rw [selected, selected, Option.bind_assoc]
  exact congrArg _ (funext fun r => selectedFrom_append_singleton before last)

/-- What several steps lead to from nodes, one step after the other. -/
def onward (σ : Setting) : List (Step Meaning) → List Node → Option (List Node)
  | [], inputs => some inputs
  | step :: rest, inputs => (step.advanced σ inputs).bind (onward σ rest)

/-- The last steps of a path go on from all the nodes that the path selects without them. -/
theorem selected_append (start : Start Meaning) (before after : List (Step Meaning)) (c : Context) :
    selected σ false start (before ++ after) c =
      (selected σ false start before c).bind (onward σ after) := by
  induction after generalizing before with
  | nil =>
    rw [List.append_nil]
    exact (Option.bind_fun_some _).symm
  | cons step rest ih =>
    rw [List.append_cons, ih, selected_append_singleton, Option.bind_assoc]
    rfl

end Path

/-- A path has a value if it has one without its last step, and this step goes on from there. -/
theorem Expr.value_append_singleton {L : Library} {σ : Setting} (hL : L.Steady σ) {c : Context}
    {I : List Stage → Prop} {size? : Option Nat} (hc : c.size.Comes I size?) {s : State}
    (hs : I s.stages) {start : Start Expr} {before : List (Step Expr)} {last : Step Expr}
    {v : Value} :
    (∃ u, ((path start (before ++ [last])).meaning (.standard L σ)).value c s = .ok v u) ↔
      ∃ inputs found,
        (∃ u, ((path start before).meaning (.standard L σ)).value c s = .ok (.nodeSet ⟨inputs⟩) u) ∧
        (stepMeaning (.standard L σ) last).advanced σ inputs = some found ∧
        v = .nodeSet ⟨found⟩ := by
  rw [(comes_path hL start _ hc).ok_iff hs, stepMeanings_append, stepMeanings, stepMeanings,
    Path.selected_append_singleton, Option.map_eq_some_iff]
  simp only [(comes_path hL start before hc).ok_iff hs, Option.bind_eq_some_iff,
    Option.map_eq_some_iff, Value.nodeSet.injEq, NodeSet.mk.injEq, exists_eq_right]
  constructor
  · rintro ⟨found, ⟨inputs, hinputs, hfound⟩, rfl⟩
    exact ⟨inputs, found, hinputs, hfound, rfl⟩
  · rintro ⟨inputs, found, hinputs, hfound, rfl⟩
    exact ⟨found, ⟨inputs, hinputs, hfound⟩, rfl⟩

/-! ### The plain reading -/

/-- What the plain reading of a predicate keeps of a list is what the predicate leaves. -/
theorem Predicate.sift_of_keep {p : Predicate} (hp : p.Steady) {nodes K : List Node}
    (h : (Eager.keep p nodes).Yields K) : p.sift ⟨nodes, true⟩ = ⟨K, true⟩ := by
  cases p with
  | position x =>
    rw [Eager.keep_position h]
    by_cases hx : Stage.isPosition x = true
    · rw [if_pos hx]
      cases hn : nodes[Number.wholePart x - 1]? with
      | none => exact sift_position_none hx hn
      | some n => exact sift_position_some hx hn
    · rw [if_neg hx]
      exact sift_position_of_not hx
  | test judge =>
    rw [Eager.keep] at h
    rw [sift, Supply.size?, if_pos rfl]
    generalize nodes.length = size at h ⊢
    generalize 1 = position at h ⊢
    dsimp only
    induction nodes generalizing position K with
    | nil =>
      obtain rfl := Eval.yields_pure h
      rfl
    | cons n rest ih =>
      obtain ⟨verdict, ⟨s, t, hverdict⟩, h⟩ := Eager.yields_keepFrom_cons h
      -- A judgement that is made at all says what it says in a context of known size.
      have hsize : (Context.size ⟨n, position, pure size⟩).Comes (fun _ => True) (some size) :=
        Eval.comes_pure size
      have hjudged := (Steady.comes hp hsize).ok trivial hverdict
      rw [Supply.siftFrom, hjudged]
      cases verdict with
      | picked =>
        obtain rfl := h
        rfl
      | kept =>
        obtain ⟨later, rfl, hlater⟩ := h
        dsimp only
        rw [ih _ hlater]
        rfl
      | dropped => exact ih _ h

/-- What the plain reading of predicates keeps of candidates is what they leave. -/
theorem Supply.of_eq_of_survivors {ps : List Predicate} (hp : ∀ p ∈ ps, p.Steady)
    {nodes K : List Node} (h : (Eager.survivors ps.reverse nodes).Yields K) :
    Supply.of nodes ps = ⟨K, true⟩ := by
  have hkept := Eager.kept_of_survivors h
  clear h
  induction ps generalizing K with
  | nil =>
    obtain rfl := hkept
    rfl
  | cons p earlier ih =>
    obtain ⟨L, hL, hK⟩ := hkept
    rw [of, sifted, ← of, ih (fun q hq => hp q (by simp [hq])) hL]
    exact Predicate.sift_of_keep (hp p (by simp)) hK

end XPath
