/-
Places for predicates in paths.

A predicate can stand at any place among the others of a step, or of the expression that a path
starts with.  What the path selects depends on the predicate only through what this leaves of the
lists of candidates that get to the place.  So the other parts of the path can be kept apart from
the predicate: which lists get there says the path before the place, and what becomes of what is
left of them the predicates and steps behind it.

* `Slot`, `Slot.path`, `Slot.meaning` — a place for a predicate, and the path with one there;
* `Slot.Supplies` — the lists of candidates that get to the place, which may break off;
* `Slot.selected` — what the path selects, by what is left of each list;
* `Slot.comes_path` — a predicate leaves what it sifts;
* `Slot.selected_begins` — only what is left of the lists that get to the place matters.
-/
import XPath.Proofs.Evaluation.Levels

namespace XPath

/-- A path with a place for a predicate, before, between or after the others of a step or of the
filtered expression that the path starts with. -/
inductive Slot where
  | step (start : Start Expr) (before : List (Step Expr)) (axis : Axis) (test : NodeTest)
      (earlier later : List Expr) (after : List (Step Expr))
  | filter (primary : Expr) (earlier later : List Expr) (steps : List (Step Expr))

/-- The predicates that expressions are, last to first. -/
def Expr.filters (i : Interpretation) (es : List Expr) : List Predicate :=
  ((meanings i es).map (·.predicate)).reverse

/-- The predicates of a step with a meaning among them, last to first. -/
theorem Expr.filters_among (i : Interpretation) (earlier later : List Expr) (m : Meaning) :
    ((meanings i earlier ++ m :: meanings i later).map (·.predicate)).reverse =
      filters i later ++ m.predicate :: filters i earlier := by
  simp [filters]

theorem Eval.outcome_ofExcept_eq_some {α : Type} {x : Except Error α} {a : α} :
    (ofExcept x).outcome = some a ↔ x = .ok a := by
  cases x with
  | error e => exact ⟨nofun, nofun⟩
  | ok b => exact ⟨fun h => congrArg _ (Option.some.inj h), fun h => congrArg _ (Except.ok.inj h)⟩

namespace Slot

/-- The path with a predicate put in its place. -/
def path : Slot → Expr → Expr
  | step start before axis test earlier later after, e =>
    .path start (before ++ ⟨axis, test, earlier ++ e :: later⟩ :: after)
  | filter primary earlier later steps, e => .path (.filter primary (earlier ++ e :: later)) steps

variable (i : Interpretation)

/-- The start of a path, with a meaning in the place if that is there. -/
def start : Slot → Meaning → Start Meaning
  | step start _ _ _ _ _ _, _ => Expr.startMeaning i start
  | filter primary earlier later _, m =>
    .filter (primary.meaning i) (Expr.meanings i earlier ++ m :: Expr.meanings i later)

/-- The steps of a path, with a meaning in the place if that is among them. -/
def steps : Slot → Meaning → List (Step Meaning)
  | step _ before axis test earlier later after, m =>
    Expr.stepMeanings i before ++
      ⟨axis, test, Expr.meanings i earlier ++ m :: Expr.meanings i later⟩ ::
        Expr.stepMeanings i after
  | filter _ _ _ steps, _ => Expr.stepMeanings i steps

/-- What a path means with a meaning in its place. -/
def meaning (slot : Slot) (m : Meaning) : Meaning := i.path (slot.start i m) (slot.steps i m)

/-- The path with a predicate in its place is the one with what that means. -/
theorem meaning_path (slot : Slot) (e : Expr) :
    (slot.path e).meaning i = slot.meaning i (e.meaning i) := by
  cases slot with
  | step start before axis test earlier later after =>
    rw [path, Expr.meaning, Expr.stepMeanings_append, Expr.stepMeanings, Expr.stepMeaning,
      Expr.meanings_append, Expr.meanings]
    rfl
  | filter primary earlier later steps =>
    rw [path, Expr.meaning, Expr.startMeaning, Expr.meanings_append, Expr.meanings]
    rfl

/-! ### Lists that get to a place -/

/-- The lists of candidates that get to the place, which may break off: what the predicates before
it leave of the nodes that the step leads to from one of those that the path before it selects, or
of the nodes that are filtered. -/
inductive Supplies (c : Context) (s : State) : Slot → Supply → Prop
  | step {start before axis test earlier later after inputs t base n}
      (hinputs : ((Expr.path start before).meaning i).value c s = .ok (.nodeSet inputs) t)
      (hn : n ∈ inputs.nodes) (h : Stride.ofStep i.setting ⟨axis, test, []⟩ = .ok base) :
      Supplies c s (.step start before axis test earlier later after)
        (Supply.of (base.candidates n) (Expr.filters i earlier))
  | filter {primary earlier later steps nodes t}
      (h : (primary.meaning i).value c s = .ok (.nodeSet nodes) t) :
      Supplies c s (.filter primary earlier later steps)
        (Supply.of (nodes.sorted i.setting.view).nodes (Expr.filters i earlier))

/-- What is left of candidates behind the place, if `keep` says what is left of a list there. -/
def left (earlier later : List Expr) (keep : Supply → Supply) (nodes : List Node) : Supply :=
  Supply.sifted (Expr.filters i later) (keep (Supply.of nodes (Expr.filters i earlier)))

/-- What the path selects, if `keep` says what is left of each list that gets to the place. -/
def selected (keep : Supply → Supply) (c : Context) : Slot → Option (List Node)
  | step start before axis test earlier later after =>
    (Path.selected i.setting false (Expr.startMeaning i start) (Expr.stepMeanings i before)
      c).bind fun inputs =>
        (Eval.ofExcept (Stride.ofStep i.setting ⟨axis, test, []⟩)).outcome.bind fun base =>
          (Supply.gathered (inputs.map fun n =>
            left i earlier later keep (base.candidates n))).bind fun found =>
              Path.onward i.setting (Expr.stepMeanings i after) (axis.arranged i.setting found)
  | filter primary earlier later steps =>
    ((primary.meaning i).value c).outcome.bind fun
      | .nodeSet nodes =>
        (left i earlier later keep (nodes.sorted i.setting.view).nodes).whole.bind
          (Path.onward i.setting (Expr.stepMeanings i steps))
      | _ => none

variable {i}

/-- What predicates around a place leave. -/
theorem of_filters (earlier later : List Expr) (m : Meaning) (nodes : List Node) :
    Supply.of nodes ((Expr.meanings i earlier ++ m :: Expr.meanings i later).map
        (·.predicate)).reverse = left i earlier later m.predicate.sift nodes := by
  rw [Expr.filters_among, Supply.of, Supply.sifted_append]
  rfl

section Steady

variable {L : Library} {σ : Setting} (hL : L.Steady σ) {slot : Slot} {c : Context}
  {I : List Stage → Prop} {size? : Option Nat} (hc : c.size.Comes I size?)

include hL hc

/-- What a path selects depends on what the predicate in the place leaves. -/
theorem comes_path (e : Expr) :
    (((slot.path e).meaning (.standard L σ)).value c).Comes I
      ((slot.selected (.standard L σ) (e.meaning (.standard L σ)).predicate.sift
        (.known c.node c.position size?)).map fun found => .nodeSet ⟨found⟩) := by
  cases slot with
  | step start before axis test earlier later after =>
    have h := Expr.comes_path hL start (before ++ ⟨axis, test, earlier ++ e :: later⟩ :: after) hc
    rw [Expr.stepMeanings_append, Expr.stepMeanings, Expr.stepMeaning, Expr.meanings_append,
      Expr.meanings, Path.selected_append] at h
    simp only [Path.onward, Step.advanced_eq, of_filters, Option.bind_assoc, Option.bind_map] at h
    exact h
  | filter primary earlier later steps =>
    have h := Expr.comes_path hL (.filter primary (earlier ++ e :: later)) steps hc
    rw [← List.nil_append (Expr.stepMeanings _ steps), Path.selected_append] at h
    refine Eq.mp (congrArg (fun r => Eval.Comes I _ (Option.map _ r)) ?_) h
    rw [Path.selected, selected, Option.bind_assoc, Expr.startMeaning, Expr.meanings_append,
      Expr.meanings, Path.started, Option.bind_assoc]
    refine congrArg _ (funext fun v => ?_)
    cases v with
    | nodeSet nodes =>
      rw [Path.startedBy, Option.bind_some, Path.selectedFrom, Path.collected_nil, of_filters]
      rfl
    | string text => rfl
    | number x => rfl
    | boolean b => rfl

variable {s : State} (hs : I s.stages) {keep keep' : Supply → Supply}

include hs

/-- If of no list that gets to the place less is left, then the path selects the same unless it
failed before. -/
theorem selected_begins
    (h : ∀ S, slot.Supplies (.standard L σ) c s S → (keep S).Begins (keep' S)) {found : List Node}
    (hfound : found ∈ slot.selected (.standard L σ) keep (.known c.node c.position size?)) :
    found ∈ slot.selected (.standard L σ) keep' (.known c.node c.position size?) := by
  have hleft : ∀ earlier later nodes,
      slot.Supplies (.standard L σ) c s
        (Supply.of nodes (Expr.filters (.standard L σ) earlier)) →
      (left (.standard L σ) earlier later keep nodes).Begins
        (left (.standard L σ) earlier later keep' nodes) := fun earlier later nodes hS =>
    Supply.sifted_begins (Meaning.forall_reverse (Expr.steady_predicates hL later)) (h _ hS)
  cases slot with
  | step start before axis test earlier later after =>
    obtain ⟨inputs, hinputs, hfound⟩ := Option.bind_eq_some_iff.1 hfound
    obtain ⟨base, hbase, hfound⟩ := Option.bind_eq_some_iff.1 hfound
    obtain ⟨all, hall, hfound⟩ := Option.bind_eq_some_iff.1 hfound
    refine Option.bind_eq_some_iff.2 ⟨inputs, hinputs, Option.bind_eq_some_iff.2 ⟨base, hbase,
      Option.bind_eq_some_iff.2 ⟨all, Supply.gathered_begins (fun n hn => ?_) hall, hfound⟩⟩⟩
    -- What the path before the step leads to, the engine selects.
    obtain ⟨t, ht⟩ := ((Expr.comes_path hL start before hc).ok_iff hs).2
      (congrArg (Option.map fun found => Value.nodeSet ⟨found⟩) hinputs)
    exact hleft earlier later _ (.step ht hn (Eval.outcome_ofExcept_eq_some.1 hbase))
  | filter primary earlier later steps =>
    obtain ⟨v, hv, hfound⟩ := Option.bind_eq_some_iff.1 hfound
    refine Option.bind_eq_some_iff.2 ⟨v, hv, ?_⟩
    cases v with
    | nodeSet nodes =>
      obtain ⟨all, hall, hfound⟩ := Option.bind_eq_some_iff.1 hfound
      have hprimary := (Expr.steady_value hL primary).comes hc
      rw [hv] at hprimary
      obtain ⟨t, ht⟩ := hprimary.gives hs
      exact Option.bind_eq_some_iff.2 ⟨all, Supply.whole_begins (hleft earlier later _ (.filter ht))
        hall, hfound⟩
    | string text => cases hfound
    | number x => cases hfound
    | boolean b => cases hfound

/-- If the same is left of the lists that get to the place, the path selects the same. -/
theorem selected_congr (h : ∀ S, slot.Supplies (.standard L σ) c s S → keep S = keep' S) :
    slot.selected (.standard L σ) keep (.known c.node c.position size?) =
      slot.selected (.standard L σ) keep' (.known c.node c.position size?) :=
  Option.ext fun _ => ⟨selected_begins hL hc hs fun S hS => .inl (h S hS),
    selected_begins hL hc hs fun S hS => .inl (h S hS).symm⟩

/-- Of two predicates, let one leave no less than the other of the lists that get to the place.  If
the path with the other one does not fail, then the path with the one selects the same. -/
theorem value_begins {d e : Expr} (h : ∀ S, slot.Supplies (.standard L σ) c s S →
      ((d.meaning (.standard L σ)).predicate.sift S).Begins
        ((e.meaning (.standard L σ)).predicate.sift S)) {v : Value} {t : State}
    (hv : ((slot.path d).meaning (.standard L σ)).value c s = .ok v t) :
    ∃ u, ((slot.path e).meaning (.standard L σ)).value c s = .ok v u := by
  obtain ⟨found, hfound, rfl⟩ := Option.map_eq_some_iff.1 ((comes_path hL hc d).ok hs hv)
  have hcomes := @comes_path _ _ hL slot _ _ _ hc e
  rw [selected_begins hL hc hs h hfound] at hcomes
  exact hcomes.gives hs

end Steady

end Slot

end XPath
