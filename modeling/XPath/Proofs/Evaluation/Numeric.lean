/-
Numbers as predicates of paths.

Let an expression evaluate to a number at each candidate that gets to a place of a path, maybe to
another one at each.  As a predicate there it keeps of each list of candidates the first one whose
position the number is, and no candidate behind that one is judged.  Its comparison with the
position keeps all of them.  So the two select the same nodes if no list has more than one.

* `Expr.Stops` — the expression is evaluated for no candidate after one that it picks;
* `numeric_predicate` — the first hits, all hits, and when these are the same.
-/
import XPath.Proofs.Evaluation.Coherence
import XPath.Proofs.Evaluation.Literal

namespace XPath

namespace Expr

variable {σ : Setting} {e : Expr}

/-- Of the candidates of a list that the expression has been evaluated for, only the last one may
have the position that it has evaluated to. -/
def Stops (i : Interpretation) (e : Expr) (r : Run) : Prop :=
  ∀ j ∈ r.judgements.dropLast, ∀ z,
    ((e.meaning i).value (.known j.node j.position r.supply.size?)).outcome = some (.number z) →
      (z == Number.ofNat j.position) = false

/-- What evaluates to its position is picked, and after that no candidate is judged. -/
theorem stops_of_run {L : Library} {r : Run}
    (h : r.Stops (e.meaning (.standard L σ)).predicate) : e.Stops (.standard L σ) r := by
  intro j hj z hz
  refine Bool.eq_false_iff.2 fun hposition => h j hj ?_
  by_cases he : ∃ z, e = .number z
  · obtain ⟨y, rfl⟩ := he
    obtain rfl : y = z := Value.number.inj (Option.some.inj hz)
    exact hposition
  · obtain ⟨judge, hjudge, hnumber⟩ := judges_number (L := L) (σ := σ) fun z h => he ⟨z, h⟩
    rw [hjudge]
    show (judge _).outcome = _
    rw [hnumber _ _ _ _ hz, Verdict.ofValue, if_pos hposition]

end Expr

/-- An expression that evaluates to a number at each candidate that gets to its place keeps, of each
list of candidates, the first one whose position it evaluates to, and its comparison with the
position keeps all these, whatever comes before and behind the place, and whether or not something
fails there.  So what the comparison selects the number selects too if no list has more than one,
as when the number is the same for all candidates of a list, and if no list breaks off they select
the same.  A number is evaluated for the candidates of a list one after the other, and for none
after one whose position it evaluates to. -/
theorem numeric_predicate {σ : Setting} {slot : Slot} {c : Context} {I : List Stage → Prop}
    {size? : Option Nat} (hc : c.size.Comes I size?) {s : State} (hs : I s.stages) {e : Expr}
    {x : Supply → Nat → Float}
    (hx : ∀ S, slot.Supplies (.standard Registry.core.library σ) c s S →
      e.Counts (.standard Registry.core.library σ) (x S) S)
    (hliteral : ∀ z, e = .number z → ∀ S, slot.Supplies (.standard Registry.core.library σ) c s S →
      S.nodes.length ≤ 2 ^ 53) :
    let i := Interpretation.standard Registry.core.library σ
    let here := Context.known c.node c.position size?
    let selects := fun (e : Expr) (v : Value) => ∃ t, ((slot.path e).meaning i).value c s = .ok v t
    ((((slot.path e).meaning i).value c).Comes I
        ((slot.selected i (fun S => e.picked (x S) S) here).map fun found => .nodeSet ⟨found⟩) ∧
      ∀ S, slot.Supplies i c s S → (e.picked (x S) S).nodes = (S.hits (x S)).nodes.take 1) ∧
    (((slot.path e.atPosition).meaning i).value c).Comes I
      ((slot.selected i (fun S => S.hits (x S)) here).map fun found => .nodeSet ⟨found⟩) ∧
    ((∀ S, slot.Supplies i c s S → (S.hits (x S)).nodes.length ≤ 1) → ∀ v,
      (selects e.atPosition v → selects e v) ∧
        ((∀ S, slot.Supplies i c s S → S.complete = true) →
          (selects e v ↔ selects e.atPosition v))) ∧
    (∀ S, slot.Supplies i c s S → S.nodes.length ≤ 2 ^ 53 →
      ∀ z, (∀ p < S.nodes.length, x S (p + 1) = z) → (S.hits (x S)).nodes.length ≤ 1) ∧
    ∀ line, c.size.Silent →
      let seen := slot.meaning i ((e.meaning i).watched line)
      slot.JudgedBy i line (e.Stops i) s.log ((seen.value c).after s).log ∧
        (seen.value c).Echoes (((slot.path e).meaning i).value c) := by
  intro i here selects
  have hsteady := Registry.steady_core σ
  have hnumber : ∀ S, slot.Supplies i c s S → (e.meaning i).predicate.sift S = e.picked (x S) S :=
    fun S hS => Expr.sift_number (hx S hS) fun z hz => hliteral z hz S hS
  have hcomparison : ∀ S, slot.Supplies i c s S →
      (e.atPosition.meaning i).predicate.sift S = S.hits (x S) :=
    fun S hS => Expr.sift_atPosition (fun _ => rfl) (hx S hS)
  refine ⟨⟨?_, fun S hS => ?_⟩, ?_, fun hone v => ?_, fun S _ hlength z hz => ?_,
    fun line hsize => ⟨?_, ?_⟩⟩
  · have hcomes := @Slot.comes_path _ _ hsteady slot _ _ _ hc e
    rwa [Slot.selected_congr hsteady hc hs hnumber] at hcomes
  · exact Expr.nodes_picked (hx S hS) fun z hz => hliteral z hz S hS
  · have hcomes := @Slot.comes_path _ _ hsteady slot _ _ _ hc e.atPosition
    rwa [Slot.selected_congr hsteady hc hs hcomparison] at hcomes
  · have hbegins : ∀ S, slot.Supplies i c s S → (S.hits (x S)).Begins (e.picked (x S) S) :=
      fun S hS => Expr.hits_begins_picked (hx S hS) (fun z hz => hliteral z hz S hS) (hone S hS)
    have hmore : selects e.atPosition v → selects e v := fun ⟨t, ht⟩ =>
      Slot.value_begins hsteady hc hs
        (fun S hS => by
          rw [hnumber S hS, hcomparison S hS]
          exact hbegins S hS) ht
    refine ⟨hmore, fun hcomplete => ⟨fun ⟨t, ht⟩ => ?_, hmore⟩⟩
    refine Slot.value_begins hsteady hc hs (fun S hS => .inl ?_) ht
    rw [hnumber S hS, hcomparison S hS]
    exact ((hbegins S hS).eq_of_complete (hcomplete S hS)).symm
  -- A list this short has no two positions that one double is equal to.
  · exact Supply.length_hits_le_one hz hlength
  · obtain ⟨hvalue, -⟩ := @Slot.judgedBy_frame _ line .whole slot e _
      (Path.logs_of_quiet Slot.course_judgedBy hsize.quiet)
    exact (hvalue s).mono fun _ => Expr.stops_of_run
  · have hcontexts : (Accord.echoing σ).Contexts () c c := ⟨rfl, trivial, rfl, hsize.echoes⟩
    exact ((Slot.echoing_watched slot e).value hcontexts).1

/-- In the sample only the children of the document get to the place. -/
theorem Slot.supplies_children {S : Supply}
    (h : children.Supplies (.standard Registry.core.library (.ofTree .sample)) (.alone ⟨0, 0⟩)
      .start S) : S = .children := by
  cases h with
  | @step _ _ _ _ _ _ _ inputs t base n hinputs hn h =>
    obtain rfl : inputs = ⟨[⟨0, 0⟩]⟩ := by
      cases hinputs
      rfl
    obtain rfl := List.mem_singleton.1 hn
    cases h
    exact congrArg (Supply.mk · true) walk_children

/-- A difference to the position is a different number at each candidate. -/
theorem Expr.counts_subtract_position {σ : Setting} {y : Float} (hy : y.isNaN = false)
    (S : Supply) :
    (Expr.arithmetic .subtract (.number y) .position).Counts
      (.standard Registry.core.library σ) (fun p => y - Number.ofNat p) S := by
  intro p n _
  show Eval.outcome (do
    if y.isNaN then return Value.number Number.nan
    return .number (y - Number.ofNat (p + 1))) = _
  rw [hy]
  rfl

/-- Of the three children of the sample's document only the second one has the position that
`4 - position()` evaluates to. -/
theorem numeric_predicate_sample :
    let i := Interpretation.standard Registry.core.library (.ofTree .sample)
    let e := Expr.arithmetic .subtract (.number (Number.ofNat 4)) .position
    ∃ v,
      (∃ t, ((Slot.children.path e).meaning i).value (.alone ⟨0, 0⟩) .start = .ok v t) ∧
      ∃ t, ((Slot.children.path e.atPosition).meaning i).value (.alone ⟨0, 0⟩) .start =
        .ok v t := by
  intro i e
  have hx : ∀ S, e.Counts i (fun p => Number.ofNat 4 - Number.ofNat p) S :=
    Expr.counts_subtract_position (by decide +kernel)
  have hhits : (Supply.children.hits fun p => Number.ofNat 4 - Number.ofNat p) =
      ⟨[⟨0, 6⟩], true⟩ := by decide +kernel
  have h := @numeric_predicate _ .children (.alone ⟨0, 0⟩) (fun _ => True) _ (Eval.comes_pure 1)
    .start trivial _ _ (fun S _ => hx S) nofun
  have hcomparison := @Slot.value_children _ [⟨0, 6⟩]
    ((Expr.sift_atPosition (fun _ => rfl) (hx .children)).trans hhits) (by decide)
  refine ⟨_, (h.2.2.1 (fun S hS => ?_) _).1 hcomparison, hcomparison⟩
  rw [Slot.supplies_children hS, hhits]
  exact le_refl 1

/-- The expression `position()` is right about the position of each candidate, but as a predicate it
keeps only the first one. -/
theorem numeric_predicate_stops :
    let i := Interpretation.standard Registry.core.library (.ofTree .sample)
    (∀ S, Expr.position.Counts i (fun p => Number.ofNat p) S) ∧
      (∃ t, ((Slot.children.path .position).meaning i).value (.alone ⟨0, 0⟩) .start =
        .ok (.nodeSet ⟨[⟨0, 1⟩]⟩) t) ∧
      ∃ t, ((Slot.children.path Expr.position.atPosition).meaning i).value (.alone ⟨0, 0⟩) .start =
        .ok (.nodeSet ⟨[⟨0, 1⟩, ⟨0, 6⟩, ⟨0, 8⟩]⟩) t := by
  intro i
  have hx : ∀ S, Expr.position.Counts i (fun p => Number.ofNat p) S := fun _ _ _ _ => rfl
  refine ⟨hx, Slot.value_children ?_ (by decide), Slot.value_children ?_ (by decide)⟩
  · exact (Expr.sift_number (hx _) nofun).trans (by decide +kernel)
  · exact (Expr.sift_atPosition (fun _ => rfl) (hx _)).trans (by decide +kernel)

end XPath
