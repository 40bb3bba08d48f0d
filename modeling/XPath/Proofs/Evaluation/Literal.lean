/-
Number literals as predicates.

A number literal picks the candidate at its position without looking at the others, while a
comparison with the position is evaluated for one candidate after the other.  Where the comparison
does not fail the two leave the same.  The literal leaves no less where the candidates break off, as
it does not get there once it has its candidate.  What asks for the last candidate has to count them
in any case.

* `Expr.sift_literal`, `Expr.sift_last` — what is left of a list of candidates;
* `Slot.Offers` — the lists of candidates that may get to a place;
* `literal_selects_position` — the two ways of asking for a position.
-/
import XPath.Proofs.Evaluation.Position
import XPath.Proofs.Evaluation.Slots
import XPath.Tree.Sample

namespace XPath

/-! ### What is left of a list -/

namespace Expr

variable {L : Library} {σ : Setting}
  (hposition : ∀ c, L ⟨none, "position"⟩ σ c = some Core.position)

section Position

include hposition

/-- Of as many candidates as doubles can tell apart, a literal leaves no less than a comparison with
the position. -/
theorem sift_literal (x : Float) {S : Supply} (hlength : S.nodes.length ≤ 2 ^ 53) :
    (((Expr.number x).atPosition.meaning (.standard L σ)).predicate.sift S).Begins
      (((Expr.number x).meaning (.standard L σ)).predicate.sift S) := by
  have hx : (Expr.number x).Counts (.standard L σ) (fun _ => x) S := fun _ _ _ => rfl
  rw [sift_atPosition hposition hx, sift_number hx fun _ _ => hlength]
  exact hits_begins_picked hx (fun _ _ => hlength)
    (Supply.length_hits_le_one (fun _ _ => rfl) hlength)

end Position

variable (hlast : ∀ c, L ⟨none, "last"⟩ σ c = some Core.last)

include hlast

theorem value_last (c : Context) :
    (last.meaning (.standard L σ)).value c = do return .number (Number.ofNat (← c.size)) := by
  rw [last, meaning, meanings]
  exact Meaning.value_call (i := .standard L σ) (hlast c)

/-- Where the candidates can be counted, `last()` evaluates to their number. -/
theorem outcome_last (n : Node) (position : Nat) (size? : Option Nat) :
    ((last.meaning (.standard L σ)).value (.known n position size?)).outcome =
      size?.map fun size => .number (Number.ofNat size) := by
  rw [value_last hlast]
  exact (Eval.comes_map (Context.comes_known (I := fun _ => True) n position size?)).outcome trivial

include hposition

/-- Of as many candidates as doubles can tell apart, `last()` leaves what a comparison of it with
the position does. -/
theorem sift_last {S : Supply} (hlength : S.nodes.length ≤ 2 ^ 53) :
    (last.atPosition.meaning (.standard L σ)).predicate.sift S =
      (last.meaning (.standard L σ)).predicate.sift S := by
  cases hc : S.complete with
  | false =>
    -- The candidates cannot be counted, so both fail at the first one.
    have hsize : S.size? = none := by rw [Supply.size?, hc]; rfl
    have hnone : ∀ n position,
        ((last.meaning (.standard L σ)).value (.known n position S.size?)).outcome = none :=
      fun n position => by rw [outcome_last hlast, hsize]; rfl
    have hpredicate : (last.meaning (.standard L σ)).predicate = .test fun c => do
        return .ofValue c.position (← (last.meaning (.standard L σ)).value c) := rfl
    rw [predicate_atPosition hposition, hpredicate, Predicate.sift, Predicate.sift,
      Supply.siftFrom_none fun n position => ?_, Supply.siftFrom_none fun n position => ?_]
    · rw [Eval.outcome_map, Context.known, ← Context.known, hnone]
      rfl
    · rw [Eval.outcome_bind (g := fun _ => none) (by simp [hnone]), hnone]
      rfl
  | true =>
    have hx : last.Counts (.standard L σ) (fun _ => Number.ofNat S.nodes.length) S :=
      fun p n _ => by
        rw [outcome_last hlast, Supply.size?, if_pos hc]
        rfl
    have hliteral : ∀ z, last = .number z → S.nodes.length ≤ 2 ^ 53 := fun _ _ => hlength
    have hone := Supply.length_hits_le_one (x := fun _ => Number.ofNat S.nodes.length)
      (fun _ _ => rfl) hlength
    rw [sift_atPosition hposition hx, sift_number hx hliteral]
    exact (hits_begins_picked hx hliteral hone).eq_of_complete hc

end Expr

/-! ### Places for a predicate -/

namespace Slot

/-- The lists of candidates that get to the place: what the predicates before it leave of the nodes
that the step leads to from some node, or of the nodes that are filtered. -/
inductive Offers (L : Library) (σ : Setting) (c : Context) (s : State) : Slot → List Node → Prop
  | step {start before axis test earlier later after stride} (n : Node)
      (h : Stride.ofStep σ (Expr.stepMeaning (.standard L σ) ⟨axis, test, earlier⟩) = .ok stride) :
      Offers L σ c s (.step start before axis test earlier later after)
        (Supply.of (stride.candidates n) stride.predicates).nodes
  | filter {primary earlier later steps nodes t}
      (h : (primary.meaning (.standard L σ)).value c s = .ok (.nodeSet nodes) t) :
      Offers L σ c s (.filter primary earlier later steps)
        (Supply.of (nodes.sorted σ.view).nodes
          ((Expr.meanings (.standard L σ) earlier).map (·.predicate)).reverse).nodes

theorem Supplies.offers {L : Library} {σ : Setting} {slot : Slot} {c : Context} {s : State}
    {S : Supply} (h : slot.Supplies (.standard L σ) c s S) : slot.Offers L σ c s S.nodes := by
  cases h with
  | @step start before axis test earlier later after inputs t base n hinputs hn h =>
    have hready : Stride.ofStep σ (Expr.stepMeaning (.standard L σ) ⟨axis, test, earlier⟩) =
        .ok { base with predicates := Expr.filters (.standard L σ) earlier } := by
      have h : Stride.ofStep σ ⟨axis, test, []⟩ = .ok base := h
      rw [Expr.stepMeaning, Stride.ofStep_eq, h]
      rfl
    exact .step n hready
  | filter h => exact .filter h

end Slot

/-- A number literal as a predicate selects what a comparison of the position with it does, and
`last()` what a comparison of the position with `last()` does, wherever the predicate stands in a
path.  The literal may make a path succeed that fails with the comparison, but not the other way
round.  This needs functions that pass on what they are given, as the core functions do, and lists
of candidates whose positions doubles can tell apart. -/
theorem literal_selects_position {L : Library} {σ : Setting} (hL : L.Steady σ)
    (hposition : ∀ c, L ⟨none, "position"⟩ σ c = some Core.position) {slot : Slot} {c : Context}
    {I : List Stage → Prop} {size? : Option Nat} (hc : c.size.Comes I size?) {s : State}
    (hs : I s.stages) (hlength : ∀ nodes, slot.Offers L σ c s nodes → nodes.length ≤ 2 ^ 53)
    (v : Value) :
    (∀ x : Float,
      (∃ t, ((slot.path (Expr.number x).atPosition).meaning (.standard L σ)).value c s = .ok v t) →
        ∃ t, ((slot.path (.number x)).meaning (.standard L σ)).value c s = .ok v t) ∧
    ((∀ c, L ⟨none, "last"⟩ σ c = some Core.last) →
      ((∃ t, ((slot.path Expr.last.atPosition).meaning (.standard L σ)).value c s = .ok v t) ↔
        ∃ t, ((slot.path Expr.last).meaning (.standard L σ)).value c s = .ok v t)) := by
  refine ⟨fun x => ?_, fun hlast => ⟨?_, ?_⟩⟩
  · rintro ⟨t, ht⟩
    exact Slot.value_begins hL hc hs
      (fun S hS => Expr.sift_literal hposition x (hlength _ hS.offers)) ht
  · rintro ⟨t, ht⟩
    refine Slot.value_begins hL hc hs (fun S hS => ?_) ht
    rw [Expr.sift_last hposition hlast (hlength _ hS.offers)]
    exact Supply.begins_refl _
  · rintro ⟨t, ht⟩
    refine Slot.value_begins hL hc hs (fun S hS => ?_) ht
    rw [Expr.sift_last hposition hlast (hlength _ hS.offers)]
    exact Supply.begins_refl _

theorem Links.length_chainFrom_le (link : Node → Option Node) (fuel : Nat) (n? : Option Node) :
    (chainFrom link fuel n?).length ≤ fuel := by
  induction fuel generalizing n? with
  | zero => simp [chainFrom]
  | succ fuel ih =>
    cases n? with
    | none => simp [chainFrom]
    | some n => exact Nat.succ_le_succ (ih (link n))

/-- The path `child::*` with a place for its only predicate. -/
def Slot.children : Slot := .step .context [] .child .wildcard [] [] []

/-- The children of the sample's document. -/
def Supply.children : Supply := ⟨[⟨0, 1⟩, ⟨0, 6⟩, ⟨0, 8⟩], true⟩

theorem Slot.walk_children :
    ((Setting.ofTree .sample).view.walk .child ⟨0, 0⟩ ⟨0, 0⟩).filter
      (NodeTest.accepts (Setting.ofTree .sample).view.toLinks .child none · .wildcard) =
        Supply.children.nodes := by
  cbv

/-- From the document of the sample the path selects what a predicate leaves of its children. -/
theorem Slot.value_children {e : Expr} {found : List Node}
    (h : (e.meaning (.standard Registry.core.library (.ofTree .sample))).predicate.sift .children =
      ⟨found, true⟩) (hfound : firstOccurrences found = found) :
    ∃ t, ((children.path e).meaning (.standard Registry.core.library (.ofTree .sample))).value
      (.alone ⟨0, 0⟩) .start = .ok (.nodeSet ⟨found⟩) t := by
  have hselected : children.selected (.standard Registry.core.library (.ofTree .sample))
      (e.meaning (.standard Registry.core.library (.ofTree .sample))).predicate.sift
      (.known ⟨0, 0⟩ 1 (some 1)) = some found := by
    rw [children, selected]
    show (Supply.gathered [Predicate.sift _ ⟨_, true⟩]).bind some = _
    rw [Option.bind_fun_some]
    refine (congrArg (fun nodes => Supply.gathered [Predicate.sift _ ⟨nodes, true⟩])
      walk_children).trans ?_
    refine (congrArg (fun S => Supply.gathered [S]) h).trans ?_
    simpa [Supply.gathered] using hfound
  have hcomes : Eval.Comes (fun _ => True) _ (Option.map _ (children.selected _ _
      (.known ⟨0, 0⟩ 1 (some 1)))) :=
    comes_path (c := .alone ⟨0, 0⟩) (Registry.steady_core (.ofTree .sample)) (Eval.comes_pure 1) e
  rw [hselected] at hcomes
  exact hcomes.gives trivial

/-- In the sample no node has more children than there are nodes. -/
theorem Slot.length_children {s : State} {nodes : List Node}
    (h : children.Offers Registry.core.library (.ofTree .sample) (.alone ⟨0, 0⟩) s nodes) :
    nodes.length ≤ 2 ^ 53 := by
  cases h with
  | step n h =>
    cases h
    refine (List.length_filter_le _ _).trans ((Links.length_chainFrom_le _ _ _).trans ?_)
    have hbound : (Setting.ofTree .sample).view.bound = 11 := by cbv
    rw [hbound]
    norm_num

/-- Of the three children of the sample's document `position() = 2` selects the second one, and so
does the literal.  With `position() = last()` or `last()` it is the third one. -/
theorem literal_selects_position_sample :
    (∃ t, ((Slot.children.path (Expr.number (Number.ofNat 2)).atPosition).meaning
        (.standard Registry.core.library (.ofTree .sample))).value (.alone ⟨0, 0⟩) .start =
      .ok (.nodeSet ⟨[⟨0, 6⟩]⟩) t) ∧
    (∃ t, ((Slot.children.path (.number (Number.ofNat 2))).meaning
        (.standard Registry.core.library (.ofTree .sample))).value (.alone ⟨0, 0⟩) .start =
      .ok (.nodeSet ⟨[⟨0, 6⟩]⟩) t) ∧
    ∃ t, ((Slot.children.path Expr.last).meaning
        (.standard Registry.core.library (.ofTree .sample))).value (.alone ⟨0, 0⟩) .start =
      .ok (.nodeSet ⟨[⟨0, 8⟩]⟩) t := by
  have hcount : (Expr.number (Number.ofNat 2)).Counts
      (.standard Registry.core.library (.ofTree .sample)) (fun _ => Number.ofNat 2) .children :=
    fun _ _ _ => rfl
  have hcountLast : Expr.last.Counts (.standard Registry.core.library (.ofTree .sample))
      (fun _ => Number.ofNat 3) .children := fun _ _ _ => rfl
  have htwo := @Slot.value_children _ [⟨0, 6⟩]
    ((Expr.sift_atPosition (fun _ => rfl) hcount).trans (by decide +kernel)) (by decide)
  have hlast := @Slot.value_children _ [⟨0, 8⟩]
    ((Expr.sift_atPosition (fun _ => rfl) hcountLast).trans (by decide +kernel)) (by decide)
  have hliteral := fun v => literal_selects_position (I := fun _ => True) (s := .start)
    (Registry.steady_core (.ofTree .sample)) (fun _ => rfl) (Eval.comes_pure 1) trivial
    (fun _ => Slot.length_children) v
  exact ⟨htwo, (hliteral _).1 _ htwo, ((hliteral _).2 fun _ => rfl).1 hlast⟩

end XPath
