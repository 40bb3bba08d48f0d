/-
Predicates that are numbers.

A predicate that evaluates to a number keeps a candidate if the number is the position of the
candidate, and then it looks no further.  So of the candidates that `position() = E` keeps `E` keeps
the first.  The two predicates differ if the number is right more than once, which a number that is
the same for all candidates is not while doubles can tell their positions apart.

* `Supply.hitsFrom`, `Supply.hits` — the candidates that are where a number says;
* `Expr.Counts` — the number that an expression evaluates to at each candidate of a list;
* `Expr.sift_atPosition` — `position() = E` leaves all hits;
* `Expr.picked`, `Expr.sift_number` — `E` leaves the first one;
* `Supply.hits_begins_firstHit`, `Supply.length_hits_le_one` — when this is the same.
-/
import XPath.Proofs.Evaluation.Supply
import XPath.Proofs.Number.Grains

namespace XPath

/-! ### Hits -/

namespace Supply

variable {x y : Nat → Float} {position : Nat} {nodes : List Node} {S : Supply}

/-- The candidates whose position is the number that `x` has for it.  The first one is at
`position`. -/
def hitsFrom (x : Nat → Float) : Nat → List Node → List Node
  | _, [] => []
  | position, n :: rest =>
    if x position == Number.ofNat position then n :: hitsFrom x (position + 1) rest
    else hitsFrom x (position + 1) rest

/-- The candidates of a list whose position is the number that `x` has for it. -/
def hits (x : Nat → Float) (S : Supply) : Supply := ⟨hitsFrom x 1 S.nodes, S.complete⟩

/-- The first of these, and then the end of the list. -/
def firstHit (x : Nat → Float) (S : Supply) : Supply :=
  ⟨(S.hits x).nodes.take 1, S.complete || !(S.hits x).nodes.isEmpty⟩

theorem hitsFrom_congr (h : ∀ p < nodes.length, x (position + p) = y (position + p)) :
    hitsFrom x position nodes = hitsFrom y position nodes := by
  induction nodes generalizing position with
  | nil => rfl
  | cons n rest ih =>
    have hrest : hitsFrom x (position + 1) rest = hitsFrom y (position + 1) rest :=
      ih fun p hp => by
        rw [Nat.add_assoc, Nat.add_comm 1 p]
        exact h (p + 1) (Nat.succ_lt_succ hp)
    have hposition : x position = y position := h 0 (Nat.succ_pos _)
    rw [hitsFrom, hitsFrom, hposition, hrest]

/-- A number that is the same everywhere is the position of no two candidates, if doubles can tell
all positions apart. -/
theorem hitsFrom_eq_nil {z : Float} {q : Nat} (hq : 1 ≤ q) (hlt : q < position)
    (hz : (z == Number.ofNat q) = true) (hlength : position + nodes.length ≤ 2 ^ 53 + 1) :
    hitsFrom (fun _ => z) position nodes = [] := by
  induction nodes generalizing position with
  | nil => rfl
  | cons n rest ih =>
    rw [List.length_cons] at hlength
    rw [hitsFrom, if_neg, ih (by omega) (by omega)]
    -- `z` is the position `q` before these already, and it cannot be two positions.
    intro hposition
    have h₁ := ((Number.beq_ofNat_iff hq (by omega)).1 hz).2
    have h₂ := ((Number.beq_ofNat_iff (by omega) (by omega)).1 hposition).2
    omega

/-- The candidate whose position is a number, if there is one. -/
theorem hitsFrom_const {z : Float} (hposition : 1 ≤ position)
    (hlength : position + nodes.length ≤ 2 ^ 53 + 1) :
    hitsFrom (fun _ => z) position nodes =
      if Stage.isPosition z ∧ position ≤ Number.wholePart z then
        nodes[Number.wholePart z - position]?.toList else [] := by
  induction nodes generalizing position with
  | nil => simp [hitsFrom]
  | cons n rest ih =>
    rw [List.length_cons] at hlength
    have hiff := Number.beq_ofNat_iff (x := z) hposition (by omega)
    rw [hitsFrom]
    by_cases hz : (z == Number.ofNat position) = true
    · obtain ⟨hz', rfl⟩ := hiff.1 hz
      rw [if_pos hz, if_pos ⟨hz', le_refl _⟩, hitsFrom_eq_nil hposition (Nat.lt_succ_self _) hz
        (by omega)]
      simp
    · rw [if_neg hz, ih (by omega) (by omega)]
      have hne : Stage.isPosition z = true → Number.wholePart z ≠ position :=
        fun h he => hz (hiff.2 ⟨h, he⟩)
      by_cases hp : Stage.isPosition z = true ∧ position + 1 ≤ Number.wholePart z
      · rw [if_pos hp, if_pos ⟨hp.1, by omega⟩,
          show Number.wholePart z - position = Number.wholePart z - (position + 1) + 1 by omega]
        simp
      · rw [if_neg hp, if_neg]
        rintro ⟨h, hle⟩
        have := hne h
        exact hp ⟨h, by omega⟩

/-- The hits of a number that is the same at all candidates. -/
theorem nodes_hits_const {z : Float} (hx : ∀ p < S.nodes.length, x (p + 1) = z)
    (hlength : S.nodes.length ≤ 2 ^ 53) :
    (S.hits x).nodes =
      if Stage.isPosition z then S.nodes[Number.wholePart z - 1]?.toList else [] := by
  have hconst : hitsFrom x 1 S.nodes = hitsFrom (fun _ => z) 1 S.nodes :=
    hitsFrom_congr fun p hp => by rw [Nat.add_comm, hx p hp]
  rw [hits, hconst, hitsFrom_const (le_refl 1) (by omega)]
  by_cases hz : Stage.isPosition z = true
  · rw [if_pos hz, if_pos ⟨hz, Number.wholePart_pos hz⟩]
  · rw [if_neg hz, if_neg fun h => hz h.1]

/-- Such a number hits at most once. -/
theorem length_hits_le_one {z : Float} (hx : ∀ p < S.nodes.length, x (p + 1) = z)
    (hlength : S.nodes.length ≤ 2 ^ 53) : (S.hits x).nodes.length ≤ 1 := by
  rw [nodes_hits_const hx hlength]
  split
  · cases S.nodes[Number.wholePart z - 1]? <;> simp
  · simp

/-- With no more than one hit, the first hits are the hits. -/
theorem hits_begins_firstHit (h : (S.hits x).nodes.length ≤ 1) :
    (S.hits x).Begins (S.firstHit x) := by
  rw [firstHit, List.take_of_length_le h]
  cases hc : S.complete with
  | true => exact .inl (congrArg (Supply.mk _) hc)
  | false => exact .inr ⟨hc, List.prefix_refl _⟩

end Supply

/-! ### Numbers that are known -/

namespace Supply

variable {judge : Context → Eval Verdict} {size? : Option Nat} {complete : Bool} {position : Nat}
  {nodes : List Node} {x : Nat → Float}

/-- Where the position is compared with a number that is known, the hits are left. -/
theorem siftFrom_comparison (h : ∀ p n, nodes[p]? = some n →
      (judge (.known n (position + p) size?)).outcome =
        some (.ofBool (x (position + p) == Number.ofNat (position + p)))) :
    siftFrom judge size? complete position nodes = ⟨hitsFrom x position nodes, complete⟩ := by
  induction nodes generalizing position with
  | nil => rfl
  | cons n rest ih =>
    have hrest := @ih (position + 1) fun p m hm => by
      rw [Nat.add_right_comm]
      exact h (p + 1) m hm
    have hn := h 0 n rfl
    rw [Nat.add_zero] at hn
    rw [siftFrom, hn, hitsFrom, Verdict.ofBool]
    by_cases hx : (x position == Number.ofNat position) = true
    · rw [if_pos hx, if_pos hx]
      dsimp only
      rw [hrest]
      rfl
    · rw [if_neg hx, if_neg hx]
      exact hrest

/-- Where a predicate is a number that is known, the first hit is left. -/
theorem siftFrom_number (h : ∀ p n, nodes[p]? = some n →
      (judge (.known n (position + p) size?)).outcome =
        some (.ofValue (position + p) (.number (x (position + p))))) :
    siftFrom judge size? complete position nodes =
      ⟨(hitsFrom x position nodes).take 1, complete || !(hitsFrom x position nodes).isEmpty⟩ := by
  induction nodes generalizing position with
  | nil => simp [siftFrom, hitsFrom]
  | cons n rest ih =>
    have hrest := @ih (position + 1) fun p m hm => by
      rw [Nat.add_right_comm]
      exact h (p + 1) m hm
    have hn := h 0 n rfl
    rw [Nat.add_zero] at hn
    rw [siftFrom, hn, hitsFrom, Verdict.ofValue]
    by_cases hx : (x position == Number.ofNat position) = true
    · rw [if_pos hx, if_pos hx]
      simp
    · rw [if_neg hx, if_neg hx]
      exact hrest

theorem begins_complete (nodes : List Node) (complete : Bool) :
    Begins ⟨nodes, complete⟩ ⟨nodes, true⟩ := by
  cases complete with
  | false => exact .inr ⟨rfl, List.prefix_refl _⟩
  | true => exact begins_refl _

/-- Where no judgement can be made, nothing is left but the end of a list without nodes. -/
theorem siftFrom_none (h : ∀ n position, (judge (.known n position size?)).outcome = none) :
    siftFrom judge size? complete position nodes = ⟨[], complete && nodes.isEmpty⟩ := by
  cases nodes with
  | nil => simp [siftFrom]
  | cons n rest => simp [siftFrom, h]

end Supply

/-! ### What an action comes to -/

namespace Eval

variable {α β : Type} {x : Eval α} {f : α → Eval β}

/-- What comes after an action, if that comes to the same wherever it takes place. -/
theorem outcome_bind {g : α → Option β} (hf : ∀ a ∈ x.outcome, (f a).Comes (fun _ => True) (g a)) :
    (x >>= f : Eval β).outcome = x.outcome.bind g := by
  cases hx : x .start with
  | error e t =>
    rw [outcome, bind_of_error hx, outcome, hx]
    rfl
  | ok a t =>
    have ha : x.outcome = some a := by
      rw [outcome, hx]
    have hft := hf a ha t trivial
    rw [outcome, bind_of_ok hx, ha, Option.bind_some]
    cases hfa : f a t with
    | error e u =>
      rw [hfa] at hft
      exact hft.symm
    | ok b u =>
      rw [hfa] at hft
      exact hft.1.symm

theorem outcome_map (g : α → β) : Eval.outcome (do return g (← x)) = x.outcome.map g := by
  rw [Option.map_eq_bind]
  exact outcome_bind fun a _ => comes_pure (g a)

end Eval

/-! ### What expressions say about positions -/

/-- A call whose function is found. -/
theorem Meaning.value_call {i : Interpretation} {name : QName} {arguments : List Meaning}
    {c : Context} {f : Function} (h : i.library name i.setting c = some f) :
    (Meaning.call i name arguments).value c =
      f ⟨i.setting, c, arguments.map (·.toArgument), i.numberOf⟩ := by
  simp only [Meaning.call, Meaning.ofValue, h]

namespace Expr

/-- The expression `position()`. -/
def position : Expr := .call ⟨none, "position"⟩ []

/-- The expression `last()`. -/
def last : Expr := .call ⟨none, "last"⟩ []

/-- The expression `position() = e`. -/
def atPosition (e : Expr) : Expr := .compare .eq .position e

/-- At each candidate of a list the expression evaluates to the number that `x` has for its
position. -/
def Counts (i : Interpretation) (e : Expr) (x : Nat → Float) (S : Supply) : Prop :=
  ∀ p n, S.nodes[p]? = some n →
    ((e.meaning i).value (.known n (p + 1) S.size?)).outcome = some (.number (x (p + 1)))

/-- What an expression that evaluates to numbers leaves of a list as a predicate: the first hit.  A
literal that is no position does not look at the list at all. -/
def picked (e : Expr) (x : Nat → Float) (S : Supply) : Supply :=
  match e with
  | .number z => if Stage.isPosition z then S.firstHit x else ⟨[], true⟩
  | _ => S.firstHit x

variable {L : Library} {σ : Setting} {e : Expr} {x : Nat → Float} {S : Supply}

/-- Unless it is a literal, a predicate that evaluates to a number is judged by it. -/
theorem judges_number (he : ∀ z, e ≠ .number z) :
    ∃ judge, (e.meaning (.standard L σ)).predicate = .test judge ∧
      ∀ n position size? z,
        ((e.meaning (.standard L σ)).value (.known n position size?)).outcome = some (.number z) →
        (judge (.known n position size?)).outcome = some (.ofValue position (.number z)) := by
  cases e with
  | number z => exact (he z rfl).elim
  | path start steps =>
    -- A path has no number as its value.
    rw [meaning]
    refine ⟨_, rfl, fun n position size? z h => ?_⟩
    obtain ⟨found, -, hfound⟩ := Option.map_eq_some_iff.1
      ((Eval.outcome_map (fun found => Value.nodeSet ⟨found⟩)).symm.trans h)
    cases hfound
  | _ =>
    rw [meaning]
    exact ⟨_, rfl, fun n position size? z h =>
      (Eval.outcome_map _).trans (congrArg (Option.map _) h)⟩

theorem picked_of_ne (he : ∀ z, e ≠ .number z) : e.picked x S = S.firstHit x := by
  cases e with
  | number z => exact (he z rfl).elim
  | _ => rfl

/-- A literal evaluates to the same number at all candidates. -/
theorem Counts.literal {z : Float} (hx : (number z).Counts (.standard L σ) x S) :
    ∀ p < S.nodes.length, x (p + 1) = z := fun p hp =>
  (Value.number.inj (Option.some.inj (hx p _ (List.getElem?_eq_getElem hp)))).symm

/-- A number as a predicate leaves the first hit, also if it is a literal. -/
theorem sift_number (hx : e.Counts (.standard L σ) x S)
    (hliteral : ∀ z, e = .number z → S.nodes.length ≤ 2 ^ 53) :
    (e.meaning (.standard L σ)).predicate.sift S = e.picked x S := by
  by_cases he : ∃ z, e = .number z
  · obtain ⟨z, rfl⟩ := he
    show (Predicate.position z).sift S = _
    rw [picked]
    by_cases hz : Stage.isPosition z = true
    · rw [if_pos hz, Supply.firstHit, Supply.nodes_hits_const hx.literal (hliteral z rfl),
        if_pos hz]
      cases hn : S.nodes[Number.wholePart z - 1]? with
      | none =>
        rw [Predicate.sift_position_none hz hn]
        simp
      | some n =>
        rw [Predicate.sift_position_some hz hn]
        simp
    · rw [if_neg hz, Predicate.sift_position_of_not hz]
  · have he : ∀ z, e ≠ .number z := fun z h => he ⟨z, h⟩
    obtain ⟨judge, hjudge, hnumber⟩ := judges_number (L := L) (σ := σ) he
    rw [picked_of_ne he, hjudge, Predicate.sift, Supply.siftFrom_number (x := x)]
    · rfl
    · intro p n hn
      rw [Nat.add_comm]
      exact hnumber n (p + 1) S.size? _ (hx p n hn)

/-- A literal that is no position has no hits. -/
theorem picked_cases (hx : e.Counts (.standard L σ) x S)
    (hliteral : ∀ z, e = .number z → S.nodes.length ≤ 2 ^ 53) :
    e.picked x S = S.firstHit x ∨ (S.hits x).nodes = [] ∧ e.picked x S = ⟨[], true⟩ := by
  by_cases he : ∃ z, e = .number z
  · obtain ⟨z, rfl⟩ := he
    rw [picked]
    by_cases hz : Stage.isPosition z = true
    · exact .inl (if_pos hz)
    · rw [if_neg hz, Supply.nodes_hits_const hx.literal (hliteral z rfl), if_neg hz]
      exact .inr ⟨rfl, rfl⟩
  · exact .inl (picked_of_ne fun z h => he ⟨z, h⟩)

/-- What is left is the first hit. -/
theorem nodes_picked (hx : e.Counts (.standard L σ) x S)
    (hliteral : ∀ z, e = .number z → S.nodes.length ≤ 2 ^ 53) :
    (e.picked x S).nodes = (S.hits x).nodes.take 1 := by
  obtain h | ⟨hnone, h⟩ := picked_cases hx hliteral
  · rw [h, Supply.firstHit]
  · rw [h, hnone, List.take_nil]

/-- With no more than one hit, a number leaves no less than its comparison with the position. -/
theorem hits_begins_picked (hx : e.Counts (.standard L σ) x S)
    (hliteral : ∀ z, e = .number z → S.nodes.length ≤ 2 ^ 53)
    (h : (S.hits x).nodes.length ≤ 1) : (S.hits x).Begins (e.picked x S) := by
  obtain hpicked | ⟨hnone, hpicked⟩ := picked_cases hx hliteral
  · rw [hpicked]
    exact Supply.hits_begins_firstHit h
  · rw [hpicked, ← hnone]
    exact Supply.begins_complete _ _

variable (hposition : ∀ c, L ⟨none, "position"⟩ σ c = some Core.position)

include hposition

/-- The expression `position()` evaluates to the position. -/
theorem value_position (c : Context) :
    (position.meaning (.standard L σ)).value c = pure (.number (Number.ofNat c.position)) := by
  rw [position, meaning, meanings]
  exact Meaning.value_call (i := .standard L σ) (hposition c)

/-- A comparison with the position is judged by what it compares with. -/
theorem predicate_atPosition (e : Expr) :
    (e.atPosition.meaning (.standard L σ)).predicate =
      .test fun c => (e.meaning (.standard L σ)).value c >>= fun v => do
        return .ofBool (← Comparison.eq.holdsWith σ.view (Library.numberOf L σ c)
          (.number (Number.ofNat c.position)) v) := by
  rw [atPosition, meaning]
  refine congrArg Predicate.test (funext fun c => ?_)
  simp only [value_position hposition, pure_bind, bind_assoc]
  rfl

/-- Where an expression evaluates to numbers, its comparison with the position leaves the hits. -/
theorem sift_atPosition (hx : e.Counts (.standard L σ) x S) :
    (e.atPosition.meaning (.standard L σ)).predicate.sift S = S.hits x := by
  rw [predicate_atPosition hposition, Predicate.sift, Supply.siftFrom_comparison (x := x)]
  · rfl
  · intro p n hn
    rw [Nat.add_comm, Number.beq_comm]
    refine (Eval.outcome_bind (g := fun v => some (.ofBool
      (Number.ofNat (p + 1) == x (p + 1)))) fun v hv => ?_).trans ?_
    · rw [hx p n hn] at hv
      cases hv
      exact Eval.comes_pure _
    · rw [show ((e.meaning (.standard L σ)).value _).outcome = _ from hx p n hn]
      rfl

end Expr

end XPath
