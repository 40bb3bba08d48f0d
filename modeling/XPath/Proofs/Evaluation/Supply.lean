/-
What predicates leave of a list that may break off.

A list of candidates that is found on demand comes to its end, or it breaks off because something
fails.  What a predicate leaves of it is such a list again: it breaks off where the other one does
or where a judgement fails, but once the predicate has picked its candidate the list is at its end.
So it can be said without stages what a path leads to.

* `Supply` — the nodes of a list, which then ends or breaks off;
* `Supply.Begins` — a list that is another one, or breaks off in the course of it;
* `Predicate.sift`, `Supply.of` — what a predicate and several of them leave;
* `Supply.visit` — visiting the nodes of a list;
* `Path.followed`, `Path.selected` — what a path leads to, if it does not fail;
* `Predicate.sift_begins`, `Supply.sifted_begins` — of more candidates no less is left.
-/
import XPath.Proofs.Evaluation.Steadiness

namespace XPath

/-- The nodes of a list, which is complete or breaks off after them. -/
structure Supply where
  nodes : List Node
  complete : Bool
  deriving DecidableEq, Repr

/-! ### Lists that break off -/

namespace Supply

/-- The number of nodes, unless the list breaks off. -/
def size? (S : Supply) : Option Nat := if S.complete then some S.nodes.length else none

/-- A list after other nodes. -/
def prepend (before : List Node) (S : Supply) : Supply := ⟨before ++ S.nodes, S.complete⟩

/-- Whether a read up to an index, or of everything, does not get where the list breaks off. -/
def answers (S : Supply) : Option Nat → Bool
  | some i => S.complete || i < S.nodes.length
  | none => S.complete

/-- The list is the other one, or breaks off in the course of it. -/
def Begins (S T : Supply) : Prop := S = T ∨ S.complete = false ∧ S.nodes <+: T.nodes

variable {S T : Supply}

theorem begins_refl (S : Supply) : S.Begins S := .inl rfl

theorem brokenOff_begins (T : Supply) : Begins ⟨[], false⟩ T := .inr ⟨rfl, List.nil_prefix⟩

theorem prepend_prepend (xs ys : List Node) (S : Supply) :
    (S.prepend ys).prepend xs = S.prepend (xs ++ ys) := by
  simp [prepend]

theorem Begins.prepend (h : S.Begins T) (before : List Node) :
    (S.prepend before).Begins (T.prepend before) := by
  obtain rfl | ⟨hS, hprefix⟩ := h
  · exact begins_refl _
  · exact .inr ⟨hS, (List.prefix_append_right_inj before).2 hprefix⟩

/-- What judging the candidates one by one leaves of them.  The first one is at `position`. -/
def siftFrom (judge : Context → Eval Verdict) (size? : Option Nat) (complete : Bool) :
    Nat → List Node → Supply
  | _, [] => ⟨[], complete⟩
  | position, n :: rest =>
    match (judge (.known n position size?)).outcome with
    | none => ⟨[], false⟩
    | some .picked => ⟨[n], true⟩
    | some .kept => (siftFrom judge size? complete (position + 1) rest).prepend [n]
    | some .dropped => siftFrom judge size? complete (position + 1) rest

theorem siftFrom_begins {judge : Context → Eval Verdict} (hj : Steady judge)
    {nodes more : List Node} (h : nodes <+: more) (position : Nat) (size? : Option Nat)
    (complete : Bool) :
    (siftFrom judge none false position nodes).Begins
      (siftFrom judge size? complete position more) := by
  induction nodes generalizing position more with
  | nil => exact brokenOff_begins _
  | cons n rest ih =>
    obtain ⟨more, rfl, hrest⟩ := List.cons_prefix_iff.1 h
    rw [siftFrom, siftFrom]
    cases hv : (judge (.known n position none)).outcome with
    | none => exact brokenOff_begins _
    | some v =>
      -- The judgement says the same when the size can be had.
      have hv' : (judge (.known n position size?)).outcome = some v := hj.mono_of (by simp) hv
      rw [hv']
      cases v with
      | picked => exact begins_refl _
      | kept => exact (ih hrest (position + 1)).prepend [n]
      | dropped => exact ih hrest (position + 1)

theorem sublist_siftFrom (judge : Context → Eval Verdict) (size? : Option Nat) (complete : Bool)
    (position : Nat) (nodes : List Node) :
    (siftFrom judge size? complete position nodes).nodes.Sublist nodes := by
  induction nodes generalizing position with
  | nil => exact List.Sublist.refl _
  | cons n rest ih =>
    rw [siftFrom]
    split
    · exact List.nil_sublist _
    · exact List.singleton_sublist.2 List.mem_cons_self
    · exact (ih (position + 1)).cons_cons n
    · exact (ih (position + 1)).cons n

end Supply

/-- What a predicate leaves of a list.  A number literal looks only at its own position. -/
def Predicate.sift : Predicate → Supply → Supply
  | .position x, S =>
    if Stage.isPosition x then
      match S.nodes[Number.wholePart x - 1]? with
      | some n => ⟨[n], true⟩
      | none => ⟨[], S.complete⟩
    else ⟨[], true⟩
  | .test judge, S => Supply.siftFrom judge S.size? S.complete 1 S.nodes

section Literal

variable {x : Float} {S : Supply}

theorem Predicate.sift_position_none (hx : Stage.isPosition x = true)
    (h : S.nodes[Number.wholePart x - 1]? = none) :
    (Predicate.position x).sift S = ⟨[], S.complete⟩ := by
  simp only [sift, hx, if_true, h]

theorem Predicate.sift_position_some {n : Node} (hx : Stage.isPosition x = true)
    (h : S.nodes[Number.wholePart x - 1]? = some n) :
    (Predicate.position x).sift S = ⟨[n], true⟩ := by
  simp only [sift, hx, if_true, h]

/-- A number that is no position leaves nothing. -/
theorem Predicate.sift_position_of_not (hx : ¬ Stage.isPosition x = true) :
    (Predicate.position x).sift S = ⟨[], true⟩ := by
  rw [sift, if_neg hx]

end Literal

/-- Of less, a predicate leaves no more. -/
theorem Predicate.sift_begins {p : Predicate} (hp : p.Steady) {S T : Supply} (h : S.Begins T) :
    (p.sift S).Begins (p.sift T) := by
  obtain rfl | ⟨hS, hprefix⟩ := h
  · exact Supply.begins_refl _
  cases p with
  | position x =>
    by_cases hx : Stage.isPosition x = true
    · cases hn : S.nodes[Number.wholePart x - 1]? with
      | none =>
        rw [sift_position_none hx hn, hS]
        exact Supply.brokenOff_begins _
      | some n =>
        obtain ⟨hlt, rfl⟩ := List.getElem?_eq_some_iff.1 hn
        rw [sift_position_some hx hn,
          sift_position_some hx (List.prefix_iff_getElem?.1 hprefix _ hlt)]
        exact Supply.begins_refl _
    · rw [sift_position_of_not hx, sift_position_of_not hx]
      exact Supply.begins_refl _
  | test judge =>
    rw [sift, sift, Supply.size?, hS]
    exact Supply.siftFrom_begins hp hprefix 1 _ _

theorem Predicate.sublist_sift (p : Predicate) (S : Supply) : (p.sift S).nodes.Sublist S.nodes := by
  cases p with
  | position x =>
    by_cases hx : Stage.isPosition x = true
    · cases hn : S.nodes[Number.wholePart x - 1]? with
      | none =>
        rw [sift_position_none hx hn]
        exact List.nil_sublist _
      | some n =>
        rw [sift_position_some hx hn]
        exact List.singleton_sublist.2 (List.mem_of_getElem? hn)
    · rw [sift_position_of_not hx]
      exact List.nil_sublist _
  | test judge => exact Supply.sublist_siftFrom ..

namespace Supply

/-- What several predicates, last to first, leave of a list. -/
def sifted : List Predicate → Supply → Supply
  | [], S => S
  | p :: earlier, S => p.sift (sifted earlier S)

/-- What several predicates, last to first, leave of candidates that are all known. -/
def of (nodes : List Node) (ps : List Predicate) : Supply := sifted ps ⟨nodes, true⟩

theorem sifted_append (ps qs : List Predicate) (S : Supply) :
    sifted (ps ++ qs) S = sifted ps (sifted qs S) := by
  induction ps with
  | nil => rfl
  | cons p earlier ih => rw [List.cons_append, sifted, sifted, ih]

theorem sifted_begins {ps : List Predicate} (hp : ∀ p ∈ ps, p.Steady) {S T : Supply}
    (h : S.Begins T) : (sifted ps S).Begins (sifted ps T) := by
  induction ps with
  | nil => exact h
  | cons p earlier ih =>
    exact Predicate.sift_begins (hp p (by simp)) (ih fun q hq => hp q (by simp [hq]))

theorem sublist_of (nodes : List Node) (ps : List Predicate) :
    (of nodes ps).nodes.Sublist nodes := by
  induction ps with
  | nil => exact List.Sublist.refl _
  | cons p earlier ih => exact (Predicate.sublist_sift p _).trans ih

theorem length_of_le (nodes : List Node) (ps : List Predicate) :
    (of nodes ps).nodes.length ≤ nodes.length :=
  (sublist_of nodes ps).length_le

/-! ### Visiting -/

section Visit

variable {β : Type} (enough : β → Bool)

/-- Visits the nodes of a list until there is enough, and fails if the list breaks off before. -/
def visitFrom (visit : Node → β → Option β) (complete : Bool) : List Node → β → Option β
  | [], b => if enough b || complete then some b else none
  | n :: rest, b => if enough b then some b else (visit n b).bind (visitFrom visit complete rest)

def visit (S : Supply) (visit : Node → β → Option β) (b : β) : Option β :=
  visitFrom enough visit S.complete S.nodes b

end Visit

end Supply

/-! ### Paths -/

namespace Path

/-- What following steps from a node leads to. -/
def followed (once : Bool) : List Stride → Node → Progress → Option Progress
  | [], n, p => some { p with found := p.found ++ [n] }
  | stride :: rest, n, p =>
    let visit := fun m (p : Progress) =>
      if p.seen.contains (rest.length, m) then some p
      else followed once rest m { p with seen := (rest.length, m) :: p.seen }
    (Supply.of (stride.candidates n) stride.predicates).visit (Progress.enough once) visit p

/-- What following steps from all nodes that predicates keep leads to. -/
def collected (once : Bool) (nodes : List Node) (predicates : List Predicate)
    (strides : List Stride) : Option (List Node) :=
  ((Supply.of nodes predicates).visit (Progress.enough once) (followed once strides)
    ⟨[], []⟩).map (·.found)

/-- What making steps ready and following them leads to. -/
def selectedFrom (setting : Setting) (once : Bool) :
    List Node → List Predicate → List Stride → List (Step Meaning) → Option (List Node)
  | nodes, predicates, strides, [] => collected once nodes predicates strides
  | nodes, predicates, strides, step :: rest =>
    (Eval.ofExcept (Stride.ofStep setting step)).outcome.bind fun stride =>
      if step.axis.restoresOrder then
        (collected false nodes predicates (strides ++ [stride])).bind fun found =>
          selectedFrom setting once (setting.view.sort found) [] [] rest
      else selectedFrom setting once nodes predicates (strides ++ [stride]) rest

/-- The nodes and predicates that a filtered value starts a path with. -/
def startedBy (setting : Setting) (predicates : List Meaning) :
    Value → Option (List Node × List Predicate)
  | .nodeSet s => some ((s.sorted setting.view).nodes, (predicates.map (·.predicate)).reverse)
  | _ => none

/-- The nodes and predicates that a path starts with. -/
def started (setting : Setting) (c : Context) :
    Start Meaning → Option (List Node × List Predicate)
  | .root => some ([setting.root], [])
  | .context => some ([c.node], [])
  | .filter primary predicates => (primary.value c).outcome.bind (startedBy setting predicates)

/-- What a path leads to. -/
def selected (setting : Setting) (once : Bool) (start : Start Meaning)
    (steps : List (Step Meaning)) (c : Context) : Option (List Node) :=
  (started setting c start).bind fun r => selectedFrom setting once r.1 r.2 [] steps

end Path

end XPath
