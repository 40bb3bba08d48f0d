/-
Stages at work, as equations.

A stage works on a state whose nearest stage is its own, and everything that it asks for before
it can answer is run on the stages before it.  Here the actions of a stage are written out as
functions of that state, so that what is proved about them later needs no unfolding of sequences
of actions.

* `Eval.after`, `Eval.Along`, `Eval.Ensures` — where an action leads and what it gives;
* `Predicate.pullPosition_cons`, `Predicate.pullNext_cons` — one more candidate is asked for;
* `Stage.fill_succ` — one more round of a read;
* `Candidates.read_cons` — a read of what the last predicate keeps;
* `Candidates.eachFrom_succ` — one more kept candidate is visited;
* `Stride.ofStep_eq` — what a step has to do with its predicates.
-/
import Mathlib
import XPath.Evaluation.Path

namespace XPath

/-! ### Where actions lead -/

namespace Eval

variable {α β : Type}

/-- The state that an action leaves behind, whether it fails or not. -/
def after (x : Eval α) (s : State) : State :=
  match x s with
  | .ok _ t => t
  | .error _ t => t

/-- A relation between states along which actions can be put together. -/
structure Course (R : State → State → Prop) : Prop where
  refl : ∀ s, R s s
  trans : ∀ {s t u}, R s t → R t u → R s u

/-- An action that relates the state before it to the one it leaves behind. -/
def Along (R : State → State → Prop) (x : Eval α) : Prop := ∀ s, R s (x.after s)

/-- An action all of whose results satisfy a predicate. -/
def Ensures (P : α → Prop) (x : Eval α) : Prop := ∀ ⦃s a t⦄, x s = .ok a t → P a

theorem bind_of_ok {x : Eval α} {f : α → Eval β} {s t : State} {a : α} (h : x s = .ok a t) :
    (x >>= f) s = f a t := by
  show EStateM.bind x f s = _
  rw [EStateM.bind, h]

theorem bind_of_error {x : Eval α} {f : α → Eval β} {s t : State} {e : Error}
    (h : x s = .error e t) : (x >>= f) s = .error e t := by
  show EStateM.bind x f s = _
  rw [EStateM.bind, h]

theorem after_ok {x : Eval α} {s t : State} {a : α} (h : x s = .ok a t) : x.after s = t := by
  rw [after, h]

theorem after_error {x : Eval α} {s t : State} {e : Error} (h : x s = .error e t) :
    x.after s = t := by
  rw [after, h]

theorem Along.ok {R : State → State → Prop} {x : Eval α} (h : x.Along R) {s t : State} {a : α}
    (hx : x s = .ok a t) : R s t := after_ok hx ▸ h s

theorem Along.error {R : State → State → Prop} {x : Eval α} (h : x.Along R) {s t : State}
    {e : Error} (hx : x s = .error e t) : R s t := after_error hx ▸ h s

theorem Course.pure {R : State → State → Prop} (hR : Course R) (a : α) :
    (Pure.pure a : Eval α).Along R := fun s => hR.refl s

/-- An action put together from two leads where they lead. -/
theorem Course.bind {R : State → State → Prop} (hR : Course R) {x : Eval α} {f : α → Eval β}
    {P : α → Prop} (hx : x.Along R) (hP : x.Ensures P) (hf : ∀ a, P a → (f a).Along R) :
    (x >>= f : Eval β).Along R := by
  intro s
  show R s (after (EStateM.bind x f) s)
  rw [after, EStateM.bind]
  cases h : x s with
  | error e t => exact hx.error h
  | ok a t => exact hR.trans (hx.ok h) (hf a (hP h) t)

/-- Leaving the stages alone. -/
theorem course_stages : Course fun s t => s.stages = t.stages := ⟨fun _ => rfl, Eq.trans⟩

theorem ensures_true (x : Eval α) : x.Ensures fun _ => True := fun _ _ _ _ => trivial

theorem ensures_pure {P : α → Prop} {a : α} (h : P a) : (pure a : Eval α).Ensures P := by
  rintro s b t ⟨⟩
  exact h

theorem ensures_bind {x : Eval α} {f : α → Eval β} {P : α → Prop} {Q : β → Prop}
    (hx : x.Ensures P) (hf : ∀ a, P a → (f a).Ensures Q) : (x >>= f : Eval β).Ensures Q := by
  intro s b t h
  change EStateM.bind x f s = _ at h
  rw [EStateM.bind] at h
  cases hxs : x s with
  | error e u => rw [hxs] at h; cases h
  | ok a u => rw [hxs] at h; exact hf a (hx hxs) h

end Eval

/-! ### Changes of a stage -/

namespace Stage

/-- A stage that has tried in vain to take a candidate. -/
def attempted (stage : Stage) : Stage := { stage with tried := stage.tried + 1 }

/-- A stage that has taken one more candidate. -/
def advanced (stage : Stage) : Stage :=
  { stage with taken := stage.taken + 1, tried := stage.tried + 1 }

/-- A stage that wants no more. -/
def shut (stage : Stage) : Stage := { stage with closed := true }

/-- A stage with another memory. -/
def remember (q : Sequence) (stage : Stage) : Stage := { stage with kept := q }

/-- A stage starts out idle. -/
theorem busy_initial (p : Predicate) : (initial p).kept.busy = false := by
  cases p with
  | position x =>
    rw [initial]
    dsimp only
    split <;> rfl
  | test judge => rfl

theorem nearest_cons (log : List String) (stage : Stage) (rest : List Stage) :
    nearest ⟨log, stage :: rest⟩ = stage := rfl

theorem before_cons {α : Type} (x : Eval α) (log : List String) (stage : Stage)
    (rest : List Stage) :
    before x ⟨log, stage :: rest⟩ =
      match x ⟨log, rest⟩ with
      | .ok a t => .ok a ⟨t.log, stage :: t.stages⟩
      | .error e t => .error e ⟨t.log, stage :: t.stages⟩ := rfl

theorem within_apply {α : Type} (stages : List Stage) (x : Eval α) (s : State) :
    within stages x s =
      match x ⟨s.log, stages⟩ with
      | .ok a t => .ok (a, t.stages) ⟨t.log, s.stages⟩
      | .error e t => .error e ⟨t.log, s.stages⟩ := rfl

/-- What is run on other stages leaves the stages around it alone. -/
theorem within_stages {α : Type} (stages : List Stage) (x : Eval α) :
    (within stages x).Along fun s t => s.stages = t.stages := by
  intro s
  rw [Eval.after, within_apply]
  cases x ⟨s.log, stages⟩ <;> rfl

/-! ### Reads -/

/-- A read that memory answers asks for nothing. -/
theorem fill_of_answers {pull : Eval Pull} {stop : Option Nat} {s : State}
    (h : (place.get s).answers stop = true) (fuel : Nat) :
    place.fill pull stop fuel s = .ok () s := by
  cases fuel with
  | zero => rfl
  | succ fuel =>
    rw [Place.fill]
    exact if_pos h

/-- A stage that is at work is not asked again. -/
theorem fill_of_busy {pull : Eval Pull} {stop : Option Nat} {s : State}
    (h : (place.get s).answers stop = false) (hb : (place.get s).busy = true) (fuel : Nat) :
    place.fill pull stop (fuel + 1) s = .error Sequence.outOfTurn s := by
  rw [Place.fill]
  show (if (place.get s).answers stop then _ else if (place.get s).busy then _ else _) = _
  rw [if_neg (by simp [h]), if_pos hb]

/-- One round of a read: the stage is asked once, and the read goes on with what has become of
it. -/
theorem fill_succ (pull : Eval Pull) (stop : Option Nat) (log : List String) (stage : Stage)
    (rest : List Stage) (h : stage.kept.answers stop = false) (hb : stage.kept.busy = false)
    (fuel : Nat) :
    place.fill pull stop (fuel + 1) ⟨log, stage :: rest⟩ =
      match pull ⟨log, stage.remember stage.kept.occupied :: rest⟩ with
      | .ok (.node n) t =>
        place.fill pull stop fuel (place.set t ((place.get t).extended n))
      | .ok .nothing t => place.fill pull stop fuel (place.set t (place.get t).released)
      | .ok .finished t => .ok () (place.set t (place.get t).ended)
      | .error e t => .error e (place.set t (place.get t).released) := by
  rw [Place.fill]
  show (if stage.kept.answers stop then _ else if stage.kept.busy then _ else _) = _
  rw [if_neg (by simp [h]), if_neg (by simp [hb])]
  rw [show place.set ⟨log, stage :: rest⟩ (place.get ⟨log, stage :: rest⟩).occupied =
    ⟨log, stage.remember stage.kept.occupied :: rest⟩ from rfl]
  rcases pull ⟨log, stage.remember stage.kept.occupied :: rest⟩ with ⟨_ | _ | _, _⟩ | ⟨_, _⟩ <;> rfl

end Stage

/-! ### One more candidate -/

namespace Predicate

variable (read : Option Nat → Eval (List Node)) (log : List String) (stage : Stage)
  (rest : List Stage)

/-- Counts the candidates that a stage takes from. -/
def size (read : Option Nat → Eval (List Node)) : Eval Nat := do return (← read none).length

theorem pullPosition_cons (x : Float) :
    pullPosition read x ⟨log, stage :: rest⟩ =
      if stage.closed then .ok .finished ⟨log, stage :: rest⟩
      else
        match read (some (Number.wholePart x - 1)) ⟨log, rest⟩ with
        | .error e t => .error e ⟨t.log, stage.shut :: t.stages⟩
        | .ok candidates t =>
          match candidates[Number.wholePart x - 1]? with
          | some n => .ok (.node n) ⟨t.log, stage.shut :: t.stages⟩
          | none => .ok .finished ⟨t.log, stage.shut :: t.stages⟩ := by
  unfold pullPosition
  cases hc : stage.closed with
  | true => simp [bind, EStateM.bind, get, getThe, MonadStateOf.get, EStateM.get, hc,
      Stage.nearest, pure, EStateM.pure]
  | false =>
    show (if stage.closed = true then _ else _ : Eval Pull) ⟨log, stage :: rest⟩ = _
    rw [hc, if_neg (by simp), if_neg (by simp)]
    show EStateM.bind (Stage.before (read (some (Number.wholePart x - 1)))) _
      ⟨log, stage.shut :: rest⟩ = _
    rw [EStateM.bind, Stage.before_cons]
    cases read (some (Number.wholePart x - 1)) ⟨log, rest⟩ with
    | error e t => rfl
    | ok candidates t =>
      dsimp only
      cases candidates[Number.wholePart x - 1]? <;> rfl

theorem pullNext_cons (judge : Context → Eval Verdict) :
    pullNext read judge ⟨log, stage :: rest⟩ =
      match read (some stage.taken) ⟨log, rest⟩ with
      | .error e t =>
        if stage.closed then .ok .finished ⟨t.log, stage.attempted :: t.stages⟩
        else .error e ⟨t.log, stage.attempted :: t.stages⟩
      | .ok candidates t =>
        match candidates[stage.taken]? with
        | none => .ok .finished ⟨t.log, stage :: t.stages⟩
        | some n =>
          if stage.closed then .ok .finished ⟨t.log, stage.advanced :: t.stages⟩
          else
            match judge ⟨n, stage.tried + 1, size read⟩ t with
            | .error e u => .error e ⟨u.log, stage.advanced :: u.stages⟩
            | .ok .picked u => .ok (.node n) ⟨u.log, stage.advanced.shut :: u.stages⟩
            | .ok .kept u => .ok (.node n) ⟨u.log, stage.advanced :: u.stages⟩
            | .ok .dropped u => .ok .nothing ⟨u.log, stage.advanced :: u.stages⟩ := by
  simp only [pullNext, bind, EStateM.bind, get, getThe, MonadStateOf.get, EStateM.get, tryCatch,
    tryCatchThe, MonadExceptOf.tryCatch, EStateM.tryCatch, Stage.nearest_cons, Stage.before_cons]
  cases read (some stage.taken) ⟨log, rest⟩ with
  | error e t =>
    dsimp only
    obtain ⟨kept, taken, tried, closed⟩ := stage
    cases closed <;> rfl
  | ok candidates t =>
    show (match candidates[stage.taken]? with | none => pure .finished | some n => _ : Eval Pull)
      ⟨t.log, stage :: t.stages⟩ = _
    dsimp only
    cases candidates[stage.taken]? with
    | none => rfl
    | some n =>
      -- The update before the judgement is the same for every stage once it is taken apart.
      obtain ⟨kept, taken, tried, closed⟩ := stage
      cases closed with
      | true => rfl
      | false =>
        show EStateM.bind (Stage.before (judge ⟨n, tried + 1, size read⟩)) _
          ⟨t.log, Stage.advanced ⟨kept, taken, tried, false⟩ :: t.stages⟩ = _
        rw [EStateM.bind, Stage.before_cons]
        dsimp only
        rw [if_neg (by simp)]
        rcases judge ⟨n, tried + 1, size read⟩ ⟨t.log, t.stages⟩ with
          ⟨_ | _ | _, _⟩ | ⟨_, _⟩ <;> rfl

end Predicate

/-! ### Reading and visiting -/

namespace Candidates

theorem read_cons (nodes : List Node) (p : Predicate) (earlier : List Predicate)
    (stop : Option Nat) (s : State) :
    read nodes (p :: earlier) stop s =
      match Stage.place.fill (p.pull (read nodes earlier)) stop (nodes.length + 1) s with
      | .ok () t => .ok (Stage.nearest t).kept.found t
      | .error e t => .error e t := by
  show EStateM.bind (Stage.place.fill (p.pull (read nodes earlier)) stop (nodes.length + 1)) _ s = _
  rw [EStateM.bind]
  cases Stage.place.fill (p.pull (read nodes earlier)) stop (nodes.length + 1) s <;> rfl

theorem eachFrom_succ {β : Type} (nodes : List Node) (predicates : List Predicate)
    (enough : β → Bool) (visit : Node → β → Eval β) (fuel i : Nat) (stages : List Stage) (b : β)
    (s : State) :
    eachFrom nodes predicates enough visit (fuel + 1) i stages b s =
      if enough b then .ok b s
      else
        match Stage.within stages (read nodes predicates (some i)) s with
        | .error e t => .error e t
        | .ok (kept, stages) t =>
          match kept[i]? with
          | none => .ok b t
          | some n =>
            match visit n b t with
            | .error e u => .error e u
            | .ok b u => eachFrom nodes predicates enough visit fuel (i + 1) stages b u := by
  rw [eachFrom]
  by_cases h : enough b = true
  · rw [if_pos h, if_pos h]
    rfl
  · rw [if_neg h, if_neg h]
    show EStateM.bind (Stage.within stages (read nodes predicates (some i))) _ s = _
    rw [EStateM.bind]
    cases Stage.within stages (read nodes predicates (some i)) s with
    | error e t => rfl
    | ok a t =>
      obtain ⟨kept, later⟩ := a
      dsimp only
      cases kept[i]? with
      | none => rfl
      | some n =>
        show EStateM.bind (visit n b) _ t = _
        rw [EStateM.bind]
        dsimp only
        cases visit n b t <;> rfl

end Candidates

/-! ### Steps -/

/-- The predicates of a step come last to first, and its candidates do not depend on them. -/
theorem Stride.ofStep_eq (σ : Setting) (axis : Axis) (test : NodeTest) (ms : List Meaning) :
    ofStep σ ⟨axis, test, ms⟩ = (ofStep σ ⟨axis, test, []⟩).map fun stride =>
      { stride with predicates := (ms.map (·.predicate)).reverse } := by
  unfold ofStep
  cases test.uri axis σ.namespaces <;> rfl

theorem Stride.predicates_ofStep {σ : Setting} {step : Step Meaning} {stride : Stride}
    (h : ofStep σ step = .ok stride) :
    stride.predicates = (step.predicates.map (·.predicate)).reverse := by
  obtain ⟨axis, test, ms⟩ := step
  rw [ofStep_eq] at h
  cases hs : ofStep σ ⟨axis, test, []⟩ with
  | error e =>
    rw [hs] at h
    cases h
  | ok s =>
    rw [hs] at h
    cases h
    rfl

/-- What holds of predicates holds of them last to first. -/
theorem Meaning.forall_reverse {P : Predicate → Prop} {ms : List Meaning}
    (h : ∀ m ∈ ms, P m.predicate) : ∀ p ∈ (ms.map (·.predicate)).reverse, P p := by
  simpa using h

end XPath
