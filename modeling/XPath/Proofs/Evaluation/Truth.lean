/-
The truth of an expression foretells its value.

Truth may be known before the value is: a path that has led to one node selects something,
whatever else it leads to.  Up to that node both evaluations do the same.  So the truth is that of
the value if there is one, fails only as the value does, and what it logs is logged by the value
as well, before anything else.

* `Cut` — what stopping at the first node changes about the result of following a path;
* `Path.cut_follow`, `Path.cut_selectFrom` — it changes no more about steps and paths;
* `Foreshadows` — what truth says about value;
* `foreshadows_truth` — truth says this about the value of every expression.
-/
import XPath.Proofs.Evaluation.Growth
import XPath.Tree.Sample

namespace XPath

/-- What may become of a run that is stopped at the first node found, if it is not: the same, or
it has found that node and goes on from there. -/
inductive Cut {α : Type} (R : State → State → Prop) (found : α → List Node) :
    EStateM.Result Error State α → EStateM.Result Error State α → Prop
  | same (r) : Cut R found r r
  | longer {a b : α} {t u : State} (hne : found a ≠ []) (h : found a <+: found b) (hR : R t u) :
      Cut R found (.ok a t) (.ok b u)
  | failed {a : α} {t u : State} {e : Error} (hne : found a ≠ []) (hR : R t u) :
      Cut R found (.ok a t) (.error e u)

/-- What comes before the runs that are compared is the same. -/
theorem Cut.bind {α β : Type} {R : State → State → Prop} {found : β → List Node} (x : Eval α)
    {f g : α → Eval β} {s : State}
    (h : ∀ a t, x s = .ok a t → Cut R found (f a t) (g a t)) :
    Cut R found ((x >>= f : Eval β) s) ((x >>= g : Eval β) s) := by
  show Cut R found (EStateM.bind x f s) (EStateM.bind x g s)
  rw [EStateM.bind, EStateM.bind]
  cases hx : x s with
  | error e t => exact .same _
  | ok a t => exact h a t hx

namespace Candidates

variable {β : Type} (nodes : List Node) {predicates : List Predicate} {enough : β → Bool}
  {visit : Node → β → Eval β}

/-- What is enough is left as it is. -/
theorem eachFrom_enough {b : β} (h : enough b = true) (fuel i : Nat) (stages : List Stage)
    (s : State) : eachFrom nodes predicates enough visit fuel i stages b s = .ok b s := by
  cases fuel with
  | zero => rfl
  | succ fuel => rw [eachFrom_succ, if_pos h]

/-- Visits that only add to a list add to it however many there are. -/
theorem ensures_eachFrom {found : β → List Node}
    (hv : ∀ n b, (visit n b).Ensures fun b' => found b <+: found b') (fuel i : Nat)
    (stages : List Stage) (b : β) :
    (eachFrom nodes predicates enough visit fuel i stages b).Ensures
      fun b' => found b <+: found b' := by
  intro s b' t h
  have hends : Ends (fun b' _ => found b <+: found b') (fun _ _ => True)
      (eachFrom nodes predicates enough visit fuel i stages b s) := by
    refine eachFrom_ends (W := fun _ _ _ b' _ => found b <+: found b') id (fun h _ => h)
      (fun {_ i stages b' s} h _ => ?_) (List.prefix_refl _)
    cases read nodes predicates (some i) ⟨s.log, stages⟩ with
    | error e u => trivial
    | ok kept u =>
      rw [ends_ok]
      cases kept[i]? with
      | none => exact h
      | some n =>
        dsimp only
        cases hn : visit n b' ⟨u.log, s.stages⟩ with
        | error e v => trivial
        | ok c v => exact h.trans (hv n b' hn)
  rw [h] at hends
  exact hends

end Candidates

namespace Path

variable {R : State → State → Prop} (hR : Eval.Course R)

theorem enough_true {p : Progress} : p.enough true = true ↔ p.found ≠ [] := by
  simp [Progress.enough]

include hR

/-- Visits that may be cut short make a walk that may be. -/
theorem cut_eachFrom (nodes : List Node) {predicates : List Predicate}
    (hp : Candidates.Reads R predicates) {visit visit' : Node → Progress → Eval Progress}
    (hcut : ∀ n p s, p.found = [] → Cut R Progress.found (visit n p s) (visit' n p s))
    (halong : ∀ n p, (visit' n p).Along R)
    (hfound : ∀ n p, (visit' n p).Ensures fun q => p.found <+: q.found)
    (fuel i : Nat) (stages : List Stage) {p : Progress} (hnone : p.found = []) (s : State) :
    Cut R Progress.found
      (Candidates.eachFrom nodes predicates (Progress.enough true) visit fuel i stages p s)
      (Candidates.eachFrom nodes predicates (Progress.enough false) visit' fuel i stages p s) := by
  -- Once something has been found the short walk is over, and the long one only adds to it.
  have stopped : ∀ {fuel i : Nat} {stages : List Stage} {q q' : Progress} {t t' : State},
      q.found ≠ [] → q.found <+: q'.found → R t t' →
      Cut R Progress.found
        (Candidates.eachFrom nodes predicates (Progress.enough true) visit fuel i stages q t)
        (Candidates.eachFrom nodes predicates (Progress.enough false) visit' fuel i stages q'
          t') := by
    intro fuel i stages q q' t t' hne hq ht
    rw [Candidates.eachFrom_enough nodes (enough_true.2 hne)]
    have ha := Candidates.eachFrom_along hR nodes hp (Progress.enough false) halong fuel i stages q'
    cases hr : Candidates.eachFrom nodes predicates (Progress.enough false) visit' fuel i stages q'
        t' with
    | error e u => exact .failed hne (hR.trans ht (ha.error hr))
    | ok r u =>
      exact .longer hne (hq.trans (Candidates.ensures_eachFrom nodes hfound _ _ _ _ hr))
        (hR.trans ht (ha.ok hr))
  induction fuel generalizing i stages p s with
  | zero => exact .same _
  | succ fuel ih =>
    rw [Candidates.eachFrom_succ, Candidates.eachFrom_succ, if_neg (by simp [enough_true, hnone]),
      if_neg (by simp [Progress.enough])]
    cases Stage.within stages (Candidates.read nodes predicates (some i)) s with
    | error e t => exact .same _
    | ok a t =>
      dsimp only
      cases a.1[i]? with
      | none => exact .same _
      | some n =>
        dsimp only
        -- Up to here both walks are the same; the visit may be the first to find something.
        have hn := hcut n p t hnone
        generalize visit n p t = r at hn
        generalize visit' n p t = r' at hn
        cases hn with
        | same r =>
          cases r with
          | error e u => exact .same _
          | ok q u =>
            by_cases hq : q.found = []
            · exact ih (i + 1) a.2 hq u
            · exact stopped hq (List.prefix_refl _) (hR.refl u)
        | longer hne h ht => exact stopped hne h ht
        | failed hne ht =>
          dsimp only
          rw [Candidates.eachFrom_enough nodes (enough_true.2 hne)]
          exact .failed hne ht

omit hR in
/-- Following a path to the end adds to what has been found. -/
theorem ensures_follow (once : Bool) (strides : List Stride) (n : Node) (p : Progress) :
    (follow once strides n p).Ensures fun q => p.found <+: q.found := by
  induction strides generalizing n p with
  | nil => exact Eval.ensures_pure (List.prefix_append _ _)
  | cons stride rest ih =>
    have hvisit : ∀ (m : Node) (p : Progress), Eval.Ensures (fun q => p.found <+: q.found)
        (if (rest.length, m) ∈ p.seen then pure p
          else follow once rest m { p with seen := (rest.length, m) :: p.seen }) := by
      intro m p
      split
      · exact Eval.ensures_pure (List.prefix_refl _)
      · exact ih m _
    exact Candidates.ensures_eachFrom _ hvisit _ _ _ _

/-- Stopping at the first node only cuts short how steps are followed. -/
theorem cut_follow {strides : List Stride}
    (h : ∀ s ∈ strides, Candidates.Reads R s.predicates) (n : Node) {p : Progress}
    (hnone : p.found = []) (s : State) :
    Cut R Progress.found (follow true strides n p s) (follow false strides n p s) := by
  induction strides generalizing n p s with
  | nil => exact .same _
  | cons stride rest ih =>
    have hrest : ∀ s ∈ rest, Candidates.Reads R s.predicates := fun s hs => h s (by simp [hs])
    rw [follow, follow]
    refine cut_eachFrom hR _ (h stride (by simp)) (fun m p s hnone => ?_) (fun m p => ?_)
      (fun m p => ?_) _ _ _ hnone s
    · split
      · exact .same _
      · exact ih hrest m (p := ⟨(rest.length, m) :: p.seen, p.found⟩) hnone s
    · split
      · exact hR.pure _
      · exact follow_along hR false hrest m _
    · split
      · exact Eval.ensures_pure (List.prefix_refl _)
      · exact ensures_follow false rest m _

theorem cut_collect (nodes : List Node) {predicates : List Predicate}
    (hp : Candidates.Reads R predicates) {strides : List Stride}
    (h : ∀ s ∈ strides, Candidates.Reads R s.predicates) (s : State) :
    Cut R id (collect true nodes predicates strides s)
      (collect false nodes predicates strides s) := by
  have hc : Cut R Progress.found
      (Candidates.each nodes predicates (Progress.enough true) (follow true strides) ⟨[], []⟩ s)
      (Candidates.each nodes predicates (Progress.enough false) (follow false strides) ⟨[], []⟩
        s) :=
    cut_eachFrom hR nodes hp (fun n p s hnone => cut_follow hR h n hnone s)
      (follow_along hR false h) (ensures_follow false strides) _ _ _ rfl s
  show Cut R id (EStateM.bind (Candidates.each nodes predicates (Progress.enough true)
      (follow true strides) ⟨[], []⟩) _ s)
    (EStateM.bind (Candidates.each nodes predicates (Progress.enough false)
      (follow false strides) ⟨[], []⟩) _ s)
  rw [EStateM.bind, EStateM.bind]
  generalize Candidates.each nodes predicates (Progress.enough true) (follow true strides)
    ⟨[], []⟩ s = r at hc
  generalize Candidates.each nodes predicates (Progress.enough false) (follow false strides)
    ⟨[], []⟩ s = r' at hc
  cases hc with
  | same r => exact .same _
  | longer hne h ht => exact .longer hne h ht
  | failed hne ht => exact .failed hne ht

theorem cut_selectFrom (σ : Setting) {steps : List (Step Meaning)}
    (hs : ∀ step ∈ steps, (Eval.ofExcept (Stride.ofStep σ step)).Ensures fun stride =>
      Candidates.Reads R stride.predicates)
    (nodes : List Node) {predicates : List Predicate} (hp : Candidates.Reads R predicates)
    {strides : List Stride} (h : ∀ s ∈ strides, Candidates.Reads R s.predicates) (s : State) :
    Cut R id (selectFrom σ true nodes predicates strides steps s)
      (selectFrom σ false nodes predicates strides steps s) := by
  induction steps generalizing nodes predicates strides s with
  | nil => exact cut_collect hR nodes hp h s
  | cons step rest ih =>
    have hrest : ∀ step ∈ rest, _ := fun step hm => hs step (by simp [hm])
    rw [selectFrom, selectFrom]
    -- Making a step ready is not cut short, nor is what a step needs that restores order.
    refine Cut.bind _ fun stride t ht => ?_
    have hstrides : ∀ s ∈ strides ++ [stride], Candidates.Reads R s.predicates := by
      simpa [or_imp, forall_and] using ⟨h, hs step (by simp) ht⟩
    by_cases ho : step.axis.restoresOrder = true
    · rw [if_pos ho, if_pos ho]
      exact Cut.bind _ fun found u _ => ih hrest _ (Candidates.reads_nil hR) (by simp) u
    · rw [if_neg ho, if_neg ho]
      exact ih hrest nodes hp hstrides t

end Path

/-! ### Truth and value -/

/-- How the results of looking for the truth and for the value belong together: they are the same,
or the truth is known while the value is still being looked for. -/
inductive Foretells :
    EStateM.Result Error State Bool → EStateM.Result Error State Value → Prop
  | same (v : Value) (t : State) : Foretells (.ok v.toBool t) (.ok v t)
  | error (e : Error) (t : State) : Foretells (.error e t) (.error e t)
  | early {v : Value} {t u : State} (hv : v.toBool = true) (hlog : t.log <:+ u.log) :
      Foretells (.ok true t) (.ok v u)
  | failed {e : Error} {t u : State} (hlog : t.log <:+ u.log) : Foretells (.ok true t) (.error e u)

/-- What the truth of an expression says about its value: the truth of a value is that of the
value, the truth fails as the value does, an expression that is false has a value that is, and
what is logged for the truth is what is logged first for the value. -/
structure Foreshadows (truth : Eval Bool) (value : Eval Value) : Prop where
  ok : ∀ {s v t}, value s = .ok v t → ∃ u, truth s = .ok v.toBool u
  error : ∀ {s e t}, truth s = .error e t → value s = .error e t
  false : ∀ {s t}, truth s = .ok false t → ∃ v, value s = .ok v t ∧ v.toBool = false
  log : ∀ s, (truth.after s).log <:+ (value.after s).log

/-- Results that belong together in every state make truth say this about value. -/
theorem Foretells.foreshadows {truth : Eval Bool} {value : Eval Value}
    (h : ∀ s, Foretells (truth s) (value s)) : Foreshadows truth value where
  ok {s v t} hv := by
    have hs := h s
    rw [hv] at hs
    generalize truth s = r at hs
    cases hs with
    | same => exact ⟨t, rfl⟩
    | early htrue _ => exact ⟨_, by rw [htrue]⟩
  error {s e t} ht := by
    have hs := h s
    rw [ht] at hs
    generalize value s = r at hs
    cases hs with
    | error => rfl
  false {s t} ht := by
    have hs := h s
    rw [ht] at hs
    generalize hb : false = b at hs
    generalize value s = r at hs
    cases hs with
    | same v => exact ⟨v, rfl, rfl⟩
    | early => cases hb
    | failed => cases hb
  log s := by
    have hs := h s
    rw [Eval.after, Eval.after]
    generalize truth s = r at hs
    generalize value s = r' at hs
    cases hs with
    | same => exact List.suffix_refl _
    | error => exact List.suffix_refl _
    | early _ hlog => exact hlog
    | failed hlog => exact hlog

/-- The truth that is found by way of the value. -/
theorem foreshadows_toBool (x : Eval Value) : Foreshadows (do return (← x).toBool) x := by
  refine Foretells.foreshadows fun s => ?_
  show Foretells (EStateM.bind x _ s) _
  rw [EStateM.bind]
  cases x s with
  | error e t => exact .error e t
  | ok v t => exact .same v t

/-- Whether a path selects anything says what it selects. -/
theorem Path.foreshadows_exists? {σ : Setting} {start start' : Start Meaning}
    {steps steps' : List (Step Meaning)} (hstart : (Accord.growth σ).Starts start start')
    (hsteps : List.Forall₂ (Accord.growth σ).Steps steps steps') (c : Context) :
    Foreshadows (exists? σ start steps c) (evaluate σ start steps c) := by
  refine Foretells.foreshadows fun s => ?_
  have hsteps : ∀ step ∈ steps, ∀ m ∈ step.predicates, m.predicate.Grows :=
    Accord.forall_mem_left hsteps fun _ _ h => Accord.Meanings.grows h.predicates
  have hcut : Cut (fun s t => s.log <:+ t.log) id (select σ true start steps c s)
      (select σ false start steps c s) :=
    Cut.bind _ fun _ t ht => cut_selectFrom Eval.course_log σ
      (fun step hstep _ _ _ h => Candidates.reads_log (ensures_ofStep σ (hsteps step hstep) h)) _
      (Candidates.reads_log (Accord.ensures_startNodes hstart c ht)) (by simp) t
  show Foretells (EStateM.bind (select σ true start steps c) _ s)
    (EStateM.bind (select σ false start steps c) _ s)
  rw [EStateM.bind, EStateM.bind]
  generalize select σ true start steps c s = r at hcut
  generalize select σ false start steps c s = r' at hcut
  have nonempty : ∀ {nodes : List Node}, nodes ≠ [] → (!nodes.isEmpty) = true := by simp
  cases hcut with
  | same r =>
    cases r with
    | error e t => exact .error e t
    | ok nodes t => exact .same (.nodeSet ⟨nodes⟩) t
  | @longer a b t u hne hfound hlog =>
    -- Stopping early has found a node, and the long walk has found it as well.
    have hb : b ≠ [] := fun h => hne (List.prefix_nil.1 (h ▸ hfound))
    show Foretells (.ok (!a.isEmpty) t) (.ok (.nodeSet ⟨b⟩) u)
    rw [show (!a.isEmpty) = true from nonempty hne]
    exact .early (nonempty hb) hlog
  | @failed a t u e hne hlog =>
    show Foretells (.ok (!a.isEmpty) t) (.error e u)
    rw [show (!a.isEmpty) = true from nonempty hne]
    exact .failed hlog

/-- In a library that grows, the truth of an expression says this about its value. -/
theorem foreshadows_truth {L : Library} (h : L.Grows) (σ : Setting) (e : Expr) (c : Context) :
    Foreshadows ((e.meaning (.standard L σ)).truth c) ((e.meaning (.standard L σ)).value c) := by
  cases e with
  | path start steps =>
    have hi := Accord.interpretations_growth (σ := σ) h
    exact Path.foreshadows_exists? (Accord.starts_startMeaning hi start)
      (Accord.steps_stepMeanings hi steps) c
  | _ => exact foreshadows_toBool _

/-- The truth of an expression, whatever its library computes or logs, says this about its value,
and so it does when the calls of functions are logged: those made for the truth are the first of
those made for the value, by name and context.  Of a path it says whether anything is selected. -/
theorem truth_foretells_value {L : Library} (h : L.Grows) (line : QName → Context → String)
    (σ : Setting) (c : Context) :
    (∀ e : Expr, Foreshadows ((e.meaning (.standard L σ)).truth c)
      ((e.meaning (.standard L σ)).value c)) ∧
    (∀ e : Expr, Foreshadows ((e.meaning (.standard (L.recorded line) σ)).truth c)
      ((e.meaning (.standard (L.recorded line) σ)).value c)) ∧
    ∀ (start : Start Expr) (steps : List (Step Expr)) {s t : State} {nodes : List Node},
      Path.select σ false (Expr.startMeaning (.standard L σ) start)
        (Expr.stepMeanings (.standard L σ) steps) c s = .ok nodes t →
      ∃ u, Path.exists? σ (Expr.startMeaning (.standard L σ) start)
        (Expr.stepMeanings (.standard L σ) steps) c s = .ok (!nodes.isEmpty) u := by
  refine ⟨fun e => foreshadows_truth h σ e c,
    fun e => foreshadows_truth (h.recorded line) σ e c, fun start steps s t nodes hs => ?_⟩
  refine (foreshadows_truth h σ (.path start steps) c).ok (v := .nodeSet ⟨nodes⟩) (t := t) ?_
  show EStateM.bind (Path.select σ false _ _ c) _ s = _
  rw [EStateM.bind, hs]
  rfl

/-- The core functions forget no line.  By its first child the document of the sample has children
that `true()` keeps. -/
theorem truth_foretells_value_sample :
    Registry.core.library.Grows ∧
    ∃ u, Path.exists? (.ofTree .sample)
      .context (Expr.stepMeanings (.standard Registry.core.library (.ofTree .sample))
        [⟨.child, .wildcard, [.call ⟨none, "true"⟩ []]⟩]) (.alone ⟨0, 0⟩) .start = .ok true u := by
  have hselect : Path.select (.ofTree .sample) false
      .context (Expr.stepMeanings (.standard Registry.core.library (.ofTree .sample))
        [⟨.child, .wildcard, [.call ⟨none, "true"⟩ []]⟩]) (.alone ⟨0, 0⟩) .start =
      .ok [⟨0, 1⟩, ⟨0, 6⟩, ⟨0, 8⟩] .start := by cbv
  exact ⟨Registry.grows_core, (truth_foretells_value Registry.grows_core (fun _ _ => "")
    (.ofTree .sample) (.alone ⟨0, 0⟩)).2.2 .context _ hselect⟩

end XPath
