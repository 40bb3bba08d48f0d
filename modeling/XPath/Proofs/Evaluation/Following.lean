/-
Following steps in depth and level by level.

The engine takes a node through all steps before it asks for the next one, and remembers which
nodes each step has passed on.  The plain reading takes all nodes through a step before the next
step, and keeps first occurrences.  Both arrive at the same nodes in the same order.  This is shown
first for steps that are known as functions from nodes to lists, then for steps whose candidates
are read as they are needed.

* `Path.descend`, `Path.levels` — the two ways of following, for known steps;
* `Path.found_descend` — they arrive at the same nodes;
* `Path.Covers` — what the plain reading knows about the steps from a node;
* `Path.settles_follow`, `Path.settles_selectFrom`, `Path.settles_select` — the engine settles on
  what the plain reading yields;
* `Path.settles_exists?` — and so it does if it stops at the first node.
-/
import XPath.Proofs.Evaluation.Reading
import XPath.Proofs.Evaluation.Truth

namespace XPath

namespace Path

/-! ### Known steps -/

/-- Follows steps from a node, each given by the nodes it leads to, one node after the other. -/
def descend : List (Node → List Node) → Node → Progress → Progress
  | [], n, p => { p with found := p.found ++ [n] }
  | leads :: rest, n, p =>
    (leads n).foldl (fun p m =>
      if p.seen.contains (rest.length, m) then p
      else descend rest m { p with seen := (rest.length, m) :: p.seen }) p

theorem descend_cons (leads : Node → List Node) (rest : List (Node → List Node)) (n : Node)
    (p : Progress) :
    descend (leads :: rest) n p = (leads n).foldl (fun p m =>
      if (rest.length, m) ∈ p.seen then p
      else descend rest m { p with seen := (rest.length, m) :: p.seen }) p := by
  simp only [descend, List.contains_iff_mem]

/-- Follows steps from all nodes of a list, one step after the other. -/
def levels : List (Node → List Node) → List Node → List Node
  | [], nodes => nodes
  | leads :: rest, nodes => levels rest (firstOccurrences (nodes.flatMap leads))

theorem levels_append (steps : List (Node → List Node)) (leads : Node → List Node)
    (nodes : List Node) :
    levels (steps ++ [leads]) nodes = firstOccurrences ((levels steps nodes).flatMap leads) := by
  induction steps generalizing nodes with
  | nil => rfl
  | cons first rest ih => exact ih _

/-- Progress that differs only in what has been seen with at least `k` steps left. -/
structure Progress.Agree (k : Nat) (p q : Progress) : Prop where
  found : p.found = q.found
  seen : ∀ j < k, ∀ m, (j, m) ∈ p.seen ↔ (j, m) ∈ q.seen

theorem Progress.Agree.push {k : Nat} {p q : Progress} (h : p.Agree k q) (j : Nat) (m : Node) :
    Progress.Agree k { p with seen := (j, m) :: p.seen } { q with seen := (j, m) :: q.seen } := by
  refine ⟨h.found, fun i hi n => ?_⟩
  rw [List.mem_cons, List.mem_cons, h.seen i hi n]

/-- Following steps looks only at what has been seen in them. -/
theorem agree_descend {steps : List (Node → List Node)} {k : Nat} (hk : steps.length ≤ k) (n : Node)
    {p q : Progress} (h : p.Agree k q) : (descend steps n p).Agree k (descend steps n q) := by
  induction steps generalizing n p q with
  | nil => exact ⟨by simp [descend, h.found], h.seen⟩
  | cons leads rest ih =>
    rw [descend_cons, descend_cons]
    rw [List.length_cons] at hk
    -- Which nodes the step leads to no longer matters; both passes go through the same ones.
    generalize leads n = ms
    induction ms generalizing p q with
    | nil => exact h
    | cons m ms ihm =>
      rw [List.foldl_cons, List.foldl_cons]
      refine ihm ?_
      by_cases hm : (rest.length, m) ∈ p.seen
      · rwa [if_pos hm, if_pos ((h.seen _ (by omega) m).1 hm)]
      · rw [if_neg hm, if_neg (fun hq => hm ((h.seen _ (by omega) m).2 hq))]
        exact ih (by omega) m (h.push _ m)

/-- Following steps marks nothing as seen outside of them. -/
theorem mem_seen_descend {steps : List (Node → List Node)} {k : Nat} (hk : steps.length ≤ k)
    (n m : Node) (p : Progress) : (k, m) ∈ (descend steps n p).seen ↔ (k, m) ∈ p.seen := by
  induction steps generalizing n p with
  | nil => rfl
  | cons leads rest ih =>
    rw [descend_cons]
    rw [List.length_cons] at hk
    generalize leads n = ms
    induction ms generalizing p with
    | nil => rfl
    | cons l ms ihm =>
      rw [List.foldl_cons, ihm]
      split
      · rfl
      · rw [ih (by omega), List.mem_cons]
        simp
        omega

/-- Passing on the nodes that have not been seen is passing on first occurrences. -/
theorem agree_foldl_occurrences (rest : List (Node → List Node)) (xs seen : List Node)
    {p q : Progress} (h : p.Agree rest.length q)
    (hseen : ∀ m, (rest.length, m) ∈ p.seen ↔ m ∈ seen) :
    Progress.Agree rest.length
      (xs.foldl (fun p m =>
        if (rest.length, m) ∈ p.seen then p
        else descend rest m { p with seen := (rest.length, m) :: p.seen }) p)
      ((occurrencesAfter seen xs).foldl (fun p m => descend rest m p) q) := by
  induction xs generalizing p q seen with
  | nil => exact h
  | cons x xs ih =>
    rw [List.foldl_cons, occurrencesAfter]
    by_cases hx : x ∈ seen
    · rw [if_pos hx, if_pos ((hseen x).2 hx)]
      exact ih seen h hseen
    · rw [if_neg hx, if_neg (fun hp => hx ((hseen x).1 hp)), List.foldl_cons]
      -- The mark for `x` has `rest.length` steps left, which following `rest` does not look at.
      refine ih (x :: seen) (agree_descend (le_refl _) x ⟨h.found, fun j hj m => ?_⟩) fun m => ?_
      · rw [List.mem_cons, h.seen j hj m]
        simp
        omega
      · rw [mem_seen_descend (le_refl _), List.mem_cons, List.mem_cons, hseen m]
        simp

/-- Following steps in depth arrives at the nodes that following them level by level arrives at. -/
theorem found_descend (steps : List (Node → List Node)) (nodes : List Node) {p : Progress}
    (h : ∀ j < steps.length, ∀ m, (j, m) ∉ p.seen) :
    (nodes.foldl (fun p n => descend steps n p) p).found = p.found ++ levels steps nodes := by
  induction steps generalizing nodes p with
  | nil =>
    rw [levels]
    induction nodes generalizing p with
    | nil => simp
    | cons n rest ih => rw [List.foldl_cons, ih (by simp)]; simp [descend]
  | cons leads rest ih =>
    rw [levels, ← ih (firstOccurrences (nodes.flatMap leads)) fun j hj m => h j (by simp; omega) m]
    -- All nodes share one pass over what the first step leads to, as the marks are kept throughout.
    have hagree := agree_foldl_occurrences rest (nodes.flatMap leads) [] (p := p) (q := p)
      ⟨rfl, fun _ _ _ => Iff.rfl⟩ fun m => by simpa using h rest.length (by simp) m
    rw [List.foldl_flatMap] at hagree
    simp only [descend_cons]
    exact hagree.found

/-! ### Steps that are read -/

/-- The plain reading knows where the strides lead from a node: it yields the nodes that each of
them leads to from all that those before it lead to. -/
def Covers : List (Node → List Node) → List Stride → Node → Prop
  | leads :: steps, stride :: strides, n =>
    (Eager.survivors stride.predicates.reverse (stride.candidates n)).Yields (leads n) ∧
      ∀ m ∈ leads n, Covers steps strides m
  | _, _, _ => True

/-- What is known of the strides so far and of one more is known of all of them. -/
theorem covers_append {steps : List (Node → List Node)} {strides : List Stride}
    (hlen : steps.length = strides.length) {nodes : List Node}
    (h : ∀ n ∈ nodes, Covers steps strides n) {leads : Node → List Node} {stride : Stride}
    (hleads : ∀ m ∈ levels steps nodes,
      (Eager.survivors stride.predicates.reverse (stride.candidates m)).Yields (leads m)) :
    ∀ n ∈ nodes, Covers (steps ++ [leads]) (strides ++ [stride]) n := by
  induction steps generalizing strides nodes with
  | nil =>
    obtain rfl := List.length_eq_zero_iff.1 hlen.symm
    exact fun n hn => ⟨hleads n hn, fun _ _ => trivial⟩
  | cons first rest ih =>
    obtain _ | ⟨next, strides⟩ := strides
    · cases hlen
    intro n hn
    refine ⟨(h n hn).1, fun m hm => ?_⟩
    have hrest : ∀ m ∈ firstOccurrences (nodes.flatMap first), Covers rest strides m := by
      intro m hm
      obtain ⟨l, hl, hm⟩ := List.mem_flatMap.1 (mem_firstOccurrences.1 hm)
      exact (h l hl).2 m hm
    exact ih (by simpa using hlen) hrest hleads m
      (mem_firstOccurrences.2 (List.mem_flatMap.2 ⟨n, hn, hm⟩))

end Path

namespace Path

variable {σ : Setting} {I : List Stage → Prop}

/-- The engine follows strides where the plain reading leads. -/
theorem settles_follow {steps : List (Node → List Node)} {strides strides' : List Stride}
    (hs : List.Forall₂ (Accord.laziness σ).Strides strides strides')
    (hlen : steps.length = strides.length)
    {n : Node} (h : Covers steps strides' n) (p : Progress) :
    (follow false strides n p).Settles I (descend steps n p) := by
  induction hs generalizing steps n p with
  | nil =>
    obtain rfl := List.length_eq_zero_iff.1 hlen
    exact Eval.settles_pure _
  | @cons stride stride' rest rest' hstride _ ih =>
    obtain _ | ⟨leads, steps⟩ := steps
    · cases hlen
    have hlen : steps.length = rest.length := by simpa using hlen
    rw [follow, descend_cons]
    -- The engine reads the candidates in turn; `leads n` are those it will have kept.
    have hcandidates : stride.candidates n = stride'.candidates n := hstride.candidates trivial
    refine Candidates.settles_each hstride.predicates
      (Eager.kept_of_survivors (hcandidates ▸ h.1)) (fun m hm p => ?_) p
    rw [hlen]
    split
    · exact Eval.settles_pure p
    · exact ih hlen (h.2 m hm) _

/-- The plain reading of predicates gives only one list. -/
theorem kept_unique {ps ps' : List Predicate}
    (hp : List.Forall₂ (Accord.laziness σ).Predicates ps ps') {nodes K L : List Node}
    (hK : Eager.Kept nodes ps' K) (hL : Eager.Kept nodes ps' L) : K = L := by
  obtain ⟨_, hr, -⟩ := (Candidates.provides_read nodes hp).all ⟨[], ps'.map Stage.initial⟩
    (Stage.faithful_initial hK)
  obtain ⟨_, hr', -⟩ := (Candidates.provides_read nodes hp).all ⟨[], ps'.map Stage.initial⟩
    (Stage.faithful_initial hL)
  rw [hr] at hr'
  cases hr'
  rfl

theorem forall_of_reached {stride : Stride} {nodes : List Node} {lists : List (List Node)}
    (h : (Eager.reached stride nodes).Yields lists) :
    List.Forall₂ (fun n L =>
      (Eager.survivors stride.predicates.reverse (stride.candidates n)).Yields L) nodes lists := by
  induction nodes generalizing lists with
  | nil =>
    obtain rfl := Eval.yields_pure h
    exact .nil
  | cons n rest ih =>
    obtain ⟨L, hL, h⟩ := Eval.yields_bind h
    obtain ⟨more, hmore, h⟩ := Eval.yields_bind h
    obtain rfl := Eval.yields_pure h
    exact .cons hL (ih hmore)

/-- A list related to another one member by member is its image under a function, if the relation
gives each member only one partner. -/
theorem exists_map_of_forall₂ {α β : Type} [Inhabited β] {R : α → β → Prop}
    (hR : ∀ a b c, R a b → R a c → b = c) {xs : List α} {ys : List β}
    (h : List.Forall₂ R xs ys) : ∃ f : α → β, ys = xs.map f ∧ ∀ a ∈ xs, R a (f a) := by
  have hex : ∀ a, ∃ b, (∃ c, R a c) → R a b := fun a => by
    by_cases ha : ∃ c, R a c
    · exact ha.imp fun c hc _ => hc
    · exact ⟨default, fun h => (ha h).elim⟩
  choose f hf using hex
  refine ⟨f, ?_, ?_⟩
  · induction h with
    | nil => rfl
    | cons hab _ ih => rw [List.map_cons, ← ih, hR _ _ _ hab (hf _ ⟨_, hab⟩)]
  · induction h with
    | nil => simp
    | cons hab _ ih => exact List.forall_mem_cons.2 ⟨hf _ ⟨_, hab⟩, ih⟩

/-- Where a stride leads from each of several nodes, as a function. -/
theorem exists_leads {stride stride' : Stride} (hs : (Accord.laziness σ).Strides stride stride')
    {nodes : List Node} {lists : List (List Node)}
    (h : (Eager.reached stride' nodes).Yields lists) :
    ∃ leads : Node → List Node, lists = nodes.map leads ∧ ∀ m ∈ nodes,
      (Eager.survivors stride'.predicates.reverse (stride'.candidates m)).Yields (leads m) := by
  refine exists_map_of_forall₂ (fun m K L hK hL => ?_) (forall_of_reached h)
  exact kept_unique hs.predicates (Eager.kept_of_survivors hK) (Eager.kept_of_survivors hL)

/-! ### Paths -/

/-- What is arrived at from the nodes that predicates keep. -/
theorem settles_collect {steps : List (Node → List Node)} {strides strides' : List Stride}
    (hs : List.Forall₂ (Accord.laziness σ).Strides strides strides')
    (hlen : steps.length = strides.length)
    {ps ps' : List Predicate} (hp : List.Forall₂ (Accord.laziness σ).Predicates ps ps')
    {nodes K : List Node} (hK : Eager.Kept nodes ps' K) (h : ∀ n ∈ K, Covers steps strides' n) :
    (collect false nodes ps strides).Settles I (levels steps K) := by
  have hfound := found_descend steps K (p := ⟨[], []⟩) (by simp)
  rw [List.nil_append] at hfound
  rw [← hfound]
  exact Eval.settles_bind (Candidates.settles_each hp hK
    (fun n hn p => settles_follow hs hlen (h n hn) p) ⟨[], []⟩) (Eval.settles_pure _)

/-- Steps in accord are made ready in accord. -/
theorem ofStep_accord {s t : Step Meaning} (h : (Accord.laziness σ).Steps s t) {stride' : Stride}
    (ht : (Eval.ofExcept (Stride.ofStep σ t)).Yields stride') :
    ∃ stride, Stride.ofStep σ s = .ok stride ∧ (Accord.laziness σ).Strides stride stride' := by
  rcases Accord.strides_ofStep h with ⟨e, -, he, -⟩ | ⟨a, b, ha, hb, hab⟩
  · change Stride.ofStep σ t = .error e at he
    rw [he] at ht
    exact (Eval.not_yields_throw ht).elim
  · change Stride.ofStep σ t = .ok b at hb
    rw [hb] at ht
    obtain rfl := Eval.yields_pure ht
    exact ⟨a, ha, hab⟩

/-- The engine selects what the plain reading of the steps leads to, with some strides not yet
followed. -/
theorem settles_selectFrom {todo todo' : List (Step Meaning)}
    (htodo : List.Forall₂ (Accord.laziness σ).Steps todo todo')
    {steps : List (Node → List Node)} {strides strides' : List Stride}
    (hs : List.Forall₂ (Accord.laziness σ).Strides strides strides')
    (hlen : steps.length = strides.length)
    {ps ps' : List Predicate} (hp : List.Forall₂ (Accord.laziness σ).Predicates ps ps')
    {nodes K : List Node} (hK : Eager.Kept nodes ps' K) (h : ∀ n ∈ K, Covers steps strides' n)
    {R : List Node} (hR : (Eager.follow σ todo' (levels steps K)).Yields R) :
    (selectFrom σ false nodes ps strides todo).Settles I R := by
  induction htodo generalizing steps strides strides' nodes ps ps' K with
  | nil =>
    obtain rfl := Eval.yields_pure hR
    exact settles_collect hs hlen hp hK h
  | @cons step step' rest rest' hstep _ ih =>
    obtain ⟨M, hM, hR⟩ := Eval.yields_bind hR
    obtain ⟨stride', hstride', hM⟩ := Eval.yields_bind hM
    obtain ⟨lists, hlists, hM⟩ := Eval.yields_bind hM
    obtain ⟨stride, hready, hstride⟩ := ofStep_accord hstep hstride'
    obtain ⟨leads, rfl, hleads⟩ := exists_leads hstride hlists
    have hM := Eval.yields_pure hM
    have hs' : List.Forall₂ (Accord.laziness σ).Strides (strides ++ [stride])
        (strides' ++ [stride']) := List.rel_append hs (.cons hstride .nil)
    have hlen' : (steps ++ [leads]).length = (strides ++ [stride]).length := by simp [hlen]
    have hcovers := covers_append (hlen.trans hs.length_eq) h hleads
    have hlevels : levels (steps ++ [leads]) K =
        firstOccurrences ((levels steps K).map leads).flatten := by
      rw [levels_append, List.flatMap_def]
    rw [selectFrom, hready]
    refine Eval.settles_bind (Eval.settles_pure stride) ?_
    dsimp only
    rw [← hstep.axis] at hM
    by_cases ho : step.axis.restoresOrder = true
    -- What has been followed is collected and sorted, and no stride is left to be covered.
    · rw [if_pos ho] at hM ⊢
      refine Eval.settles_bind (settles_collect hs' hlen' hp hK hcovers) ?_
      have hcovered : ∀ n ∈ σ.view.sort (levels (steps ++ [leads]) K), Covers [] [] n :=
        fun _ _ => trivial
      refine ih .nil rfl .nil rfl hcovered ?_
      rw [levels, hlevels, ← hM]
      exact hR
    · rw [if_neg ho] at hM ⊢
      exact ih hs' hlen' hp hK hcovers (by rw [hlevels, ← hM]; exact hR)

/-- A path starts at the nodes that the plain reading starts at. -/
theorem settles_startNodes {start start' : Start Meaning}
    (h : (Accord.laziness σ).Starts start start') {c d : Context}
    (hc : (Accord.laziness σ).Contexts I c d) {nodes : List Node} {ps' : List Predicate}
    (hn : (startNodes σ d start').Yields (nodes, ps')) :
    ∃ ps, List.Forall₂ (Accord.laziness σ).Predicates ps ps' ∧
      (startNodes σ c start).Settles I (nodes, ps) := by
  cases h with
  | root =>
    cases Eval.yields_pure hn
    exact ⟨[], .nil, Eval.settles_pure _⟩
  | context =>
    cases Eval.yields_pure hn
    exact ⟨[], .nil, hc.node ▸ Eval.settles_pure _⟩
  | filter hm hp =>
    obtain ⟨v, hv, hn⟩ := Eval.yields_bind hn
    obtain ⟨-, hsettles⟩ := hm.value hc v hv
    cases v with
    | nodeSet s =>
      cases Eval.yields_pure hn
      exact ⟨_, Accord.predicates_reverse hp, Eval.settles_bind hsettles (Eval.settles_pure _)⟩
    | string s => exact (Eval.not_yields_throw hn).elim
    | number x => exact (Eval.not_yields_throw hn).elim
    | boolean b => exact (Eval.not_yields_throw hn).elim

section Select

variable {start start' : Start Meaning} (hstart : (Accord.laziness σ).Starts start start')
  {steps steps' : List (Step Meaning)}
  (hsteps : List.Forall₂ (Accord.laziness σ).Steps steps steps')
  {c d : Context} (hc : (Accord.laziness σ).Contexts I c d) {R : List Node}
  (hR : (Eager.select σ start' steps' d).Yields R)

include hstart hsteps hc hR

/-- The engine selects what the plain reading of a path yields. -/
theorem settles_select : (select σ false start steps c).Settles I R := by
  obtain ⟨⟨nodes, ps'⟩, hn, hR⟩ := Eval.yields_bind hR
  obtain ⟨K, hK, hR⟩ := Eval.yields_bind hR
  obtain ⟨ps, hp, hsettles⟩ := settles_startNodes hstart hc hn
  have hcovered : ∀ n ∈ K, Covers [] [] n := fun _ _ => trivial
  exact Eval.settles_bind hsettles
    (settles_selectFrom hsteps .nil rfl hp (Eager.kept_of_survivors hK) hcovered hR)

/-- Stopping at the first node, the engine finds out whether the plain reading yields any. -/
theorem settles_exists? : (exists? σ start steps c).Settles I (!R.isEmpty) := by
  intro s hs
  obtain ⟨u, hu, hIu⟩ := settles_select hstart hsteps hc hR s hs
  have hcut : Cut (fun s t => s.stages = t.stages) id (select σ true start steps c s)
      (select σ false start steps c s) :=
    Cut.bind _ fun _ t _ => cut_selectFrom Eval.course_stages σ
      (fun _ _ _ _ _ _ => Candidates.reads_stages _) _ (Candidates.reads_stages _)
      (fun _ _ => Candidates.reads_stages _) t
  rw [hu] at hcut
  -- Cut short, the selection either is what it would be in full or has found a node already.
  show ∃ t, EStateM.bind (select σ true start steps c) _ s = _ ∧ _
  rw [EStateM.bind]
  generalize select σ true start steps c s = r at hcut
  cases hcut with
  | same => exact ⟨u, rfl, hIu⟩
  | @longer a _ t _ hne hbegins hstages =>
    have hR : R ≠ [] := fun h => hne (List.prefix_nil.1 (h ▸ hbegins))
    refine ⟨t, ?_, hstages ▸ hIu⟩
    show EStateM.Result.ok (!a.isEmpty) t = _
    rw [show a.isEmpty = false by simpa using hne, show R.isEmpty = false by simpa using hR]

end Select

end Path

end XPath
