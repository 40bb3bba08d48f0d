/-
What a source comes to.

A source may read its own sequence and go by the answers, but while it is at work these depend only
on the nodes that it has yielded before.  So every source comes to a plain list of nodes and
failures, its *plan*, and what a sequence remembers is said by the number of pulls.

* `Item.yields` — the plan of a script;
* `Scripted.readWith_busy`, `Scripted.produce_eq` — a source at work reads and changes nothing;
* `Scripted.fill_afterPulls` — one round of a read;
* `Read.Served`, `Scripted.served_read` — what a read pulls and what it is answered.
-/
import XPath.Sequence.Script

namespace XPath

def failureOf {α : Type} : Except Error α → Option Error
  | .ok _ => none
  | .error e => some e

/-- What an item comes to before the end: a node or a failure. -/
abbrev Yield := Except Error Node

namespace Yield

def nodes (plan : List Yield) : List Node := plan.filterMap Except.toOption

def failures (plan : List Yield) : List Error := plan.filterMap failureOf

theorem nodes_append (p q : List Yield) : nodes (p ++ q) = nodes p ++ nodes q :=
  List.filterMap_append

theorem failures_append (p q : List Yield) : failures (p ++ q) = failures p ++ failures q :=
  List.filterMap_append

end Yield

/-- The answer to a read by the source itself, which is at work and has yielded `found`. -/
def Read.meanwhile (found : List Node) (r : Read) : Except Error Reply :=
  if Sequence.answers ⟨found, false, true⟩ r.stop then .ok (r.reply found)
  else .error Sequence.outOfTurn

/-- What an item comes to, after the nodes in `found`; nothing at the end. -/
def Item.yield (found : List Node) : Item → Option Yield
  | .node n => some (.ok n)
  | .failed e => some (.error e)
  | .finish => none
  | .reading r next => (next (r.meanwhile found)).yield found

/-- The plan of a script, after the nodes in `found`. -/
def Item.yields (found : List Node) : List Item → List Yield
  | [] => []
  | item :: rest =>
    match item.yield found with
    | none => []
    | some y => y :: yields (found ++ Yield.nodes [y]) rest

/-- Each entry of a plan is what the item in its place comes to, after the nodes before it. -/
theorem Item.getElem?_yields {items : List Item} {found : List Node} {p : Nat}
    (h : p ≤ (yields found items).length) :
    (yields found items)[p]? =
      (items[p]?.getD .finish).yield (found ++ Yield.nodes ((yields found items).take p)) := by
  induction items generalizing found p with
  | nil =>
    obtain rfl : p = 0 := Nat.le_zero.1 h
    rfl
  | cons item rest ih =>
    rw [yields] at h ⊢
    cases hy : item.yield found with
    | none =>
      rw [hy] at h
      obtain rfl : p = 0 := Nat.le_zero.1 h
      simp [Yield.nodes, hy]
    | some y =>
      rw [hy] at h
      obtain _ | p := p
      · simp [Yield.nodes, hy]
      · have hp := ih (Nat.le_of_succ_le_succ h)
        simp only [List.getElem?_cons_succ, List.take_succ_cons]
        rw [hp, List.append_assoc, ← Yield.nodes_append]
        rfl

theorem Item.length_yields_le (found : List Node) (items : List Item) :
    (yields found items).length ≤ items.length := by
  induction items generalizing found with
  | nil => exact Nat.le_refl _
  | cons item rest ih =>
    rw [yields]
    cases item.yield found with
    | none => exact Nat.zero_le _
    | some y => exact Nat.succ_le_succ (ih _)

-- A source that yields its first node again, and fails where it asks for its own length.
example :
    Item.yields [] [.node ⟨0, 1⟩,
      .reading (.get 0) fun | .ok (.node (some n)) => .node n | _ => .finish,
      .reading .length fun | .ok _ => .finish | .error e => .failed e,
      .node ⟨0, 2⟩, .finish, .node ⟨0, 3⟩] =
    [.ok ⟨0, 1⟩, .ok ⟨0, 1⟩, .error Sequence.outOfTurn, .ok ⟨0, 2⟩] := rfl

/-! ### Positions in a plan -/

/-- What a sequence remembers after `p` pulls. -/
def Sequence.afterPulls (plan : List Yield) (p : Nat) : Sequence :=
  ⟨Yield.nodes (plan.take p), p = plan.length + 1, false⟩

/-- A sequence that has been pulled `p` times, with its cursors. -/
def Scripted.afterPulls (items : List Item) (p : Nat) (cursors : List Nat) : Scripted :=
  ⟨.afterPulls (Item.yields [] items) p, items.drop p, p, cursors⟩

section AfterPulls

variable {plan : List Yield} {p : Nat}

/-- The entry of the plan that comes next is what memory gains by a pull. -/
theorem Sequence.found_afterPulls_succ (plan : List Yield) (p : Nat) :
    (afterPulls plan (p + 1)).found =
      (afterPulls plan p).found ++ Yield.nodes plan[p]?.toList := by
  rw [afterPulls, afterPulls, List.take_add_one, Yield.nodes_append]

theorem Sequence.exhausted_afterPulls (h : p ≤ plan.length) :
    (afterPulls plan p).exhausted = false :=
  decide_eq_false (by omega)

theorem Sequence.exhausted_afterPulls_succ (h : p < plan.length) :
    (afterPulls plan (p + 1)).exhausted = (afterPulls plan p).exhausted := by
  rw [exhausted_afterPulls h, exhausted_afterPulls (Nat.le_of_lt h)]

theorem Sequence.afterPulls_node {n : Node} (h : plan[p]? = some (.ok n)) :
    afterPulls plan (p + 1) = (afterPulls plan p).extended n := by
  have hlt := (List.getElem?_eq_some_iff.1 h).1
  have hfound := found_afterPulls_succ plan p
  rw [h] at hfound
  exact (Sequence.mk.injEq ..).mpr ⟨hfound, exhausted_afterPulls_succ hlt, rfl⟩

theorem Sequence.afterPulls_failure {e : Error} (h : plan[p]? = some (.error e)) :
    afterPulls plan (p + 1) = afterPulls plan p := by
  have hlt := (List.getElem?_eq_some_iff.1 h).1
  have hfound := found_afterPulls_succ plan p
  rw [h, show Yield.nodes (some (Except.error e : Yield)).toList = [] from rfl,
    List.append_nil] at hfound
  exact (Sequence.mk.injEq ..).mpr ⟨hfound, exhausted_afterPulls_succ hlt, rfl⟩

theorem Sequence.afterPulls_end (plan : List Yield) :
    afterPulls plan (plan.length + 1) = (afterPulls plan plan.length).ended := by
  have hfound := found_afterPulls_succ plan plan.length
  rw [List.getElem?_eq_none (Nat.le_refl _),
    show Yield.nodes (none : Option Yield).toList = [] from rfl, List.append_nil] at hfound
  exact (Sequence.mk.injEq ..).mpr ⟨hfound, decide_eq_true rfl, rfl⟩

end AfterPulls

theorem Sequence.answers_end (plan : List Yield) (stop : Option Nat) :
    (afterPulls plan (plan.length + 1)).answers stop = true := by
  cases stop <;> simp [afterPulls, answers]

theorem Sequence.nodes_eq_of_afterPulls (plan : List Yield) (p : Nat) :
    Yield.nodes plan = (afterPulls plan p).found ++ Yield.nodes (plan.drop p) := by
  rw [afterPulls, ← Yield.nodes_append, List.take_append_drop]

/-- What memory answers is what the whole list answers. -/
theorem Read.reply_afterPulls {plan : List Yield} {r : Read} {p : Nat}
    (h : (Sequence.afterPulls plan p).answers r.stop = true) :
    r.reply (Sequence.afterPulls plan p).found = r.reply (Yield.nodes plan) := by
  by_cases hp : p = plan.length + 1
  · have hall : plan.take p = plan := List.take_of_length_le (by omega)
    rw [Sequence.afterPulls, hall]
  · -- Before the end only a read of one node can be answered, and that node stays where it is.
    rw [Sequence.nodes_eq_of_afterPulls plan p]
    cases r with
    | get i =>
      have hi : i < (Sequence.afterPulls plan p).found.length := by
        simpa [Sequence.answers, Read.stop, Sequence.afterPulls, hp] using h
      rw [reply, reply, List.getElem?_append_left hi]
    | isEmpty =>
      have hne : 0 < (Sequence.afterPulls plan p).found.length := by
        simpa [Sequence.answers, Read.stop, Sequence.afterPulls, hp] using h
      have hne := List.ne_nil_of_length_pos hne
      rw [reply, reply, List.isEmpty_eq_false_iff.2 hne,
        List.isEmpty_eq_false_iff.2 (List.append_ne_nil_of_left_ne_nil hne _)]
    | length => simp [Sequence.answers, Read.stop, Sequence.afterPulls, hp] at h
    | collect => simp [Sequence.answers, Read.stop, Sequence.afterPulls, hp] at h

namespace Scripted

/-! ### Reads of the source itself -/

section Reads

variable (pull : EStateM Error Scripted Pull) {s : Scripted}

theorem readWith_apply (r : Read) (s : Scripted) :
    readWith pull r s =
      match place.fill pull r.stop (s.items.length + 1) s with
      | .ok _ t => .ok (r.reply t.sequence.found) t
      | .error e t => .error e t := by
  show EStateM.bind (place.fill pull r.stop (s.items.length + 1))
    (fun _ => EStateM.bind EStateM.get fun t => EStateM.pure (r.reply t.sequence.found)) s = _
  rw [EStateM.bind]
  cases place.fill pull r.stop (s.items.length + 1) s <;> rfl

theorem fill_answered {stop : Option Nat} (h : s.sequence.answers stop = true) (fuel : Nat) :
    place.fill pull stop fuel s = .ok () s := by
  cases fuel with
  | zero => rfl
  | succ fuel =>
    rw [Place.fill]
    show (if s.sequence.answers stop then _ else _) = _
    rw [if_pos h]

theorem fill_busy {stop : Option Nat} (h : ¬ s.sequence.answers stop = true)
    (hb : s.sequence.busy = true) (fuel : Nat) :
    place.fill pull stop (fuel + 1) s = .error Sequence.outOfTurn s := by
  rw [Place.fill]
  show (if s.sequence.answers stop then _ else if s.sequence.busy then _ else _) = _
  rw [if_neg h, if_pos hb]

/-- One round of a read: the source is asked once, and the read goes on. -/
theorem fill_round {stop : Option Nat} (h : ¬ s.sequence.answers stop = true)
    (hb : s.sequence.busy = false) (fuel : Nat) :
    place.fill pull stop (fuel + 1) s =
      match pull { s with sequence := s.sequence.occupied } with
      | .ok (.node n) t => place.fill pull stop fuel (place.set t (t.sequence.extended n))
      | .ok .nothing t => place.fill pull stop fuel (place.set t t.sequence.released)
      | .ok .finished t => .ok () (place.set t t.sequence.ended)
      | .error e t => .error e (place.set t t.sequence.released) := by
  rw [Place.fill]
  show (if s.sequence.answers stop then _ else if s.sequence.busy then _ else _) = _
  rw [if_neg h, if_neg (by simp [hb]),
    show place.set s (place.get s).occupied = { s with sequence := s.sequence.occupied } from rfl]
  rcases pull { s with sequence := s.sequence.occupied } with ⟨_ | _ | _, _⟩ | ⟨_, _⟩ <;> rfl

/-- A read that comes in while the source is at work is answered from memory or refused, and
changes nothing. -/
theorem readWith_busy (r : Read) (h : s.sequence.busy = true) :
    readWith pull r s =
      if s.sequence.answers r.stop then .ok (r.reply s.sequence.found) s
      else .error Sequence.outOfTurn s := by
  rw [readWith_apply]
  by_cases ha : s.sequence.answers r.stop = true
  · rw [fill_answered pull ha, if_pos ha]
  · rw [fill_busy pull ha h, if_neg ha]

end Reads

/-- Producing an item changes nothing, whatever the source reads meanwhile. -/
theorem produce_eq (item : Item) {s : Scripted} (hb : s.sequence.busy = true)
    (he : s.sequence.exhausted = false) :
    produce item s =
      match item.yield s.sequence.found with
      | some (.ok n) => .ok (.node n) s
      | some (.error e) => .error e s
      | none => .ok .finished s := by
  induction item with
  | node n => rfl
  | failed e => rfl
  | finish => rfl
  | reading r next ih =>
    have hmeanwhile : s.sequence.answers r.stop =
        Sequence.answers ⟨s.sequence.found, false, true⟩ r.stop := by
      cases r <;> simp [Sequence.answers, Read.stop, he]
    rw [Item.yield, Read.meanwhile, produce]
    dsimp only
    rw [readWith_busy _ r hb, hmeanwhile]
    by_cases ha : Sequence.answers ⟨s.sequence.found, false, true⟩ r.stop = true
    · rw [if_pos ha, if_pos ha]
      exact ih _
    · rw [if_neg ha, if_neg ha]
      exact ih _

/-! ### Rounds -/

variable {items : List Item} {p : Nat} (cursors : List Nat)

/-- A pull takes the next item of the script and comes to the next entry of the plan. -/
theorem pull_afterPulls (hp : p ≤ (Item.yields [] items).length) :
    let s := afterPulls items p cursors
    let t : Scripted := ⟨s.sequence.occupied, items.drop (p + 1), p + 1, cursors⟩
    pull { s with sequence := s.sequence.occupied } =
      match (Item.yields [] items)[p]? with
      | some (.ok n) => .ok (.node n) t
      | some (.error e) => .error e t
      | none => .ok .finished t := by
  intro s t
  have hne : ¬ p = (Item.yields [] items).length + 1 := by omega
  have hpull : pull { s with sequence := s.sequence.occupied } =
      produce (items[p]?.getD .finish) t := by
    show produce ((items.drop p).headD .finish)
      ⟨s.sequence.occupied, (items.drop p).tail, p + 1, cursors⟩ = _
    rw [List.tail_drop, List.headD_eq_head?_getD, List.head?_drop]
  rw [hpull, produce_eq _ rfl (by simpa [t, s, afterPulls, Sequence.afterPulls, Sequence.occupied]),
    Item.getElem?_yields hp]
  rfl

/-- One round of a read, by the entry of the plan that comes next. -/
theorem fill_afterPulls (hp : p ≤ (Item.yields [] items).length) (stop : Option Nat) (fuel : Nat)
    (ha : ¬ (Sequence.afterPulls (Item.yields [] items) p).answers stop = true) :
    place.fill pull stop (fuel + 1) (afterPulls items p cursors) =
      match (Item.yields [] items)[p]? with
      | some (.ok _) => place.fill pull stop fuel (afterPulls items (p + 1) cursors)
      | some (.error e) => .error e (afterPulls items (p + 1) cursors)
      | none => .ok () (afterPulls items (p + 1) cursors) := by
  have hpull := pull_afterPulls cursors hp
  rw [fill_round _ ha rfl, hpull]
  rcases hy : (Item.yields [] items)[p]? with _ | e | n
  · obtain rfl : p = (Item.yields [] items).length := by
      have := List.getElem?_eq_none_iff.1 hy
      omega
    rw [afterPulls, afterPulls, Sequence.afterPulls_end]
    rfl
  · rw [afterPulls, afterPulls, Sequence.afterPulls_failure hy]
    rfl
  · rw [afterPulls, afterPulls, Sequence.afterPulls_node hy]
    rfl

end Scripted

/-! ### Reads -/

/-- A read that needs to know the nodes up to `stop` takes a sequence from `p` to `q` pulls and
ends with `failed`, if it fails. -/
structure Yield.Fetched (plan : List Yield) (stop : Option Nat) (p : Nat) (failed : Option Error)
    (q : Nat) : Prop where
  le : p ≤ q
  /-- The pull that meets the end is the last one of all. -/
  le_end : q ≤ plan.length + 1
  /-- Nothing is pulled that memory could do without. -/
  needed : ∀ m, p ≤ m → m < q → ¬ (Sequence.afterPulls plan m).answers stop = true
  /-- Each pull but the last one of a read yields a node. -/
  nodes : ∀ m, p ≤ m → m + 1 < q → ∃ n, plan[m]? = some (.ok n)
  /-- A read fails if it pulls a failure, and only then. -/
  failure : ∀ e, failed = some e ↔ ∃ m, p ≤ m ∧ m < q ∧ plan[m]? = some (.error e)
  /-- No failure that is pulled gets lost. -/
  failures : failures (plan.take q) = failures (plan.take p) ++ failed.toList
  answered : failed = none → (Sequence.afterPulls plan q).answers stop = true

namespace Yield.Fetched

variable {plan : List Yield} {stop : Option Nat} {p q : Nat} {failed : Option Error}

/-- What is known is fetched without a pull. -/
theorem known (h : (Sequence.afterPulls plan p).answers stop = true)
    (hp : p ≤ plan.length + 1) : Fetched plan stop p none p where
  le := Nat.le_refl p
  le_end := hp
  needed m hm hlt := by omega
  nodes m hm hlt := by omega
  failure e := by
    constructor
    · intro h
      cases h
    · rintro ⟨m, hm, hlt, -⟩
      omega
  failures := (List.append_nil _).symm
  answered _ := h

/-- The last pull of a read meets a failure or the end. -/
theorem last (h : ¬ (Sequence.afterPulls plan p).answers stop = true) (hp : p ≤ plan.length)
    (hfailed : failed = plan[p]?.bind failureOf)
    (hanswered : failed = none → (Sequence.afterPulls plan (p + 1)).answers stop = true) :
    Fetched plan stop p failed (p + 1) where
  le := Nat.le_succ p
  le_end := Nat.succ_le_succ hp
  needed m hm hlt := by
    obtain rfl : m = p := by omega
    exact h
  nodes m hm hlt := by omega
  failure e := by
    rw [hfailed, Option.bind_eq_some_iff]
    constructor
    · rintro ⟨_ | _, hy, ⟨⟩⟩
      exact ⟨p, Nat.le_refl p, Nat.lt_succ_self p, hy⟩
    · rintro ⟨m, hm, hlt, hy⟩
      obtain rfl : m = p := by omega
      exact ⟨_, hy, rfl⟩
  failures := by
    rw [List.take_add_one, failures_append, hfailed]
    rcases plan[p]? with _ | _ | _ <;> rfl
  answered := hanswered

/-- A pull that yields a node comes before the rest of a read. -/
theorem step (h : ¬ (Sequence.afterPulls plan p).answers stop = true) {n : Node}
    (hy : plan[p]? = some (.ok n)) (hrest : Fetched plan stop (p + 1) failed q) :
    Fetched plan stop p failed q where
  le := Nat.le_of_succ_le hrest.le
  le_end := hrest.le_end
  needed m hm hlt := by
    rcases Nat.eq_or_lt_of_le hm with rfl | hm
    · exact h
    · exact hrest.needed m hm hlt
  nodes m hm hlt := by
    rcases Nat.eq_or_lt_of_le hm with rfl | hm
    · exact ⟨n, hy⟩
    · exact hrest.nodes m hm hlt
  failure e := by
    rw [hrest.failure e]
    constructor
    · rintro ⟨m, hm, hlt, he⟩
      exact ⟨m, Nat.le_of_succ_le hm, hlt, he⟩
    · rintro ⟨m, hm, hlt, he⟩
      rcases Nat.eq_or_lt_of_le hm with rfl | hm
      · rw [hy] at he
        cases he
      · exact ⟨m, hm, hlt, he⟩
  failures := by
    rw [hrest.failures, List.take_add_one, failures_append, hy]
    exact congrArg (· ++ _) (List.append_nil _)
  answered := hrest.answered

end Yield.Fetched

/-- A read is answered as the plain list of nodes is, or fails, and goes from `p` to `q` pulls. -/
structure Read.Served (plan : List Yield) (r : Read) (p : Nat) (answer : Except Error Reply)
    (q : Nat) : Prop where
  fetched : Yield.Fetched plan r.stop p (failureOf answer) q
  reply : ∀ reply, answer = .ok reply → reply = r.reply (Yield.nodes plan)

namespace Scripted

variable {items : List Item} {p : Nat} (cursors : List Nat)

/-- Asking the source until memory answers. -/
theorem fetched_fill (stop : Option Nat) {fuel : Nat} (hp : p ≤ (Item.yields [] items).length + 1)
    (hfuel : (Item.yields [] items).length + 1 ≤ p + fuel) :
    ∃ failed q, Yield.Fetched (Item.yields [] items) stop p failed q ∧
      place.fill pull stop fuel (afterPulls items p cursors) =
        match failed with
        | none => .ok () (afterPulls items q cursors)
        | some e => .error e (afterPulls items q cursors) := by
  -- Each round uses up an entry of the plan, until the end.
  induction fuel generalizing p with
  | zero =>
    obtain rfl : p = (Item.yields [] items).length + 1 := by omega
    exact ⟨none, _, .known (Sequence.answers_end _ stop) hp, rfl⟩
  | succ fuel ih =>
    by_cases ha : (Sequence.afterPulls (Item.yields [] items) p).answers stop = true
    · exact ⟨none, p, .known ha hp, fill_answered _ ha _⟩
    have hle : p ≤ (Item.yields [] items).length := by
      rcases Nat.lt_or_eq_of_le hp with h | rfl
      · omega
      · exact (ha (Sequence.answers_end _ stop)).elim
    have hround := fill_afterPulls cursors hle stop fuel ha
    rcases hy : (Item.yields [] items)[p]? with _ | e | n
    · rw [hy] at hround
      have hend : p = (Item.yields [] items).length := by
        have := List.getElem?_eq_none_iff.1 hy
        omega
      have hanswers := Sequence.answers_end (Item.yields [] items) stop
      exact ⟨none, p + 1, .last ha hle (by rw [hy]; rfl) fun _ => hend ▸ hanswers, hround⟩
    · rw [hy] at hround
      exact ⟨some e, p + 1, .last ha hle (by rw [hy]; rfl) nofun, hround⟩
    · rw [hy] at hround
      obtain ⟨failed, q, hfetched, hfill⟩ := ih (p := p + 1) (by omega) (by omega)
      exact ⟨failed, q, .step ha hy hfetched, hround.trans hfill⟩

/-- A read moves a sequence on in its plan, and changes nothing else. -/
theorem served_read (r : Read) (hp : p ≤ (Item.yields [] items).length + 1) :
    ∃ answer q, r.Served (Item.yields [] items) p answer q ∧
      read r (afterPulls items p cursors) =
        match answer with
        | .ok reply => .ok reply (afterPulls items q cursors)
        | .error e => .error e (afterPulls items q cursors) := by
  have hlength := Item.length_yields_le [] items
  have hfuel : (Item.yields [] items).length + 1 ≤
      p + ((afterPulls items p cursors).items.length + 1) := by
    rw [afterPulls, List.length_drop]
    omega
  obtain ⟨failed, q, hfetched, hfill⟩ := fetched_fill cursors r.stop hp hfuel
  have hread := readWith_apply pull r (afterPulls items p cursors)
  rw [hfill] at hread
  cases failed with
  | none =>
    refine ⟨.ok (r.reply (Yield.nodes (Item.yields [] items))), q, ⟨hfetched, ?_⟩, ?_⟩
    · rintro reply ⟨⟩
      rfl
    · rw [← Read.reply_afterPulls (hfetched.answered rfl)]
      exact hread
  | some e =>
    refine ⟨.error e, q, ⟨hfetched, ?_⟩, hread⟩
    intro reply h
    cases h

end Scripted

end XPath
