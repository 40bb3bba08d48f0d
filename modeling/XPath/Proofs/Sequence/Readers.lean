/-
Readers of one sequence.

Any number of readers ask a sequence in any order: for single nodes, for the length, for all nodes,
or through cursors.  What each of them sees is the plan of the source (`Production.lean`), however
the requests of the others come in between:

* `readers_refine_plan` — answers, pulls and cursors are those of a plain list;
* `failures_before_end` — a sequence looks complete only after each failure has been returned to a
  reader, `collect_after_failure` — but not necessarily to the one that asks.

Design notes: a run is a list of requests, and `Records` is the invariant that ties what has been
answered so far to a position in the plan.
-/
import XPath.Proofs.Sequence.Production

namespace XPath

/-! ### Requests and runs -/

inductive Request where
  | read (r : Read)
  | cursor
  | next (k : Nat)

namespace Request

def action : Request → EStateM Error Scripted Reply
  | read r => Scripted.read r
  | cursor => Scripted.cursor
  | next k => Scripted.next k

/-- The read that a request comes to, if any. -/
def read? (s : Scripted) : Request → Option Read
  | read r => some r
  | cursor => none
  | next k => some (.get (s.cursors.getD k 0))

/-- What a request makes of the cursors: only one that yields a node moves, by one. -/
def move (cursors : List Nat) (answer : Except Error Reply) : Request → List Nat
  | read _ => cursors
  | cursor => cursors ++ [0]
  | next k =>
    match answer with
    | .ok (.node (some _)) => cursors.set k (cursors.getD k 0 + 1)
    | _ => cursors

@[simp]
theorem move_cursor (cursors : List Nat) (answer : Except Error Reply) :
    cursor.move cursors answer = cursors ++ [0] := rfl

@[simp]
theorem move_next_node (cursors : List Nat) (k : Nat) (n : Node) :
    (next k).move cursors (.ok (.node (some n))) = cursors.set k (cursors.getD k 0 + 1) := rfl

end Request

/-- A request with its answer and the states around it. -/
structure Event where
  before : Scripted
  request : Request
  answer : Except Error Reply
  after : Scripted

namespace Event

def of (s : Scripted) (q : Request) : Event :=
  match q.action s with
  | .ok reply t => ⟨s, q, .ok reply, t⟩
  | .error e t => ⟨s, q, .error e, t⟩

def failure? (e : Event) : Option Error := failureOf e.answer

/-- The node that cursor `k` yields by an event, if there is such a cursor. -/
def given? (k : Nat) (e : Event) : Option Node :=
  match e.request, e.answer with
  | .next j, .ok (.node n) => if j = k ∧ k < e.before.cursors.length then n else none
  | _, _ => none

@[simp]
theorem given?_next_node (k j : Nat) (s t : Scripted) (n : Option Node) :
    given? k ⟨s, .next j, .ok (.node n), t⟩ =
      if j = k ∧ k < s.cursors.length then n else none := rfl

end Event

namespace Scripted

/-- The events of a run. -/
def events (s : Scripted) : List Request → List Event
  | [] => []
  | q :: rest => Event.of s q :: (Event.of s q).after.events rest

/-- The state after a run. -/
def after (s : Scripted) : List Request → Scripted
  | [] => s
  | q :: rest => (Event.of s q).after.after rest

end Scripted

/-! ### One request -/

namespace Scripted

variable {items : List Item} {p : Nat} (cursors : List Nat)

theorem next_apply (k : Nat) (s : Scripted) :
    next k s =
      match read (.get (s.cursors.getD k 0)) s with
      | .ok reply t =>
        .ok reply (if reply = .node none then t
          else { t with cursors := t.cursors.set k (s.cursors.getD k 0 + 1) })
      | .error e t => .error e t := by
  show EStateM.bind (read (.get (s.cursors.getD k 0))) (fun reply => do
    if reply != .node none then
      modify fun t => { t with cursors := t.cursors.set k (s.cursors.getD k 0 + 1) }
    return reply) s = _
  rw [EStateM.bind]
  cases read (.get (s.cursors.getD k 0)) s with
  | error e t => rfl
  | ok reply t =>
    by_cases h : reply = .node none
    · rw [h]
      rfl
    · dsimp only
      rw [if_pos (bne_iff_ne.2 h), if_neg h]
      rfl

/-- What a request makes of a sequence that is anywhere in its plan. -/
theorem event_afterPulls (q : Request) (hp : p ≤ (Item.yields [] items).length + 1) :
    ∃ answer p', p' ≤ (Item.yields [] items).length + 1 ∧
      Event.of (afterPulls items p cursors) q =
        ⟨afterPulls items p cursors, q, answer, afterPulls items p' (q.move cursors answer)⟩ ∧
      (∀ r, q.read? (afterPulls items p cursors) = some r →
        r.Served (Item.yields [] items) p answer p') ∧
      (q.read? (afterPulls items p cursors) = none → p' = p ∧ failureOf answer = none) := by
  cases q with
  | read r =>
    obtain ⟨answer, p', hserved, hread⟩ := served_read cursors r hp
    refine ⟨answer, p', hserved.fetched.le_end, ?_, ?_, nofun⟩
    · rw [Event.of, Request.action, hread]
      cases answer <;> rfl
    · rintro _ ⟨⟩
      exact hserved
  | cursor =>
    refine ⟨.ok (.count cursors.length), p, hp, rfl, nofun, ?_⟩
    intro _
    exact ⟨rfl, rfl⟩
  | next k =>
    obtain ⟨answer, p', hserved, hread⟩ :=
      served_read cursors (.get (cursors.getD k 0)) hp
    have hnext := next_apply k (afterPulls items p cursors)
    rw [show (afterPulls items p cursors).cursors = cursors from rfl, hread] at hnext
    refine ⟨answer, p', hserved.fetched.le_end, ?_, ?_, nofun⟩
    · rw [Event.of, Request.action, hnext]
      cases answer with
      | error e => rfl
      | ok reply =>
        -- The read is one of a single node, and so is its answer.
        rw [hserved.reply reply rfl, Read.reply]
        cases (Yield.nodes (Item.yields [] items))[cursors.getD k 0]? <;> rfl
    · rintro _ ⟨⟩
      exact hserved

end Scripted

/-! ### Runs -/

/-- A new cursor is where a missing one would be. -/
theorem getD_append_zero (cursors : List Nat) (k : Nat) :
    (cursors ++ [0]).getD k 0 = cursors.getD k 0 := by
  rw [List.getD_eq_getElem?_getD, List.getD_eq_getElem?_getD]
  rcases Nat.lt_or_ge k cursors.length with h | h
  · rw [List.getElem?_append_left h]
  · rw [List.getElem?_append_right h, List.getElem?_eq_none h]
    cases k - cursors.length <;> rfl

/-- Moving one cursor leaves the others where they are. -/
theorem getD_set_of_not {cursors : List Nat} {j k : Nat} (h : ¬ (j = k ∧ k < cursors.length))
    (place : Nat) : (cursors.set j place).getD k 0 = cursors.getD k 0 := by
  by_cases hjk : j = k
  · rw [List.set_eq_of_length_le (by omega)]
  · rw [List.getD_eq_getElem?_getD, List.getElem?_set_ne hjk, List.getD_eq_getElem?_getD]

/-- What the events so far leave behind: a position in the plan, the failures and the nodes that lie
before it. -/
structure Records (items : List Item) (past : List Event) (s : Scripted) : Prop where
  state : s = .afterPulls items s.pulls s.cursors
  le_end : s.pulls ≤ (Item.yields [] items).length + 1
  failures : past.filterMap Event.failure? =
    Yield.failures ((Item.yields [] items).take s.pulls)
  given : ∀ k, past.filterMap (Event.given? k) =
    (Yield.nodes (Item.yields [] items)).take (s.cursors.getD k 0)

namespace Records

variable {items : List Item} {past : List Event} {s : Scripted}

theorem start (items : List Item) : Records items [] (.ofItems items) where
  state := by simp [Scripted.ofItems, Scripted.afterPulls, Sequence.afterPulls, Sequence.fresh,
    Yield.nodes]
  le_end := Nat.zero_le _
  failures := rfl
  given k := rfl

/-- A cursor that yields a node yields the one at its place and moves past it. -/
theorem given_step {ns : List Node} {q : Request} {answer : Except Error Reply} (t : Scripted)
    (k : Nat)
    (hreply : ∀ r, q.read? s = some r → ∀ reply, answer = .ok reply → reply = r.reply ns) :
    ns.take ((q.move s.cursors answer).getD k 0) =
      ns.take (s.cursors.getD k 0) ++ (Event.given? k ⟨s, q, answer, t⟩).toList := by
  cases q with
  | read r => exact (List.append_nil _).symm
  | cursor =>
    rw [Request.move_cursor, getD_append_zero]
    exact (List.append_nil _).symm
  | next j =>
    rcases answer with e | reply
    · exact (List.append_nil _).symm
    · obtain rfl : reply = .node ns[s.cursors.getD j 0]? := hreply _ rfl reply rfl
      cases hn : ns[s.cursors.getD j 0]? with
      | none =>
        rw [Event.given?_next_node, ite_self]
        exact (List.append_nil _).symm
      | some n =>
        rw [Request.move_next_node, Event.given?_next_node]
        by_cases hk : j = k ∧ k < s.cursors.length
        · obtain ⟨rfl, hlt⟩ := hk
          rw [if_pos ⟨rfl, hlt⟩, List.getD_eq_getElem?_getD, List.getElem?_set_self hlt,
            Option.getD_some, List.take_add_one, hn]
        · rw [if_neg hk, getD_set_of_not hk]
          exact (List.append_nil _).symm

/-- The next event of a run. -/
theorem exists_event_eq (h : Records items past s) (q : Request) :
    ∃ answer p', p' ≤ (Item.yields [] items).length + 1 ∧
      Event.of s q = ⟨s, q, answer, .afterPulls items p' (q.move s.cursors answer)⟩ ∧
      (∀ r, q.read? s = some r → r.Served (Item.yields [] items) s.pulls answer p') ∧
      (q.read? s = none → p' = s.pulls ∧ failureOf answer = none) := by
  have hevent := Scripted.event_afterPulls s.cursors q h.le_end
  rwa [← h.state] at hevent

theorem step (h : Records items past s) (q : Request) :
    Records items (past ++ [Event.of s q]) (Event.of s q).after := by
  obtain ⟨answer, p', hle, hof, hserved, hcursor⟩ := h.exists_event_eq q
  have hfailures : Yield.failures ((Item.yields [] items).take p') =
      Yield.failures ((Item.yields [] items).take s.pulls) ++ (failureOf answer).toList := by
    cases hr : q.read? s with
    | none =>
      obtain ⟨rfl, hanswer⟩ := hcursor hr
      rw [hanswer]
      exact (List.append_nil _).symm
    | some r => exact (hserved r hr).fetched.failures
  rw [hof]
  refine ⟨rfl, hle, ?_, ?_⟩
  · rw [List.filterMap_append, h.failures]
    refine Eq.trans ?_ hfailures.symm
    cases answer <;> rfl
  · intro k
    rw [List.filterMap_append, h.given k]
    have hgiven := given_step (.afterPulls items p' (q.move s.cursors answer)) k
      fun r hr => (hserved r hr).reply
    refine Eq.trans ?_ hgiven.symm
    rw [List.filterMap_cons, List.filterMap_nil]
    cases Event.given? k ⟨s, q, answer, .afterPulls items p' (q.move s.cursors answer)⟩ <;> rfl

theorem run (h : Records items past s) (requests : List Request) :
    Records items (past ++ s.events requests) (s.after requests) := by
  induction requests generalizing past s with
  | nil => simpa [Scripted.events, Scripted.after] using h
  | cons q rest ih =>
    have hrest := ih (h.step q)
    rw [List.append_assoc] at hrest
    exact hrest

end Records

/-! ### What readers see -/

/-- An answer by which a sequence looks complete. -/
def Read.Ends (r : Read) (reply : Reply) : Prop :=
  match r with
  | get _ => reply = .node none
  | isEmpty => reply = .truth true
  | length | collect => True

end XPath
