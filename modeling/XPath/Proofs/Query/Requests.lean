/-
Requests for results of different kinds agree with one another.

All requests but the one for a truth value evaluate the expression in full and then convert its
value, so what they answer follows from that value.  The truth is found on its own, and needs less
of the nodes of a path.

* `Shape.convert`, `Shape.evaluate_eq` — every result but the truth is a converted value;
* `Engine.reply` — what a request answers;
* `Engine.Selects`, `Engine.Converts`, `Engine.Fails` — what all requests answer for nodes, for a
  value of another kind and for an error;
* `requests_agree` — they answer so whenever the value is that one.
-/
import XPath.Proofs.Evaluation.Truth
import XPath.Proofs.Query.Recall
import XPath.Proofs.Tree.Ranking
import XPath.Tree.Sample

namespace XPath

/-! ### Converting values -/

namespace Shape

/-- The value that a shape asks for, made from the value of the expression. -/
def convert (i : Interpretation) (c : Context) (shape : Shape) (v : Value) : Eval Value :=
  let view := i.setting.view
  match shape with
  | any => pure v
  | string => pure (.string (v.toText view))
  | number => do return .number (← i.numberOf c v)
  | boolean => pure (.boolean v.toBool)
  | nodeSet => do return .nodeSet (← nodes v)
  | ordered => do return .nodeSet ((← nodes v).sorted view)
  | first => do return .nodeSet ⟨((← nodes v).first? view).toList⟩

theorem evaluate_eq (i : Interpretation) (e : Expr) (n : Node) {shape : Shape}
    (h : shape ≠ .boolean) :
    shape.evaluate i e n = (e.meaning i).value (.alone n) >>= shape.convert i (.alone n) := by
  cases shape with
  | boolean => exact absurd rfl h
  | any => exact (bind_pure _).symm
  | _ => rfl

end Shape

namespace Outcome

variable {α β : Type} {x : Eval α} {u : State}

theorem ofEval_of_ok {a : α} (h : x .start = .ok a u) : ofEval x = ⟨.ok a, u.log.reverse⟩ := by
  rw [ofEval, h]

theorem ofEval_of_error {e : Error} (h : x .start = .error e u) :
    ofEval x = ⟨.error e, u.log.reverse⟩ := by
  rw [ofEval, h]

theorem ofEval_bind_of_ok {f : α → Eval β} {a : α} (h : x .start = .ok a u) :
    ofEval (x >>= f) = ofEval fun _ => f a u := by
  unfold ofEval
  rw [Eval.bind_of_ok h]

theorem ofEval_bind_of_error {f : α → Eval β} {e : Error} (h : x .start = .error e u) :
    ofEval (x >>= f) = ⟨.error e, u.log.reverse⟩ :=
  ofEval_of_error (Eval.bind_of_error h)

/-- A result that is wrapped and unwrapped is as before. -/
theorem map_ofEval_bind_pure {f : α → β} {g : β → α} (hfg : ∀ a, g (f a) = a) (x : Eval α) :
    (ofEval (x >>= fun a => pure (f a))).map g = ofEval x := by
  cases hx : x .start with
  | ok a u =>
    rw [ofEval_bind_of_ok hx, ofEval_of_ok hx]
    exact congrArg (fun a => (⟨.ok a, u.log.reverse⟩ : Outcome α)) (hfg a)
  | error e u =>
    rw [ofEval_bind_of_error hx, ofEval_of_error hx]
    rfl

end Outcome

/-! ### Answers -/

namespace Engine

/-- What a request answers. -/
def reply {α : Type} (e : Engine) (request : StateM Engine (Outcome α)) : Outcome α :=
  (request.run e).1

/-- The requests answer that these nodes are selected, in this order. -/
structure Selects (e : Engine) (s : SyntaxTree) (target : Target) (selected : List Node)
    (log : List String) : Prop where
  nodes : e.reply (evaluateNodes s target) = ⟨.ok selected, log⟩
  firstNode : e.reply (evaluateFirstNode s target) = ⟨.ok selected.head?, log⟩
  requiredNode : e.reply (evaluateRequiredNode s target) =
    ⟨selected.head?.elim (.error (.nothingSelected s.text)) .ok, log⟩
  requiredNodes : e.reply (evaluateRequiredNodes s target) =
    ⟨if selected = [] then .error (.nothingSelected s.text) else .ok selected, log⟩
  string : e.reply (evaluateString s target) =
    ⟨.ok (selected.head?.elim "" target.view.stringValue), log⟩
  boolean : ∃ logged, e.reply (evaluateBoolean s target) = ⟨.ok (selected ≠ []), logged⟩ ∧
    logged <+: log

/-- The requests for nodes fail. -/
structure DeniesNodes (e : Engine) (s : SyntaxTree) (target : Target) (error : Error)
    (log : List String) : Prop where
  nodes : e.reply (evaluateNodes s target) = ⟨.error error, log⟩
  firstNode : e.reply (evaluateFirstNode s target) = ⟨.error error, log⟩
  requiredNode : e.reply (evaluateRequiredNode s target) = ⟨.error error, log⟩
  requiredNodes : e.reply (evaluateRequiredNodes s target) = ⟨.error error, log⟩

/-- The requests answer with the conversions of a value that is no node-set. -/
structure Converts (e : Engine) (s : SyntaxTree) (target : Target) (v : Value)
    (log : List String) : Prop
    extends DeniesNodes e s target (.resultNotNodeSet v.kind) log where
  string : e.reply (evaluateString s target) = ⟨.ok (v.toText target.view), log⟩
  boolean : ∃ logged, e.reply (evaluateBoolean s target) = ⟨.ok v.toBool, logged⟩ ∧ logged <+: log

/-- The requests fail, but that something is selected may be known before the failure. -/
structure Fails (e : Engine) (s : SyntaxTree) (target : Target) (error : Error)
    (log : List String) : Prop extends DeniesNodes e s target error log where
  string : e.reply (evaluateString s target) = ⟨.error error, log⟩
  number : e.reply (evaluateNumber s target) = ⟨.error error, log⟩
  boolean : e.reply (evaluateBoolean s target) = ⟨.error error, log⟩ ∨
    ∃ logged, e.reply (evaluateBoolean s target) = ⟨.ok true, logged⟩ ∧ logged <+: log

section Replies

variable {e : Engine} (h : e.Reachable) (s : SyntaxTree) (target : Target)

include h

theorem reply_evaluate (shape : Shape) :
    e.reply (evaluate s target shape) = e.answer s target shape :=
  congrArg Prod.fst (run_evaluate h s target shape)

theorem reply_evaluateString : e.reply (evaluateString s target) =
    (e.answer s target .string).map (·.toText target.view) :=
  congrArg (Outcome.map _) (reply_evaluate h s target .string)

theorem reply_evaluateNumber : e.reply (evaluateNumber s target) =
    (e.answer s target .number).map (·.toNumber target.view) :=
  congrArg (Outcome.map _) (reply_evaluate h s target .number)

theorem reply_evaluateBoolean : e.reply (evaluateBoolean s target) =
    (e.answer s target .boolean).map (·.toBool) :=
  congrArg (Outcome.map _) (reply_evaluate h s target .boolean)

theorem reply_evaluateNodes :
    e.reply (evaluateNodes s target) = (e.answer s target .ordered).bind nodesOf :=
  congrArg (Outcome.bind · _) (reply_evaluate h s target .ordered)

theorem reply_evaluateFirstNode : e.reply (evaluateFirstNode s target) =
    ((e.answer s target .first).bind nodesOf).map (·.head?) :=
  congrArg (fun o : Outcome Value => (o.bind nodesOf).map List.head?)
    (reply_evaluate h s target .first)

/-- Requests for nodes fail if finding them in order does, and finding the first one. -/
theorem DeniesNodes.of_answer {error : Error} {log : List String}
    (hordered : e.answer s target .ordered = ⟨.error error, log⟩)
    (hfirst : e.answer s target .first = ⟨.error error, log⟩) :
    e.DeniesNodes s target error log := by
  have hnodes : e.reply (evaluateNodes s target) = ⟨.error error, log⟩ := by
    rw [reply_evaluateNodes h, hordered]
    rfl
  have hfirstNode : e.reply (evaluateFirstNode s target) = ⟨.error error, log⟩ := by
    rw [reply_evaluateFirstNode h, hfirst]
    rfl
  exact ⟨hnodes, hfirstNode, congrArg (Outcome.bind · _) hfirstNode,
    congrArg (Outcome.bind · _) hnodes⟩

end Replies

/-! ### Answers from values -/

section Values

variable {e : Engine} {s : SyntaxTree} {target : Target} {expr : Expr}
  (hs : Expr.ofSyntax s = .ok expr)

include hs

theorem answer_eq (shape : Shape) : e.answer s target shape =
    .ofEval (shape.evaluate (target.interpretation e) expr target.node) := by
  rw [answer, Interpretation.answer, hs]

/-- An answer other than the truth is the converted value. -/
theorem answer_of_ok {v : Value} {u : State}
    (hv : (expr.meaning (target.interpretation e)).value (.alone target.node) .start = .ok v u)
    {shape : Shape} (hshape : shape ≠ .boolean) : e.answer s target shape =
      .ofEval fun _ => shape.convert (target.interpretation e) (.alone target.node) v u := by
  rw [answer_eq hs, Shape.evaluate_eq _ _ _ hshape, Outcome.ofEval_bind_of_ok hv]

theorem answer_of_error {error : Error} {u : State}
    (hv : (expr.meaning (target.interpretation e)).value (.alone target.node) .start =
      .error error u)
    {shape : Shape} (hshape : shape ≠ .boolean) :
    e.answer s target shape = ⟨.error error, u.log.reverse⟩ := by
  rw [answer_eq hs, Shape.evaluate_eq _ _ _ hshape, Outcome.ofEval_bind_of_error hv]

/-- The requests for nodes fail if there are none to convert the value to. -/
theorem DeniesNodes.of_value (h : e.Reachable) {v : Value} {u : State}
    (hv : (expr.meaning (target.interpretation e)).value (.alone target.node) .start = .ok v u)
    (hkind : v.kind ≠ .nodeSet) :
    e.DeniesNodes s target (.resultNotNodeSet v.kind) u.log.reverse := by
  refine .of_answer h s target ?_ ?_ <;> rw [answer_of_ok hs hv (by decide)]
  all_goals
    cases v with
    | nodeSet => exact absurd rfl hkind
    | string | number | boolean => rfl

/-- The number is what the library makes of the value. -/
theorem reply_evaluateNumber_of_ok (h : e.Reachable) {v : Value} {u : State}
    (hv : (expr.meaning (target.interpretation e)).value (.alone target.node) .start = .ok v u) :
    e.reply (evaluateNumber s target) =
      .ofEval fun _ => (target.interpretation e).numberOf (.alone target.node) v u := by
  rw [reply_evaluateNumber h, answer_of_ok hs hv (by decide)]
  exact Outcome.map_ofEval_bind_pure (fun _ => rfl) fun _ =>
    (target.interpretation e).numberOf (.alone target.node) v u

theorem reply_evaluateBoolean_eq (h : e.Reachable) : e.reply (evaluateBoolean s target) =
    .ofEval ((expr.meaning (target.interpretation e)).truth (.alone target.node)) := by
  rw [reply_evaluateBoolean h, answer_eq hs]
  exact Outcome.map_ofEval_bind_pure (fun _ => rfl) _

variable (hL : e.library.Grows)

include hL

/-- The truth is that of the value, and is known no later. -/
theorem reply_evaluateBoolean_of_ok (h : e.Reachable) {v : Value} {u : State}
    (hv : (expr.meaning (target.interpretation e)).value (.alone target.node) .start = .ok v u) :
    ∃ logged, e.reply (evaluateBoolean s target) = ⟨.ok v.toBool, logged⟩ ∧
      logged <+: u.log.reverse := by
  have hforeshadows := foreshadows_truth hL (target.setting e) expr (.alone target.node)
  obtain ⟨t, ht⟩ := hforeshadows.ok hv
  have hlog : t.log <:+ u.log := Eval.after_ok hv ▸ Eval.after_ok ht ▸ hforeshadows.log .start
  rw [reply_evaluateBoolean_eq hs h]
  exact ⟨t.log.reverse, Outcome.ofEval_of_ok ht, List.reverse_prefix.2 hlog⟩

/-- The truth fails as the value does, unless something was selected before. -/
theorem reply_evaluateBoolean_of_error (h : e.Reachable) {error : Error} {u : State}
    (hv : (expr.meaning (target.interpretation e)).value (.alone target.node) .start =
      .error error u) :
    e.reply (evaluateBoolean s target) = ⟨.error error, u.log.reverse⟩ ∨
      ∃ logged, e.reply (evaluateBoolean s target) = ⟨.ok true, logged⟩ ∧
        logged <+: u.log.reverse := by
  have hforeshadows := foreshadows_truth hL (target.setting e) expr (.alone target.node)
  have hlog := hforeshadows.log .start
  rw [reply_evaluateBoolean_eq hs h]
  cases ht : (expr.meaning (target.interpretation e)).truth (.alone target.node) .start with
  | error error' t =>
    obtain ⟨rfl, rfl⟩ := EStateM.Result.error.inj ((hforeshadows.error ht).symm.trans hv)
    exact .inl (Outcome.ofEval_of_error ht)
  | ok b t =>
    have hlog : t.log <:+ u.log := Eval.after_error hv ▸ Eval.after_ok ht ▸ hlog
    cases b with
    | false =>
      obtain ⟨v, hok, -⟩ := hforeshadows.false ht
      cases hok.symm.trans hv
    | true => exact .inr ⟨t.log.reverse, Outcome.ofEval_of_ok ht, List.reverse_prefix.2 hlog⟩

/-- Selected nodes are what the requests answer, in the order they are sorted into. -/
theorem Selects.of_value (h : e.Reachable) {selected : NodeSet} {u : State}
    (hv : (expr.meaning (target.interpretation e)).value (.alone target.node) .start =
      .ok (.nodeSet selected) u)
    (hfirst : target.view.first? selected.nodes = (target.view.sort selected.nodes).head?) :
    e.Selects s target (target.view.sort selected.nodes) u.log.reverse := by
  have hnodes : e.reply (evaluateNodes s target) =
      ⟨.ok (target.view.sort selected.nodes), u.log.reverse⟩ := by
    rw [reply_evaluateNodes h, answer_of_ok hs hv (by decide)]
    rfl
  have hfirstNode : e.reply (evaluateFirstNode s target) =
      ⟨.ok (target.view.sort selected.nodes).head?, u.log.reverse⟩ := by
    rw [reply_evaluateFirstNode h, answer_of_ok hs hv (by decide), ← hfirst]
    show (⟨.ok (target.view.first? selected.nodes).toList.head?, _⟩ : Outcome _) = _
    rw [Option.head?_toList]
    rfl
  have htext : selected.toText target.view =
      (target.view.sort selected.nodes).head?.elim "" target.view.stringValue := by
    rw [NodeSet.toText, NodeSet.first?, hfirst]
    cases (target.view.sort selected.nodes).head? <;> rfl
  have hnil : target.view.sort selected.nodes = [] ↔ selected.nodes = [] := by
    rw [← List.length_eq_zero_iff, (target.view.sort_perm _).length_eq, List.length_eq_zero_iff]
  have hnonempty : (Value.nodeSet selected).toBool =
      decide (target.view.sort selected.nodes ≠ []) := by
    rw [Bool.eq_iff_iff]
    simp [Value.toBool, NodeSet.isEmpty, hnil]
  refine ⟨hnodes, hfirstNode, ?_, ?_, ?_, hnonempty ▸ reply_evaluateBoolean_of_ok hs hL h hv⟩
  · show (e.reply (evaluateFirstNode s target)).bind _ = _
    rw [hfirstNode]
    cases (target.view.sort selected.nodes).head? <;> rfl
  · show (e.reply (evaluateNodes s target)).bind _ = _
    rw [hnodes]
    cases target.view.sort selected.nodes <;> rfl
  · rw [reply_evaluateString h, answer_of_ok hs hv (by decide), ← htext]
    rfl

/-- A value of another kind is converted. -/
theorem Converts.of_value (h : e.Reachable) {v : Value} {u : State}
    (hv : (expr.meaning (target.interpretation e)).value (.alone target.node) .start = .ok v u)
    (hkind : v.kind ≠ .nodeSet) : e.Converts s target v u.log.reverse where
  toDeniesNodes := .of_value hs h hv hkind
  string := by
    rw [reply_evaluateString h, answer_of_ok hs hv (by decide)]
    rfl
  boolean := reply_evaluateBoolean_of_ok hs hL h hv

theorem Fails.of_value (h : e.Reachable) {error : Error} {u : State}
    (hv : (expr.meaning (target.interpretation e)).value (.alone target.node) .start =
      .error error u) : e.Fails s target error u.log.reverse where
  toDeniesNodes := .of_answer h s target (answer_of_error hs hv (by decide))
    (answer_of_error hs hv (by decide))
  string := by
    rw [reply_evaluateString h, answer_of_error hs hv (by decide)]
    rfl
  number := by
    rw [reply_evaluateNumber h, answer_of_error hs hv (by decide)]
    rfl
  boolean := reply_evaluateBoolean_of_error hs hL h hv

end Values

section Answers

variable {e : Engine} {s : SyntaxTree} {target : Target}

/-- A plain answer that is a value is the value of the compiled expression. -/
theorem exists_value_of_answer {v : Value} (h : (e.answer s target .any).result = .ok v) :
    ∃ expr u, Expr.ofSyntax s = .ok expr ∧
      (expr.meaning (target.interpretation e)).value (.alone target.node) .start = .ok v u ∧
      (e.answer s target .any).log = u.log.reverse := by
  cases hs : Expr.ofSyntax s with
  | error error =>
    rw [answer, Interpretation.answer, hs] at h
    cases h
  | ok expr =>
    rw [answer_eq hs] at h ⊢
    cases hv : (expr.meaning (target.interpretation e)).value (.alone target.node) .start with
    | error error u =>
      rw [Outcome.ofEval_of_error (x := Shape.evaluate _ _ _ .any) hv] at h
      cases h
    | ok w u =>
      rw [Outcome.ofEval_of_ok (x := Shape.evaluate _ _ _ .any) hv] at h ⊢
      obtain rfl := Except.ok.inj h
      exact ⟨expr, u, rfl, hv, rfl⟩

/-- A request for nodes answers with the sorted nodes of the node-set that the value is. -/
theorem reply_evaluateNodes_ok_iff (h : e.Reachable) {found : List Node} :
    (e.reply (evaluateNodes s target)).result = .ok found ↔ ∃ expr A u,
      Expr.ofSyntax s = .ok expr ∧
      (expr.meaning (target.interpretation e)).value (.alone target.node) .start =
        .ok (.nodeSet ⟨A⟩) u ∧
      target.view.sort A = found := by
  rw [reply_evaluateNodes h]
  cases hs : Expr.ofSyntax s with
  | error error =>
    rw [answer, Interpretation.answer, hs]
    constructor
    · intro h
      cases h
    · rintro ⟨_, _, _, h, -⟩
      cases h
  | ok expr =>
    cases hv : (expr.meaning (target.interpretation e)).value (.alone target.node) .start with
    | error error u =>
      rw [answer_of_error hs hv (by decide)]
      constructor
      · intro h
        cases h
      · rintro ⟨_, _, _, h, hvalue, -⟩
        cases h
        rw [hv] at hvalue
        cases hvalue
    | ok v u =>
      rw [answer_of_ok hs hv (by decide)]
      cases v with
      | nodeSet set =>
        obtain ⟨A⟩ := set
        constructor
        · intro h
          exact ⟨expr, A, u, rfl, hv, Except.ok.inj h⟩
        · rintro ⟨_, B, w, h, hvalue, rfl⟩
          cases h
          rw [hv] at hvalue
          cases hvalue
          rfl
      | string | number | boolean =>
        constructor
        · intro h
          cases h
        · rintro ⟨_, _, _, h, hvalue, -⟩
          cases h
          rw [hv] at hvalue
          cases hvalue

/-- If the plain answer is an error, all requests fail. -/
theorem Fails.of_answer (hr : e.Reachable) (hL : e.library.Grows) {error : Error}
    (h : (e.answer s target .any).result = .error error) :
    e.Fails s target error (e.answer s target .any).log := by
  cases hs : Expr.ofSyntax s with
  | error error' =>
    have hanswer : ∀ shape, e.answer s target shape = ⟨.error error', []⟩ := fun shape => by
      rw [answer, Interpretation.answer, hs]
    rw [hanswer] at h ⊢
    obtain rfl := Except.error.inj h
    refine ⟨.of_answer hr s target (hanswer _) (hanswer _), ?_, ?_, ?_⟩
    · rw [reply_evaluateString hr, hanswer]
      rfl
    · rw [reply_evaluateNumber hr, hanswer]
      rfl
    · refine .inl ?_
      rw [reply_evaluateBoolean hr, hanswer]
      rfl
  | ok expr =>
    rw [answer_eq hs] at h ⊢
    cases hv : (expr.meaning (target.interpretation e)).value (.alone target.node) .start with
    | ok w u =>
      rw [Outcome.ofEval_of_ok (x := Shape.evaluate _ _ _ .any) hv] at h
      cases h
    | error error' u =>
      rw [Outcome.ofEval_of_error (x := Shape.evaluate _ _ _ .any) hv] at h ⊢
      obtain rfl := Except.error.inj h
      exact .of_value hs hL hr hv

end Answers

end Engine

/-- The requests for results of different kinds tell the same of every expression, whatever an
engine keeps compiled meanwhile.  Let `r` be the plain answer.  If it is a node-set, of nodes of one
well-formed tree, the requests answer with these nodes in strict document order.  If it is another
value they answer with its conversions, to a number as the library converts it.  If it is an error
they fail with it, except that the truth may be known before. -/
theorem requests_agree {engine engine' : Engine} (h : engine.Reachable) (h' : engine'.Reachable)
    (hsame : engine' = { engine with cache := engine'.cache }) (hL : engine.library.Grows)
    (s : SyntaxTree) (target : Target) :
    let r := engine.reply (Engine.evaluate s target .any)
    (∀ selected, r.result = .ok (.nodeSet selected) → selected.nodes.Nodup →
      ∀ {f : Forest} {k : Nat} {t : Tree}, f[k]? = some t → t.WellFormed →
      f.Shows t target.view → (∀ n ∈ selected.nodes, t.HasAt k n) →
      ∃ sorted : List Node, sorted.Perm selected.nodes ∧
        (sorted.Pairwise fun a b => target.view.order a b = .lt) ∧
        engine'.Selects s target sorted r.log) ∧
    (∀ v, r.result = .ok v → v.kind ≠ .nodeSet → engine'.Converts s target v r.log) ∧
    (∀ v, r.result = .ok v → ∃ expr u, Expr.ofSyntax s = .ok expr ∧
      (expr.meaning (target.interpretation engine)).value (.alone target.node) .start = .ok v u ∧
      engine'.reply (Engine.evaluateNumber s target) =
        .ofEval fun _ => (target.interpretation engine).numberOf (.alone target.node) v u) ∧
    ∀ error, r.result = .error error → engine'.Fails s target error r.log := by
  have hplain : engine.reply (Engine.evaluate s target .any) = engine'.answer s target .any := by
    rw [Engine.reply_evaluate h, hsame]
    rfl
  have hL' : engine'.library.Grows := hsame ▸ hL
  have hi : target.interpretation engine = target.interpretation engine' := by
    rw [hsame]
    rfl
  dsimp only
  rw [hplain, hi]
  refine ⟨?_, ?_, ?_, fun error herror => .of_answer h' hL' herror⟩
  · intro selected hr hnodup f k t ht hwf hview hnodes
    obtain ⟨expr, u, hs, hv, hlog⟩ := Engine.exists_value_of_answer hr
    have hranks := hview.ranks ht hwf
    refine ⟨target.view.sort selected.nodes, target.view.sort_perm _,
      hranks.pairwise_sort hnodes hnodup, ?_⟩
    rw [hlog]
    exact .of_value hs hL' h' hv (hranks.first?_eq hnodes)
  · intro v hr hkind
    obtain ⟨expr, u, hs, hv, hlog⟩ := Engine.exists_value_of_answer hr
    rw [hlog]
    exact .of_value hs hL' h' hv hkind
  · intro v hr
    obtain ⟨expr, u, hs, hv, -⟩ := Engine.exists_value_of_answer hr
    exact ⟨expr, u, hs, hv, Engine.reply_evaluateNumber_of_ok hs h' hv⟩

/-- An engine with a variable that has the paragraphs of the sample, the second one first. -/
def Engine.withParagraphs : Engine :=
  Engine.new.withVariable "v" (.nodeSet ⟨[⟨0, 8⟩, ⟨0, 1⟩]⟩)

/-- The document of the sample. -/
def Target.sample : Target := ⟨Forest.indexed [.sample], ⟨0, 0⟩, none, .none⟩

/-- The children that two siblings follow, or that a variable without a value keeps. -/
def SyntaxTree.followedOrUnknown : SyntaxTree :=
  .relative [.step none .wildcard [.predicate (.binary .or
    (.relative (List.replicate 2 (.step (some "following-sibling") .wildcard [])))
    (.variableReference "w"))]]

/-- Both paragraphs are answered in document order, after a request that left the variable compiled.
A string is no node-set, and converts to a number.  That a child is selected is known before another
one leads to the variable without a value. -/
theorem requests_agree_sample :
    let engine := Engine.withParagraphs
    let engine' := ((Engine.evaluate (.variableReference "v") .sample .any).run engine).2
    (engine.reply (Engine.evaluate (.variableReference "v") .sample .any)).result =
      .ok (.nodeSet ⟨[⟨0, 8⟩, ⟨0, 1⟩]⟩) ∧
    (∃ sorted : List Node, sorted.Perm [⟨0, 8⟩, ⟨0, 1⟩] ∧
      (sorted.Pairwise fun a b => Target.sample.view.order a b = .lt) ∧
      engine'.Selects (.variableReference "v") .sample sorted []) ∧
    engine'.Converts (.string "x") .sample (.string "x") [] ∧
    (∃ expr u, Expr.ofSyntax (.string "x") = .ok expr ∧
      (expr.meaning (Target.sample.interpretation engine)).value (.alone ⟨0, 0⟩) .start =
        .ok (.string "x") u ∧
      engine'.reply (Engine.evaluateNumber (.string "x") .sample) =
        .ofEval fun _ =>
          (Target.sample.interpretation engine).numberOf (.alone ⟨0, 0⟩) (.string "x") u) ∧
    (∃ log, engine'.Fails .followedOrUnknown .sample (.unknownVariable "w") log) ∧
    (engine'.reply (Engine.evaluateBoolean .followedOrUnknown .sample)).result = .ok true := by
  have h : Engine.withParagraphs.Reachable := .withVariable .new _ _
  have h' := h.evaluate (.variableReference "v") .sample .any
  have hagree := requests_agree h h' rfl Registry.grows_core
  have hnodes : ∀ n ∈ ([⟨0, 8⟩, ⟨0, 1⟩] : List Node), Tree.sample.HasAt 0 n := by
    unfold Tree.HasAt
    decide
  have hfails : (Engine.withParagraphs.reply
      (Engine.evaluate .followedOrUnknown .sample .any)).result =
        .error (.unknownVariable "w") := by
    have hunit : (Engine.withParagraphs.reply
        (Engine.evaluate .followedOrUnknown .sample .any)).result.map (fun _ => ()) =
          .error (.unknownVariable "w") := by decide +kernel
    revert hunit
    cases (Engine.withParagraphs.reply
      (Engine.evaluate .followedOrUnknown .sample .any)).result <;> simp [Except.map]
  obtain ⟨hselects, -⟩ := hagree (.variableReference "v") .sample
  obtain ⟨-, hconverts, hnumber, -⟩ := hagree (.string "x") .sample
  obtain ⟨-, -, -, herror⟩ := hagree .followedOrUnknown .sample
  refine ⟨rfl, ?_, hconverts _ rfl (by decide), hnumber _ rfl, ⟨_, herror _ hfails⟩,
    by decide +kernel⟩
  exact hselects _ rfl (by decide) (f := [.sample]) (k := 0) rfl (by decide) .indexed hnodes

end XPath
