/-
Replacing the conversion to numbers.

A function that is put in the place of `number` decides how strings become numbers everywhere: in
arithmetic and comparisons, in the arguments of functions, in sums and in results.
To say so, the conversion is written into an evaluator of its own, `Interpretation.reading`, whose
functions convert by themselves and ask no library.  With the conversion that values have it is the
evaluator of the core functions; with another one it is that of a library in which `number` is
replaced, as long as `number` itself is not called.

* `Value.toNumberBy`, `Registry.reading`, `Interpretation.reading` — conversion by a given function
  on strings;
* `Registry.converting` — the core functions with `number` replaced;
* `Registry.numberOf_converting` — it converts by that function;
* `Registry.agreeOn_converting`, `Registry.agreeOn_core` — both evaluators are the one that reads;
* `replaced_number_converts` — the same of requests.
-/
import XPath.Library.Extension
import XPath.Proofs.Evaluation.Calls
import XPath.Proofs.Query.Requests
import XPath.Proofs.Value.Comparison

namespace XPath

/-! ### Reading strings in a given way -/

/-- The number that a value converts to, if strings are read by `read`. -/
def Value.toNumberBy (read : String → Float) (v : View) : Value → Float
  | nodeSet s => read (s.toText v)
  | string s => read s
  | number x => x
  | boolean b => if b then 1 else 0

theorem Value.toNumberBy_read (v : View) (value : Value) :
    value.toNumberBy Number.read v = value.toNumber v := by
  cases value <;> rfl

namespace Core

variable (read : String → Float)

/-- `number(object?)`. -/
def numberBy : Function := .optional "number" fun c a => do
  match a with
  | some a => return .number ((← a.value c.context).toNumberBy read c.view)
  | none => return .number (read (c.view.stringValue c.context.node))

/-- `sum(nodes)`. -/
def sumBy : Function := .unary "sum" fun c a => do
  let nodes := (← c.nodes "sum" a).nodes
  return .number (nodes.foldl (fun total n => total + read (c.view.stringValue n)) 0)

/-- A function of one number. -/
def ofNumberBy (name : String) (f : Float → Float) : Function := .unary name fun c a => do
  return .number (f ((← a.value c.context).toNumberBy read c.view))

/-- `substring(string, number, number?)`. -/
def substringBy : Function := .twoOrThree "substring" fun c a start length? => do
  let s ← c.string a
  let first := Number.round ((← start.value c.context).toNumberBy read c.view)
  let stop ← match length? with
    | some length => do
      pure (first + Number.round ((← length.value c.context).toNumberBy read c.view))
    | none => pure (Number.infinity false)
  return .string (Text.between s first stop)

end Core

namespace Registry

/-- The core functions that convert to numbers, reading strings by `read`. -/
def readers (read : String → Float) : List (String × Function) :=
  [("number", Core.numberBy read), ("sum", Core.sumBy read),
   ("floor", Core.ofNumberBy read "floor" Number.floor),
   ("ceiling", Core.ofNumberBy read "ceiling" Number.ceiling),
   ("round", Core.ofNumberBy read "round" Number.round), ("substring", Core.substringBy read)]

/-- The core functions, reading strings by `read`. -/
def reading (read : String → Float) : Registry :=
  (readers read).foldl (fun r (name, f) => r.add ⟨none, name⟩ f) core

/-- The core functions, with `number` replaced by a function of the string of its argument or of the
context node. -/
def converting (f : String → Float) : Registry :=
  core.add ⟨none, "number"⟩ (Extension.onString fun _ s => pure (.number (f s)))

/-- A function that is added is found under its name, and no other one changes. -/
theorem find?_add (r : Registry) (name name' : QName) (f : Function) :
    (r.add name f).find? name' = if name' = name then some f else r.find? name' := by
  unfold add find?
  rw [List.lookup_append]
  by_cases h : name' = name
  · subst h
    have hnone : (r.entries.filter (·.1 ≠ name')).lookup name' = none := by
      refine List.lookup_eq_none_iff.2 fun p hp => ?_
      exact bne_iff_ne.2 (Ne.symm (of_decide_eq_true (List.mem_filter.1 hp).2))
    rw [hnone, if_pos rfl, Option.none_or, List.lookup_cons_self]
  · have hsame : (r.entries.filter (·.1 ≠ name)).lookup name' = r.entries.lookup name' := by
      induction r.entries with
      | nil => rfl
      | cons p rest ih =>
        obtain ⟨other, g⟩ := p
        by_cases ho : other = name
        · subst ho
          rw [List.filter_cons_of_neg (by simp), ih, List.lookup_cons, beq_false_of_ne h]
        · rw [List.filter_cons_of_pos (by simpa using ho), List.lookup_cons, List.lookup_cons, ih]
    rw [hsame, if_neg h, List.lookup_cons, beq_false_of_ne h]
    exact Option.or_none

end Registry

/-- The evaluator of the core functions in which every string is read by `read`. -/
def Interpretation.reading (read : String → Float) (σ : Setting) : Interpretation where
  setting := σ
  library := (Registry.reading read).library
  numberOf := fun _ v => pure (v.toNumberBy read σ.view)
  path := Path.meaning σ

/-! ### Functions that convert -/

/-- A call that converts to numbers by reading strings. -/
def Call.Reads (read : String → Float) (c : Call) : Prop :=
  ∀ d v, c.numberOf d v = pure (v.toNumberBy read c.view)

theorem Call.Reads.numberOf_eq {read : String → Float} {c : Call} (h : c.Reads read) (d : Context)
    (v : Value) : c.numberOf d v = pure (v.toNumberBy read c.view) :=
  h d v

namespace Core

variable {read : String → Float} {c : Call}

theorem numberBy_read : numberBy Number.read = number := by
  unfold numberBy number
  refine congrArg (Function.optional "number") (funext fun c => funext fun a => ?_)
  cases a with
  | none => rfl
  | some a => simp only [Value.toNumberBy_read]

theorem call_number (h : c.Reads read) (a : Argument) :
    c.number a = do return (← a.value c.context).toNumberBy read c.view := by
  unfold Call.number
  simp only [h.numberOf_eq]

theorem ofNumber_eq (h : c.Reads read) (name : String) (f : Float → Float) :
    ofNumber name f c = ofNumberBy read name f c := by
  unfold ofNumber ofNumberBy Function.unary
  simp only [call_number h, bind_assoc, pure_bind]

theorem substring_eq (h : c.Reads read) : substring c = substringBy read c := by
  unfold substring substringBy Function.twoOrThree
  simp only [call_number h, bind_assoc, pure_bind]

theorem sum_eq (h : c.Reads read) : sum c = sumBy read c := by
  unfold sum sumBy Function.unary
  simp only [h.numberOf_eq, Value.toNumberBy, pure_bind, List.foldlM_pure]

end Core

namespace Registry

variable {read : String → Float}

/-- Calls of core functions do the same as calls of functions that read by themselves, if they
convert by reading. -/
theorem map_find?_reading {c : Call} (h : c.Reads read) {name : QName}
    (hnumber : name ≠ ⟨none, "number"⟩) :
    (core.find? name).map (· c) = ((reading read).find? name).map (· c) := by
  unfold reading readers
  simp only [List.foldl_cons, List.foldl_nil, find?_add]
  split_ifs with hsubstring hround hceiling hfloor hsum
  · subst hsubstring
    exact congrArg some (Core.substring_eq h)
  · subst hround
    exact congrArg some (Core.ofNumber_eq h _ _)
  · subst hceiling
    exact congrArg some (Core.ofNumber_eq h _ _)
  · subst hfloor
    exact congrArg some (Core.ofNumber_eq h _ _)
  · subst hsum
    exact congrArg some (Core.sum_eq h)
  · rfl

theorem find?_reading_number :
    (reading read).find? ⟨none, "number"⟩ = some (Core.numberBy read) := by
  unfold reading readers
  simp [find?_add]

/-- A replaced `number` converts every value by the function that it was made from. -/
theorem numberOf_converting (f : String → Float) (σ : Setting) (c : Context) (v : Value) :
    (converting f).library.numberOf σ c v = pure (v.toNumberBy f σ.view) := by
  have hfind : (converting f).find? ⟨none, "number"⟩ =
      some (Extension.onString fun _ s => pure (.number (f s))) := by
    unfold converting
    rw [find?_add, if_pos rfl]
  unfold Library.numberOf library
  rw [hfind]
  cases v <;> rfl

theorem numberOf_core (σ : Setting) (c : Context) (v : Value) :
    core.library.numberOf σ c v = pure (v.toNumberBy Number.read σ.view) := by
  cases v <;> rfl

/-- With `number` replaced, the evaluator reads strings, but for calls of `number`. -/
theorem agreeOn_converting (f : String → Float) (σ : Setting) :
    (Interpretation.standard (converting f).library σ).AgreeOn (· ≠ ⟨none, "number"⟩)
      (.reading f σ) := by
  have hnumberOf : (Interpretation.standard (converting f).library σ).numberOf =
      (Interpretation.reading f σ).numberOf :=
    funext fun c => funext fun v => numberOf_converting f σ c v
  refine ⟨rfl, hnumberOf, rfl, fun name hname => ?_⟩
  refine Meaning.call_congr hnumberOf rfl fun c arguments => ?_
  show ((converting f).find? name).map _ = ((reading f).find? name).map _
  rw [converting, find?_add, if_neg hname]
  exact map_find?_reading (fun d v => numberOf_converting f σ d v) hname

/-- The core functions read strings as values convert. -/
theorem agreeOn_core (σ : Setting) :
    (Interpretation.standard core.library σ).AgreeOn (fun _ => True)
      (.reading Number.read σ) := by
  have hnumberOf : (Interpretation.standard core.library σ).numberOf =
      (Interpretation.reading Number.read σ).numberOf :=
    funext fun c => funext fun v => numberOf_core σ c v
  refine ⟨rfl, hnumberOf, rfl, fun name _ => ?_⟩
  refine Meaning.call_congr hnumberOf rfl fun c arguments => ?_
  show (core.find? name).map _ = ((reading Number.read).find? name).map _
  by_cases hname : name = ⟨none, "number"⟩
  · have hnumber : core.find? ⟨none, "number"⟩ = some Core.number := rfl
    rw [hname, hnumber, find?_reading_number, Core.numberBy_read]
  · exact map_find?_reading (fun d v => numberOf_core σ d v) hname

end Registry

/-! ### Operators and requests -/

/-- The operators of an interpretation convert to numbers by reading strings by `read`. -/
structure Interpretation.OperatorsRead (read : String → Float) (i : Interpretation) : Prop where
  negate : ∀ e c, ((Expr.negate e).meaning i).value c = do
    return .number (-(← (e.meaning i).value c).toNumberBy read i.setting.view)
  arithmetic : ∀ op l r c, ((Expr.arithmetic op l r).meaning i).value c = do
    let x := (← (l.meaning i).value c).toNumberBy read i.setting.view
    if x.isNaN then return .number Number.nan
    let y := (← (r.meaning i).value c).toNumberBy read i.setting.view
    return .number (op.apply x y)
  compare : ∀ op l r c, ((Expr.compare op l r).meaning i).value c = do
    let a ← (l.meaning i).value c
    let b ← (r.meaning i).value c
    return .boolean (op.answer i.setting.view (·.toNumberBy read i.setting.view) a b)

theorem Interpretation.operatorsRead {read : String → Float} {i : Interpretation}
    (h : ∀ c v, i.numberOf c v = pure (v.toNumberBy read i.setting.view)) :
    i.OperatorsRead read where
  negate e c := by
    rw [Expr.meaning]
    unfold Meaning.negation Meaning.ofValue
    simp only [h, pure_bind]
  arithmetic op l r c := by
    rw [Expr.meaning]
    unfold Meaning.arithmetic Meaning.ofValue
    simp only [h, pure_bind]
  compare op l r c := by
    have hc : i.numberOf c = fun v => pure (v.toNumberBy read i.setting.view) := funext (h c)
    rw [Expr.meaning]
    unfold Meaning.comparison Meaning.ofValue
    simp only [hc, Comparison.holdsWith_pure, pure_bind]

/-- Interpretations that agree on the functions that an expression calls answer alike. -/
theorem Interpretation.answer_congr {P : QName → Prop} {i j : Interpretation} (h : i.AgreeOn P j)
    {s : SyntaxTree} (hs : ∀ e, Expr.ofSyntax s = .ok e → ∀ name ∈ e.calls, P name) (n : Node)
    (shape : Shape) : i.answer s n shape = j.answer s n shape := by
  unfold answer
  cases he : Expr.ofSyntax s with
  | error error => rfl
  | ok e => exact congrArg Outcome.ofEval (Shape.evaluate_congr h (hs e he) n shape)

/-- An answer to a request for a number is a number, however a value would be converted to one. -/
theorem Interpretation.map_answer_number (i : Interpretation) (s : SyntaxTree) (n : Node)
    {g g' : Value → Float} (h : ∀ x, g (.number x) = x) (h' : ∀ x, g' (.number x) = x) :
    (i.answer s n .number).map g = (i.answer s n .number).map g' := by
  unfold answer
  cases Expr.ofSyntax s with
  | error e => rfl
  | ok e =>
    have hnumber : Shape.number.evaluate i e n =
        ((e.meaning i).value (.alone n) >>= i.numberOf (.alone n)) >>=
          fun x => pure (Value.number x) := by
      rw [bind_assoc]
      rfl
    dsimp only
    rw [hnumber, Outcome.map_ofEval_bind_pure h, Outcome.map_ofEval_bind_pure h']

/-- Let `number` be replaced by a function of the string of its argument, or of the context node,
that reads it by `f`, whatever `f` is.  Then every expression that does not call `number` means what
it means to the evaluator in which every conversion of a string or a node-set reads by `f`; requests
for results of any kind are answered as this evaluator answers them; and the operators read by `f`,
also in comparisons, which ask what their table says of the numbers that `f` reads.  The core
functions are that evaluator with the conversion that values have. -/
theorem replaced_number_converts (f : String → Float) :
    (∀ (σ : Setting) (e : Expr), ⟨none, "number"⟩ ∉ e.calls →
      e.meaning (.standard (Registry.converting f).library σ) = e.meaning (.reading f σ)) ∧
    (∀ (engine : Engine), engine.Reachable → ∀ (s : SyntaxTree) (target : Target),
      (∀ e, Expr.ofSyntax s = .ok e → ⟨none, "number"⟩ ∉ e.calls) →
      let replaced := engine.withLibrary (Registry.converting f).library
      let reading := Interpretation.reading f (target.setting engine)
      (∀ shape, replaced.reply (Engine.evaluate s target shape) =
        reading.answer s target.node shape) ∧
      replaced.reply (Engine.evaluateNumber s target) =
        (reading.answer s target.node .number).map (·.toNumberBy f target.view)) ∧
    (∀ σ : Setting,
      (Interpretation.standard (Registry.converting f).library σ).OperatorsRead f) ∧
    (∀ (v : View) (op : Comparison) (a b : Value),
      op.answer v (·.toNumberBy f v) a b = true ↔ op.Asks v (·.toNumberBy f v) a b) ∧
    (∀ (σ : Setting) (e : Expr),
      e.meaning (.standard Registry.core.library σ) = e.meaning (.reading Number.read σ)) ∧
    ∀ (engine : Engine), engine.Reachable → ∀ (s : SyntaxTree) (target : Target) (shape : Shape),
      (engine.withLibrary Registry.core.library).reply (Engine.evaluate s target shape) =
        (Interpretation.reading Number.read (target.setting engine)).answer s target.node
          shape := by
  have hother : ∀ {e : Expr}, ⟨none, "number"⟩ ∉ e.calls →
      ∀ name ∈ e.calls, name ≠ ⟨none, "number"⟩ :=
    fun he _ hname => ne_of_mem_of_not_mem hname he
  refine ⟨fun σ e he => e.meaning_congr (Registry.agreeOn_converting f σ) (hother he), ?_,
    fun σ => Interpretation.operatorsRead (Registry.numberOf_converting f σ),
    fun v op a b => op.answer_iff fun _ => rfl,
    fun σ e => e.meaning_congr (Registry.agreeOn_core σ) fun _ _ => trivial, ?_⟩
  · intro engine hengine s target hs
    have hanswer := Interpretation.answer_congr
      (Registry.agreeOn_converting f (target.setting engine)) (fun e he => hother (hs e he))
      target.node
    have hreachable := hengine.withLibrary (Registry.converting f).library
    refine ⟨fun shape =>
      (Engine.reply_evaluate hreachable s target shape).trans (hanswer shape), ?_⟩
    rw [Engine.reply_evaluateNumber hreachable]
    refine (congrArg (Outcome.map _) (hanswer .number)).trans ?_
    exact Interpretation.map_answer_number _ s target.node (fun _ => rfl) fun _ => rfl
  · intro engine hengine s target shape
    refine (Engine.reply_evaluate (hengine.withLibrary _) s target shape).trans ?_
    exact Interpretation.answer_congr (Registry.agreeOn_core (target.setting engine))
      (fun _ _ _ _ => trivial) target.node shape

/-- Reads a string as the number of its characters. -/
def Number.ofLength (s : String) : Float := Number.ofNat s.length

/-- With the length of strings for `number`, the negated string `abc` is minus its length. -/
theorem replaced_number_converts_length :
    let e : Expr := .negate (.string "abc")
    let replaced := Engine.new.withLibrary (Registry.converting Number.ofLength).library
    ⟨none, "number"⟩ ∉ e.calls ∧ Engine.new.Reachable ∧
    Expr.ofSyntax (.negate (.string "abc")) = .ok e ∧
    e.meaning (.standard (Registry.converting Number.ofLength).library (.ofTree .sample)) =
      e.meaning (.reading Number.ofLength (.ofTree .sample)) ∧
    replaced.reply (Engine.evaluate (.negate (.string "abc")) .sample .any) =
      ⟨.ok (.number (-Number.ofLength "abc")), []⟩ := by
  have hcalls : ⟨none, "number"⟩ ∉ (Expr.negate (.string "abc")).calls := List.not_mem_nil
  have hcompiled : Expr.ofSyntax (.negate (.string "abc")) = .ok (.negate (.string "abc")) := rfl
  obtain ⟨hmeaning, hanswer, -⟩ := replaced_number_converts Number.ofLength
  refine ⟨hcalls, .new, hcompiled, hmeaning _ _ hcalls, ?_⟩
  obtain ⟨hreply, -⟩ := hanswer .new .new (.negate (.string "abc")) .sample fun e he =>
    Except.ok.inj (hcompiled.symm.trans he) ▸ hcalls
  have hvalue : ((Expr.negate (.string "abc")).meaning
      (.reading Number.ofLength (Target.sample.setting .new))).value (.alone ⟨0, 0⟩) .start =
        .ok (.number (-Number.ofLength "abc")) .start := by
    simp only [Expr.meaning, Meaning.negation, Meaning.ofValue, Interpretation.reading, pure_bind,
      Value.toNumberBy]
    rfl
  rw [hreply, Interpretation.answer, hcompiled]
  exact Outcome.ofEval_of_ok hvalue

end XPath
