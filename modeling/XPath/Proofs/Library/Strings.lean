/-
Calls of functions of strings.

A function of strings evaluates its arguments, the first one first, and applies an operation on
texts to their strings.  So what is known of the operation is known of the calls.

* `Expr.text`, `Expr.numeral` — an expression as a string and as a number;
* `Expr.value_ofStrings` — a call of a function of two strings;
* `Expr.value_substring`, `Expr.value_substring_from` — calls of `substring`;
* `Expr.value_normalizeSpace`, `Expr.value_normalizeSpace_context` — calls of `normalize-space`.
-/
import XPath.Proofs.Evaluation.Literal
import XPath.Proofs.Library.Replacement

namespace XPath

/-- An expression as a string, with the core functions. -/
def Expr.text (σ : Setting) (e : Expr) (c : Context) : Eval String := do
  return (← (e.meaning (.standard Registry.core.library σ)).value c).toText σ.view

/-- An expression as a number, with the core functions. -/
def Expr.numeral (σ : Setting) (e : Expr) (c : Context) : Eval Float := do
  return (← (e.meaning (.standard Registry.core.library σ)).value c).toNumber σ.view

/-- The characters that `substring` keeps: both numbers are rounded, and added up if there are
two. -/
def Text.substring (s : String) (start : Float) (length? : Option Float) : String :=
  between s (Number.round start)
    (match length? with
      | some length => Number.round start + Number.round length
      | none => Number.infinity false)

/-- A string that is written out. -/
theorem Expr.text_string (σ : Setting) (s : String) (c : Context) :
    (Expr.string s).text σ c = pure s := by
  rw [text, meaning]
  rfl

namespace Expr

variable (σ : Setting) (c : Context)

/-- A function of two strings evaluates both. -/
theorem value_ofStrings {name : String} {f : String → String → Value}
    (h : Registry.core.find? ⟨none, name⟩ = some (Core.ofStrings name f)) (a b : Expr) :
    ((call ⟨none, name⟩ [a, b]).meaning (.standard Registry.core.library σ)).value c = do
      let s ← a.text σ c
      let t ← b.text σ c
      return f s t := by
  rw [meaning, meanings, meanings, meanings,
    Meaning.value_call (i := .standard Registry.core.library σ) h]
  rfl

/-- The core functions convert their arguments as values convert. -/
theorem call_number (arguments : List Argument) (a : Expr) :
    Call.number ⟨σ, c, arguments, Registry.core.library.numberOf σ⟩
      (a.meaning (.standard Registry.core.library σ)).toArgument = a.numeral σ c := by
  rw [Core.call_number fun d v => Registry.numberOf_core σ d v]
  simp only [Value.toNumberBy_read]
  rfl

/-- The operators of the core functions convert their operands as values convert. -/
theorem operatorsRead_core :
    (Interpretation.standard Registry.core.library σ).OperatorsRead Number.read :=
  Interpretation.operatorsRead (i := .standard Registry.core.library σ) (Registry.numberOf_core σ)

theorem numeral_negate (e : Expr) :
    (negate e).numeral σ c = do return -(← e.numeral σ c) := by
  rw [numeral, (operatorsRead_core σ).negate, numeral]
  simp only [bind_assoc, pure_bind, Value.toNumberBy_read]
  rfl

theorem numeral_arithmetic (op : Arithmetic) (l r : Expr) :
    (arithmetic op l r).numeral σ c = do
      let x ← l.numeral σ c
      if x.isNaN then return Number.nan
      return op.apply x (← r.numeral σ c) := by
  rw [numeral, (operatorsRead_core σ).arithmetic]
  simp only [numeral, bind_assoc, pure_bind, Value.toNumberBy_read]
  refine congrArg _ (funext fun v => ?_)
  split
  · next h => exact (if_pos h).symm
  · next h => exact (bind_assoc _ _ _).trans (if_neg h).symm

theorem value_substring (a start length : Expr) :
    ((call ⟨none, "substring"⟩ [a, start, length]).meaning
      (.standard Registry.core.library σ)).value c = do
        let s ← a.text σ c
        let x ← start.numeral σ c
        let y ← length.numeral σ c
        return .string (Text.substring s x (some y)) := by
  rw [meaning, meanings, meanings, meanings, meanings, Meaning.value_call (f := Core.substring) rfl,
    ← call_number σ c _ start, ← call_number σ c _ length]
  rfl

/-- Without a length all that follows is kept. -/
theorem value_substring_from (a start : Expr) :
    ((call ⟨none, "substring"⟩ [a, start]).meaning
      (.standard Registry.core.library σ)).value c = do
        let s ← a.text σ c
        let x ← start.numeral σ c
        return .string (Text.substring s x none) := by
  rw [meaning, meanings, meanings, meanings, Meaning.value_call (f := Core.substring) rfl,
    ← call_number σ c _ start]
  rfl

theorem value_normalizeSpace (a : Expr) :
    ((call ⟨none, "normalize-space"⟩ [a]).meaning
      (.standard Registry.core.library σ)).value c = do
        return .string (Text.normalizeSpace (← a.text σ c)) := by
  rw [meaning, meanings, meanings, Meaning.value_call (f := Core.normalizeSpace) rfl]
  rfl

/-- Without an argument it is about the string-value of the context node. -/
theorem value_normalizeSpace_context :
    ((call ⟨none, "normalize-space"⟩ []).meaning
      (.standard Registry.core.library σ)).value c =
        pure (.string (Text.normalizeSpace (σ.view.stringValue c.node))) := by
  rw [meaning, meanings, Meaning.value_call (f := Core.normalizeSpace) rfl]
  rfl

end Expr

end XPath
