import TensorFormula.Engine.Basic

/-!
# Histories of an engine

What is asked of an engine one after another, and its replies.
-/

namespace TensorFormula

inductive Call (α : Type)
  | compile (formula : String)
  | evaluate (formula : String) (operands : List (Tensor α))
  | calculate (receiver : Tensor α) (formula : String) (operands : List (Tensor α))
  | clear

inductive Reply (α : Type)
  | compiled (result : Except FormulaFault Compiled)
  | evaluated (result : Except FormulaFault (Tensor α))
  | cleared

namespace Engine

variable {α : Type} [Element α]

def answer (e : Engine α) : Call α → Reply α × Engine α
  | .compile formula =>
      let (result, e) := e.compile formula
      (.compiled result, e)
  | .evaluate formula operands =>
      let (result, e) := e.evaluate formula operands
      (.evaluated result, e)
  | .calculate receiver formula operands =>
      let (result, e) := e.calculate receiver formula operands
      (.evaluated result, e)
  | .clear => (.cleared, e.clearCache)

/-- The replies to a list of calls, and the engine after the last one. -/
def replies (e : Engine α) : List (Call α) → List (Reply α) × Engine α
  | [] => ([], e)
  | c :: cs =>
      let (r, e) := e.answer c
      let (rs, e) := e.replies cs
      (r :: rs, e)

end Engine

end TensorFormula
