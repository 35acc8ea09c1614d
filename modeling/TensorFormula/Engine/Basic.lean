import TensorFormula.Engine.Settings
import TensorFormula.Formula.Evaluate
import TensorFormula.Formula.Parse

/-!
# The engine

An engine compiles formulas and evaluates them. Compiled trees are kept by the text of their formula
in the order in which they came, until the cache is full; a text that is not kept is compiled anew
each time. Every compilation that makes a tree gives it a mark of its own, so that marks tell
whether two trees are one and the same.
-/

namespace TensorFormula

/-- A tree with the mark of the compilation that made it. -/
structure Compiled where
  tree : Node
  mark : Nat

/-- The cache is a list of formulas and their trees, the oldest first, and `made` the next mark. -/
structure Engine (α : Type) where
  settings : Settings
  cache : List (String × Compiled)
  made : Nat

namespace Engine

variable {α : Type}

def ofSettings (s : Settings) : Engine α := ⟨s, [], 0⟩

/-- An engine with the given settings, if they are valid. -/
def create (s : Settings) : Except SettingsFault (Engine α) := s.validate.map ofSettings

def standard : Engine α := ofSettings .standard

/-- The number of formulas that are kept. -/
def cacheSize (e : Engine α) : Nat := e.cache.length

def clearCache (e : Engine α) : Engine α := { e with cache := [] }

def cached? (e : Engine α) (formula : String) : Option Compiled := e.cache.lookup formula

/-- Takes note of a new tree, which is kept if the cache is on and has room. -/
def remember (e : Engine α) (formula : String) (c : Compiled) : Engine α :=
  if e.settings.cacheFormulas ∧ e.cache.length < e.settings.cacheCapacity then
    { e with cache := e.cache ++ [(formula, c)], made := e.made + 1 }
  else { e with made := e.made + 1 }

/-- Compiles a formula that is not kept. -/
def compileAnew (e : Engine α) (formula : String) : Except FormulaFault Compiled × Engine α :=
  match parse formula with
  | .error f => (.error f, e)
  | .ok tree => (.ok ⟨tree, e.made⟩, e.remember formula ⟨tree, e.made⟩)

/-- The tree of a formula, and the engine afterwards. -/
def compile (e : Engine α) (formula : String) : Except FormulaFault Compiled × Engine α :=
  match e.cached? formula with
  | some c => (.ok c, e)
  | none => e.compileAnew formula

variable [Element α]

/-- The slope of the leaky functions without a parameter, in the width of the elements. -/
def slope (e : Engine α) : α := Element.ofDouble e.settings.leakySlope

/-- The value of a formula, `%0` being the first operand, and the engine afterwards. -/
def evaluate (e : Engine α) (formula : String) (operands : List (Tensor α)) :
    Except FormulaFault (Tensor α) × Engine α :=
  match e.compile formula with
  | (.error f, e') => (.error f, e')
  | (.ok c, e') => (c.tree.evaluate operands e.slope, e')

/-- The value of a formula in which `%0` stands for the receiver. -/
def calculate (e : Engine α) (receiver : Tensor α) (formula : String) (operands : List (Tensor α)) :
    Except FormulaFault (Tensor α) × Engine α :=
  e.evaluate formula (receiver :: operands)

end Engine

/-- The value of a formula under the standard settings, `%0` standing for the tensor itself. -/
def Tensor.calculate {α : Type} [Element α] (t : Tensor α) (formula : String)
    (operands : List (Tensor α)) : Except FormulaFault (Tensor α) :=
  (Engine.standard.calculate t formula operands).1

end TensorFormula
