import TensorFormula.Formula.Dump
import TensorFormula.Formula.Token

/-!
# Listings of formulas

What is shown of a formula that is parsed only: its tokens with their offsets, and then its tree.
-/

namespace TensorFormula.Command

/-- A text filled with blanks up to a width. -/
def padded (width : Nat) (text : String) : String :=
  text ++ String.ofList (List.replicate (width - text.length) ' ')

def lines (ls : List String) : String := String.join (ls.map fun l => l ++ "\n")

def tokenLine (t : Placed) : String :=
  "  " ++ padded 8 (toString t.offset) ++ " " ++ t.token.describe

def tokenTable (formula : String) (tokens : List Placed) : String :=
  lines (["  Formula: " ++ formula, "", "  " ++ padded 8 "Offset" ++ " Token",
    "  " ++ String.ofList (List.replicate 40 '-')] ++ tokens.map tokenLine ++ [""])

def operandRange : Option Nat → String
  | none => "none"
  | some i => "%0..%" ++ toString i

def treeSummary (n : Node) : String :=
  lines ["  Nodes:      " ++ toString n.count, "  Operands:   " ++ operandRange n.highestOperand?,
    "  Canonical:  " ++ n.toText, ""] ++ n.dump

end TensorFormula.Command
