import TensorFormula.Formula.Node
import TensorFormula.Number.Layout

/-!
# Canonical text

The text of a tree has one spelling for each construct, and brackets only where the tree would
otherwise be read differently: around a chain inside a chain that binds at least as tightly, around
what is not a term behind a minus or before a suffix, and around a constant before a suffix.
-/

namespace TensorFormula

def natText (n : Nat) : List Char := Nat.toDigits 10 n

/-- The shortest decimal of a double, without an exponent. -/
def plainText (v : Float) : List Char := Layout.plain.text .double (Element.bits v)

def bracket (needed : Bool) (cs : List Char) : List Char :=
  if needed then '(' :: (cs ++ [')']) else cs

namespace Node

/-- Chains and negations are no terms. -/
def isCompound : Node → Bool
  | negate _ => true
  | chain .. => true
  | _ => false

def isConstant : Node → Bool
  | constant _ => true
  | _ => false

/-- Whether an operand of a chain of the given rank is put in brackets. -/
def needsBrackets (outer : Rank) : Node → Bool
  | chain .sum _ _ => true
  | chain .product _ _ => outer == .product
  | _ => false

/-- The separator before the next operand; a chain built by hand may lack the operator. -/
def linkText : List Operator → List Char
  | [] => [' ', '?', ' ']
  | o :: _ => [' ', o.symbol, ' ']

mutual

def text : Node → List Char
  | constant v => plainText v
  | operand i => '%' :: natText i
  | negate n => '-' :: bracket n.isCompound n.text
  | chain _ [] _ => []
  | chain r (n :: ns) os => bracket (n.needsBrackets r) n.text ++ textLinks r ns os
  | apply op [n] =>
      if op.family = .shape then
        bracket (n.isCompound || n.isConstant) n.text ++ '.' :: op.letters
      else op.letters ++ '(' :: (n.text ++ [')'])
  | apply op [] => op.letters ++ ['(', ')']
  | apply op (n :: ns) => op.letters ++ '(' :: (n.text ++ textArguments ns ++ [')'])

def textLinks (r : Rank) : List Node → List Operator → List Char
  | [], _ => []
  | n :: ns, os => linkText os ++ bracket (n.needsBrackets r) n.text ++ textLinks r ns os.tail

def textArguments : List Node → List Char
  | [] => []
  | n :: ns => ',' :: ' ' :: (n.text ++ textArguments ns)

end

def toText (n : Node) : String := String.ofList n.text

end Node

end TensorFormula
