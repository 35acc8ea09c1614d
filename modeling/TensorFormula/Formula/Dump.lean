import TensorFormula.Formula.Canonical

/-!
# Tree dumps

A dump shows a tree with one part to a line. What belongs to a part stands between its brackets,
indented, with a comma behind each item.
-/

namespace TensorFormula

/-- The shortest digits with a point, and an exponent for very large and very small numbers. -/
def Layout.dump : Layout := { Layout.plain with positional := some (-4, 16), point := true }

namespace Dump

abbrev Lines := List (List Char)

def indent (ls : Lines) : Lines := ls.map fun l => List.replicate 4 ' ' ++ l

def withComma : Lines → Lines
  | [] => []
  | [l] => [l ++ [',']]
  | l :: ls => l :: withComma ls

def labelled (label : String) : Lines → Lines
  | [] => []
  | l :: ls => (label.toList ++ l) :: ls

/-- Items between brackets. -/
def enclosed (opening closing : String) (items : List Lines) : Lines :=
  if items.isEmpty then [opening.toList ++ closing.toList]
  else opening.toList :: (items.flatMap (fun i => indent (withComma i)) ++ [closing.toList])

def word (text : String) : Lines := [text.toList]

def bracketed (name : String) (item : Lines) : Lines := enclosed (name ++ "(") ")" [item]

def record (name : String) (fields : List Lines) : Lines :=
  enclosed (name ++ " \x7b") "\x7d" fields

def array (items : List Lines) : Lines := enclosed "[" "]" items

def rankName : Rank → String
  | .sum => "AddChain"
  | .product => "MulChain"

mutual

def ofNode : Node → Lines
  | .constant v => bracketed "Constant" [Layout.dump.text .double (Element.bits v)]
  | .operand i => bracketed "Operand" [natText i]
  | .negate n => bracketed "Negate" (ofNode n)
  | .chain r ns os =>
      bracketed (rankName r) (record "Chain"
        [labelled "operands: " (array (ofNodes ns)),
          labelled "operators: " (array (os.map fun o => word o.label))])
  | .apply op ns =>
      record "Function" [word ("tag: " ++ op.label), labelled "args: " (array (ofNodes ns))]

def ofNodes : List Node → List Lines
  | [] => []
  | n :: ns => ofNode n :: ofNodes ns

end

def text (ls : Lines) : List Char := ls.flatMap fun l => l ++ ['\n']

end Dump

/-- The dump of a tree, each line with its end. -/
def Node.dump (n : Node) : String := String.ofList (Dump.text (Dump.ofNode n))

end TensorFormula
