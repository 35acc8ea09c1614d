import TensorFormula.Formula.Scan

/-!
# From tokens to trees

A formula is read token by token, without looking ahead. The state holds the clause that is being
read, that is a sum of products of possibly negated terms, and the brackets and calls around it,
each with the clause that it interrupts. A token that no formula could have at its place is refused
there, so the first refused token is the first that is wrong.
-/

namespace TensorFormula

/-- The finished operands of a chain, each with the operator after it, the last first. -/
abbrev Links := List (Node × Operator)

/-- The chain of some links and a last operand, which stands alone where there are no links. -/
def Links.close (rank : Rank) (links : Links) (last : Node) : Node :=
  if links.isEmpty then last
  else .chain rank ((links.map Prod.fst).reverse ++ [last]) (links.map Prod.snd).reverse

structure Clause where
  sums : Links
  factors : Links
  /-- Whether a minus stands before the term that is being read. -/
  negated : Bool

namespace Clause

def blank : Clause := ⟨[], [], false⟩

variable (c : Clause) (term : Node)

def factor : Node := if c.negated then .negate term else term

def product : Node := Links.close .product c.factors (c.factor term)

/-- The value of the clause if `term` is its last term. -/
def value : Node := Links.close .sum c.sums (c.product term)

/-- The clause after `term` and an operator. -/
def continued (op : Operator) : Clause :=
  match Rank.of op with
  | .product => ⟨c.sums, (c.factor term, op) :: c.factors, false⟩
  | .sum => ⟨(c.product term, op) :: c.sums, [], false⟩

def depth : Nat := if c.negated then 1 else 0

end Clause

inductive Opener
  | group (offset : Nat)
  /-- A call with its finished arguments, the last first. -/
  | call (op : Operation) (finished : List Node)

namespace Opener

/-- What the closing bracket makes of the last value inside. -/
def close : Opener → Node → Node
  | group _, value => value
  | call op finished, value => .apply op ((value :: finished).reverse)

def unclosed (found : Option Token) : Opener → Problem
  | group offset => .groupUnclosed offset found
  | call op _ => .callUnclosed op found

end Opener

/-- What the next token has to be or to continue. -/
inductive Wanted
  /-- A term, before which a minus may stand. -/
  | factor
  | term
  /-- The bracket of a call, whose function stands at `offset`. -/
  | opening (op : Operation) (offset : Nat)
  | suffix (inner : Node)
  /-- Anything that may follow a complete term. -/
  | more (term : Node)

structure ParseState where
  wanted : Wanted
  clause : Clause
  enclosing : List (Opener × Clause)

namespace ParseState

def start : ParseState := ⟨.factor, .blank, []⟩

variable (s : ParseState)

/-- The number of levels of the given brackets and calls, with the minus signs before them. -/
def levels : List (Opener × Clause) → Nat
  | [] => 0
  | (_, clause) :: rest => clause.depth + 1 + levels rest

/-- The number of brackets, calls and minus signs that are open. -/
def depth : Nat := s.clause.depth + levels s.enclosing

/-- Why the token that was found, or the end, cannot stand here. -/
def refusal (found : Option Token) : Problem :=
  match s.wanted with
  | .factor => .termExpected found
  | .term => .termExpected found
  | .opening op _ => .callExpected op found
  | .suffix _ => .suffixExpected found
  | .more _ =>
    match s.enclosing with
    | [] => .trailing found
    | (opener, _) :: _ => opener.unclosed found

/-- Goes one level deeper, for a construct that begins at `offset`. -/
def nest (offset : Nat) (deeper : ParseState) : Except FormulaFault ParseState :=
  if s.depth < nestingLimit then .ok deeper else .error (.malformed offset .nestedTooDeep)

/-- Interrupts the clause by an opening bracket. -/
def enclose (opener : Opener) : ParseState :=
  ⟨.factor, .blank, (opener, s.clause) :: s.enclosing⟩

def refuse (t : Placed) : Except FormulaFault ParseState :=
  .error (.malformed t.offset (s.refusal (some t.token)))

def startTerm (t : Placed) : Except FormulaFault ParseState :=
  match t.token with
  | .number v => .ok { s with wanted := .more (.constant v) }
  | .operand i => .ok { s with wanted := .more (.operand i) }
  | .openBracket => s.nest t.offset (s.enclose (.group t.offset))
  | .function op => .ok { s with wanted := .opening op t.offset }
  | _ => s.refuse t

def afterTerm (term : Node) (t : Placed) : Except FormulaFault ParseState :=
  match t.token, s.enclosing with
  | .dot, _ => .ok { s with wanted := .suffix term }
  | .operator op, _ => .ok { s with wanted := .factor, clause := s.clause.continued term op }
  | .closeBracket, (opener, clause) :: rest =>
      .ok ⟨.more (opener.close (s.clause.value term)), clause, rest⟩
  | .comma, (.call op finished, clause) :: rest =>
      .ok ⟨.factor, .blank, (.call op (s.clause.value term :: finished), clause) :: rest⟩
  | _, _ => s.refuse t

def step (t : Placed) : Except FormulaFault ParseState :=
  match s.wanted, t.token with
  | .factor, .operator .sub =>
      s.nest t.offset { s with wanted := .term, clause := { s.clause with negated := true } }
  | .factor, _ => s.startTerm t
  | .term, _ => s.startTerm t
  | .opening op offset, .openBracket => s.nest offset (s.enclose (.call op []))
  | .suffix inner, .suffix op => .ok { s with wanted := .more (.apply op [inner]) }
  | .more term, _ => s.afterTerm term t
  | _, _ => s.refuse t

/-- The tree, if the formula may end here, `stop` being the length of its text. -/
def finish (stop : Nat) : Except FormulaFault Node :=
  match s.wanted, s.enclosing with
  | .more term, [] => .ok (s.clause.value term)
  | _, _ => .error (.malformed stop (s.refusal none))

end ParseState

/-- The tree of a token list. -/
def parseTokens (ts : List Placed) (stop : Nat) : Except FormulaFault Node := do
  let s ← ts.foldlM ParseState.step .start
  s.finish stop

def parseChars (cs : List Char) : Except FormulaFault Node :=
  if cs.all Text.isBlank then .error .empty
  else do
    let ts ← scan cs
    parseTokens ts (Text.bytes cs)

/-- The tree of a formula. -/
def parse (formula : String) : Except FormulaFault Node := parseChars formula.toList

end TensorFormula
