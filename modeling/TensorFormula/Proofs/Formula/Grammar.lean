import TensorFormula.Formula.Token

/-!
# The grammar of formulas

A phrase of each kind is a derivation from the grammar, and `tokens` is the sentence that it
derives. Its `tree` has one chain to each sum or product of several operands, and `nesting` counts
the groups, argument lists and minus signs around the innermost token. A sentence has one
derivation only: each phrase is recognised by its tokens and the first token after them.
-/

namespace TensorFormula

/-- The chain of a first operand and the operators and operands after it. -/
def Node.ofChain (rank : Rank) (first : Node) : List (Operator × Node) → Node
  | [] => first
  | links => .chain rank (first :: links.map Prod.snd) (links.map Prod.fst)

namespace Grammar

mutual

/-- `Additive := Multiplicative (('+' | '-') Multiplicative)*` -/
inductive Additive
  | mk (first : Multiplicative) (rest : Addends)

inductive Addends
  | nil
  | cons (op : Operator) (rank : Rank.of op = .sum) (next : Multiplicative) (rest : Addends)

/-- `Multiplicative := Unary (('*' | '/' | 'x') Unary)*` -/
inductive Multiplicative
  | mk (first : Unary) (rest : Multipliers)

inductive Multipliers
  | nil
  | cons (op : Operator) (rank : Rank.of op = .product) (next : Unary) (rest : Multipliers)

/-- `Unary := '-' Term | Term` -/
inductive Unary
  | plain (term : Term)
  | minus (term : Term)

/-- `Term := Primary ('.' Suffix)*` -/
inductive Term
  | mk (primary : Primary) (suffixes : List Operation)

/-- `Primary := Number | Operand | Function '(' Additive (',' Additive)* ')' | '(' Additive ')'` -/
inductive Primary
  | number (value : Float)
  | operand (index : Nat)
  | call (op : Operation) (first : Additive) (rest : Arguments)
  | group (inner : Additive)

inductive Arguments
  | nil
  | cons (next : Additive) (rest : Arguments)

end

def suffixTokens (suffixes : List Operation) : List Token :=
  suffixes.flatMap fun op => [.dot, .suffix op]

mutual

def Additive.tokens : Additive → List Token
  | .mk first rest => first.tokens ++ rest.tokens

def Addends.tokens : Addends → List Token
  | .nil => []
  | .cons op _ next rest => .operator op :: (next.tokens ++ rest.tokens)

def Multiplicative.tokens : Multiplicative → List Token
  | .mk first rest => first.tokens ++ rest.tokens

def Multipliers.tokens : Multipliers → List Token
  | .nil => []
  | .cons op _ next rest => .operator op :: (next.tokens ++ rest.tokens)

def Unary.tokens : Unary → List Token
  | .plain term => term.tokens
  | .minus term => .operator .sub :: term.tokens

def Term.tokens : Term → List Token
  | .mk primary suffixes => primary.tokens ++ suffixTokens suffixes

def Primary.tokens : Primary → List Token
  | .number v => [.number v]
  | .operand i => [.operand i]
  | .call op first rest =>
      .function op :: .openBracket :: (first.tokens ++ (rest.tokens ++ [.closeBracket]))
  | .group inner => .openBracket :: (inner.tokens ++ [.closeBracket])

def Arguments.tokens : Arguments → List Token
  | .nil => []
  | .cons next rest => .comma :: (next.tokens ++ rest.tokens)

end

mutual

/-- The largest number of groups, argument lists and minus signs that a token lies inside. -/
def Additive.nesting : Additive → Nat
  | .mk first rest => max first.nesting rest.nesting

def Addends.nesting : Addends → Nat
  | .nil => 0
  | .cons _ _ next rest => max next.nesting rest.nesting

def Multiplicative.nesting : Multiplicative → Nat
  | .mk first rest => max first.nesting rest.nesting

def Multipliers.nesting : Multipliers → Nat
  | .nil => 0
  | .cons _ _ next rest => max next.nesting rest.nesting

def Unary.nesting : Unary → Nat
  | .plain term => term.nesting
  | .minus term => term.nesting + 1

def Term.nesting : Term → Nat
  | .mk primary _ => primary.nesting

def Primary.nesting : Primary → Nat
  | .number _ => 0
  | .operand _ => 0
  | .call _ first rest => max first.nesting rest.nesting + 1
  | .group inner => inner.nesting + 1

def Arguments.nesting : Arguments → Nat
  | .nil => 0
  | .cons next rest => max next.nesting rest.nesting

end

/-- A term with suffixes, the innermost first. -/
def suffixed (n : Node) (suffixes : List Operation) : Node :=
  suffixes.foldl (fun inner op => .apply op [inner]) n

mutual

/-- The tree of a derivation. A group is its content, and a chain of one operand is that operand. -/
def Additive.tree : Additive → Node
  | .mk first rest => .ofChain .sum first.tree rest.links

def Addends.links : Addends → List (Operator × Node)
  | .nil => []
  | .cons op _ next rest => (op, next.tree) :: rest.links

def Multiplicative.tree : Multiplicative → Node
  | .mk first rest => .ofChain .product first.tree rest.links

def Multipliers.links : Multipliers → List (Operator × Node)
  | .nil => []
  | .cons op _ next rest => (op, next.tree) :: rest.links

def Unary.tree : Unary → Node
  | .plain term => term.tree
  | .minus term => .negate term.tree

def Term.tree : Term → Node
  | .mk primary suffixes => suffixed primary.tree suffixes

def Primary.tree : Primary → Node
  | .number v => .constant v
  | .operand i => .operand i
  | .call op first rest => .apply op (first.tree :: rest.trees)
  | .group inner => inner.tree

def Arguments.trees : Arguments → List Node
  | .nil => []
  | .cons next rest => next.tree :: rest.trees

end

/-! ## What ends a phrase -/

/-- Whether a term goes on at a token. -/
def extendsTerm : Token → Bool
  | .dot => true
  | _ => false

def extendsProduct : Token → Bool
  | .dot => true
  | .operator op => Rank.of op == .product
  | _ => false

def extendsSum : Token → Bool
  | .dot => true
  | .operator _ => true
  | _ => false

/-- The tokens that come after a phrase begin with none that the phrase goes on at. -/
def Ends (goesOn : Token → Bool) (rest : List Token) : Prop :=
  ∀ t ∈ rest.head?, goesOn t = false

variable {rest rest' : List Token}

theorem Ends.not_cons {goesOn : Token → Bool} {t : Token} (h : Ends goesOn rest)
    (e : rest = t :: rest') : ¬ goesOn t = true := by
  simp [h t (by simp [e])]

theorem Ends.product_of_sum (h : Ends extendsSum rest) : Ends extendsProduct rest := by
  intro t ht
  have hs := h t ht
  cases t <;> simp_all [extendsProduct, extendsSum]

theorem Ends.term_of_product (h : Ends extendsProduct rest) : Ends extendsTerm rest := by
  intro t ht
  have hp := h t ht
  cases t <;> simp_all [extendsTerm, extendsProduct]

theorem Addends.ends_append (a : Addends) (h : Ends extendsSum rest) :
    Ends extendsProduct (a.tokens ++ rest) := by
  cases a with
  | nil => exact h.product_of_sum
  | cons op rank next a =>
      intro t ht
      obtain rfl : .operator op = t := by simpa [Addends.tokens] using ht
      simp [extendsProduct, rank]

theorem Multipliers.ends_append (m : Multipliers) (h : Ends extendsProduct rest) :
    Ends extendsTerm (m.tokens ++ rest) := by
  cases m with
  | nil => exact h.term_of_product
  | cons op rank next m =>
      intro t ht
      obtain rfl : .operator op = t := by simpa [Multipliers.tokens] using ht
      rfl

theorem Arguments.ends_append (a : Arguments) :
    Ends extendsSum (a.tokens ++ .closeBracket :: rest) := by
  intro t ht
  cases a with
  | nil =>
      obtain rfl : .closeBracket = t := by simpa [Arguments.tokens] using ht
      rfl
  | cons next a =>
      obtain rfl : .comma = t := by simpa [Arguments.tokens] using ht
      rfl

theorem ends_closeBracket : Ends extendsSum (.closeBracket :: rest) :=
  Arguments.nil.ends_append

/-! ## One derivation to a sentence -/

theorem suffixTokens_append_inj (l l' : List Operation) (h : Ends extendsTerm rest)
    (h' : Ends extendsTerm rest') (e : suffixTokens l ++ rest = suffixTokens l' ++ rest') :
    l = l' ∧ rest = rest' := by
  induction l generalizing l' with
  | nil =>
      cases l' with
      | nil => exact ⟨rfl, e⟩
      | cons op l' =>
          have hr : rest = .dot :: .suffix op :: (suffixTokens l' ++ rest') := e
          exact (h.not_cons hr rfl).elim
  | cons op l ih =>
      cases l' with
      | nil =>
          have hr : rest' = .dot :: .suffix op :: (suffixTokens l ++ rest) := e.symm
          exact (h'.not_cons hr rfl).elim
      | cons op' l' =>
          have he : Token.dot :: .suffix op :: (suffixTokens l ++ rest) =
              .dot :: .suffix op' :: (suffixTokens l' ++ rest') := e
          simp only [List.cons.injEq, true_and, Token.suffix.injEq] at he
          obtain ⟨rfl, he⟩ := he
          obtain ⟨rfl, hr⟩ := ih l' he
          exact ⟨rfl, hr⟩

mutual

theorem Additive.append_inj : (a b : Additive) → {rest rest' : List Token} →
    Ends extendsSum rest → Ends extendsSum rest' → a.tokens ++ rest = b.tokens ++ rest' →
    a = b ∧ rest = rest'
  | .mk first a, .mk first' b, rest, rest', h, h', e => by
      simp only [Additive.tokens, List.append_assoc] at e
      obtain ⟨rfl, ha⟩ := first.append_inj first' (a.ends_append h) (b.ends_append h') e
      obtain ⟨rfl, hr⟩ := a.append_inj b h h' ha
      exact ⟨rfl, hr⟩

theorem Addends.append_inj : (a b : Addends) → {rest rest' : List Token} →
    Ends extendsSum rest → Ends extendsSum rest' → a.tokens ++ rest = b.tokens ++ rest' →
    a = b ∧ rest = rest'
  | .nil, .nil, _, _, _, _, e => ⟨rfl, e⟩
  | .nil, .cons .., _, _, h, _, e => (h.not_cons e rfl).elim
  | .cons .., .nil, _, _, _, h', e => (h'.not_cons e.symm rfl).elim
  | .cons op _ next a, .cons op' _ next' b, rest, rest', h, h', e => by
      simp only [Addends.tokens, List.cons_append, List.append_assoc, List.cons.injEq,
        Token.operator.injEq] at e
      obtain ⟨rfl, hn⟩ := e
      obtain ⟨rfl, ha⟩ := next.append_inj next' (a.ends_append h) (b.ends_append h') hn
      obtain ⟨rfl, hr⟩ := a.append_inj b h h' ha
      exact ⟨rfl, hr⟩

theorem Multiplicative.append_inj : (a b : Multiplicative) → {rest rest' : List Token} →
    Ends extendsProduct rest → Ends extendsProduct rest' →
    a.tokens ++ rest = b.tokens ++ rest' → a = b ∧ rest = rest'
  | .mk first a, .mk first' b, rest, rest', h, h', e => by
      simp only [Multiplicative.tokens, List.append_assoc] at e
      obtain ⟨rfl, ha⟩ := first.append_inj first' (a.ends_append h) (b.ends_append h') e
      obtain ⟨rfl, hr⟩ := a.append_inj b h h' ha
      exact ⟨rfl, hr⟩

theorem Multipliers.append_inj : (a b : Multipliers) → {rest rest' : List Token} →
    Ends extendsProduct rest → Ends extendsProduct rest' →
    a.tokens ++ rest = b.tokens ++ rest' → a = b ∧ rest = rest'
  | .nil, .nil, _, _, _, _, e => ⟨rfl, e⟩
  | .nil, .cons op rank _ _, _, _, h, _, e => (h.not_cons e (by simp [extendsProduct, rank])).elim
  | .cons op rank _ _, .nil, _, _, _, h', e =>
      (h'.not_cons e.symm (by simp [extendsProduct, rank])).elim
  | .cons op _ next a, .cons op' _ next' b, rest, rest', h, h', e => by
      simp only [Multipliers.tokens, List.cons_append, List.append_assoc, List.cons.injEq,
        Token.operator.injEq] at e
      obtain ⟨rfl, hn⟩ := e
      obtain ⟨rfl, ha⟩ := next.append_inj next' (a.ends_append h) (b.ends_append h') hn
      obtain ⟨rfl, hr⟩ := a.append_inj b h h' ha
      exact ⟨rfl, hr⟩

theorem Unary.append_inj : (a b : Unary) → {rest rest' : List Token} →
    Ends extendsTerm rest → Ends extendsTerm rest' → a.tokens ++ rest = b.tokens ++ rest' →
    a = b ∧ rest = rest'
  | .plain t, .plain t', _, _, h, h', e => by
      obtain ⟨rfl, hr⟩ := t.append_inj t' h h' e
      exact ⟨rfl, hr⟩
  | .minus t, .minus t', _, _, h, h', e => by
      simp only [Unary.tokens, List.cons_append, List.cons.injEq, true_and] at e
      obtain ⟨rfl, hr⟩ := t.append_inj t' h h' e
      exact ⟨rfl, hr⟩
  | .plain (.mk p _), .minus _, _, _, _, _, e => by
      cases p <;> simp [Unary.tokens, Term.tokens, Primary.tokens] at e
  | .minus _, .plain (.mk p _), _, _, _, _, e => by
      cases p <;> simp [Unary.tokens, Term.tokens, Primary.tokens] at e

theorem Term.append_inj : (a b : Term) → {rest rest' : List Token} →
    Ends extendsTerm rest → Ends extendsTerm rest' → a.tokens ++ rest = b.tokens ++ rest' →
    a = b ∧ rest = rest'
  | .mk p l, .mk q l', rest, rest', h, h', e => by
      simp only [Term.tokens, List.append_assoc] at e
      obtain ⟨rfl, hl⟩ := p.append_inj q e
      obtain ⟨rfl, hr⟩ := suffixTokens_append_inj l l' h h' hl
      exact ⟨rfl, hr⟩

/-- A primary ends where its brackets are closed, whatever follows. -/
theorem Primary.append_inj : (a b : Primary) → {rest rest' : List Token} →
    a.tokens ++ rest = b.tokens ++ rest' → a = b ∧ rest = rest'
  | .call op first a, .call op' first' b, _, _, e => by
      simp only [Primary.tokens, List.cons_append, List.append_assoc, List.nil_append,
        List.cons.injEq, Token.function.injEq, true_and] at e
      obtain ⟨rfl, hf⟩ := e
      obtain ⟨rfl, ha⟩ := first.append_inj first' a.ends_append b.ends_append hf
      obtain ⟨rfl, hr⟩ := a.append_inj b ha
      exact ⟨rfl, hr⟩
  | .group a, .group b, _, _, e => by
      simp only [Primary.tokens, List.cons_append, List.append_assoc, List.nil_append,
        List.cons.injEq, true_and] at e
      obtain ⟨rfl, hr⟩ := a.append_inj b ends_closeBracket ends_closeBracket e
      exact ⟨rfl, List.tail_eq_of_cons_eq hr⟩
  | .number _, .number _, _, _, e => by simpa [Primary.tokens] using e
  | .operand _, .operand _, _, _, e => by simpa [Primary.tokens] using e
  | .number _, .operand _, _, _, e | .number _, .call .., _, _, e | .number _, .group _, _, _, e
  | .operand _, .number _, _, _, e | .operand _, .call .., _, _, e | .operand _, .group _, _, _, e
  | .call .., .number _, _, _, e | .call .., .operand _, _, _, e | .call .., .group _, _, _, e
  | .group _, .number _, _, _, e | .group _, .operand _, _, _, e | .group _, .call .., _, _, e => by
      simp [Primary.tokens] at e

theorem Arguments.append_inj : (a b : Arguments) → {rest rest' : List Token} →
    a.tokens ++ .closeBracket :: rest = b.tokens ++ .closeBracket :: rest' →
    a = b ∧ rest = rest'
  | .nil, .nil, _, _, e => by
      simpa [Arguments.tokens] using e
  | .nil, .cons .., _, _, e => by simp [Arguments.tokens] at e
  | .cons .., .nil, _, _, e => by simp [Arguments.tokens] at e
  | .cons next a, .cons next' b, _, _, e => by
      simp only [Arguments.tokens, List.cons_append, List.append_assoc, List.cons.injEq,
        true_and] at e
      obtain ⟨rfl, ha⟩ := next.append_inj next' a.ends_append b.ends_append e
      obtain ⟨rfl, hr⟩ := a.append_inj b ha
      exact ⟨rfl, hr⟩

end

/-- A sentence has one derivation. -/
theorem Additive.tokens_injective : Function.Injective Additive.tokens := by
  intro a b h
  have he : Ends extendsSum [] := by simp [Ends]
  exact (a.append_inj b he he (by simpa using h)).1

end Grammar

end TensorFormula
