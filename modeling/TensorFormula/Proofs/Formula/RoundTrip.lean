import TensorFormula.Proofs.Formula.Recognition

/-!
# Canonical text is read back

The text of a tree is a phrase at every place of another text, in brackets where that place demands
it, and the tree of the phrase is the tree that was written. A tree of the grammar is therefore read
back from its own text, if the text does not open more levels than a formula may have.
-/

namespace TensorFormula

open Grammar Lexeme

namespace Node

mutual

/-- Trees that a formula can stand for: finite constants without a sign, operand indices of 64
bits, chains of two operands or more with the operators of their rank between them, suffixes of one
argument and calls of at least one. -/
def WellFormed : Node → Prop
  | constant v => IsPlain v
  | operand i => i < Nat.pow 2 64
  | negate n => n.WellFormed
  | chain r ns os => 2 ≤ ns.length ∧ os.length + 1 = ns.length ∧ (∀ o ∈ os, Rank.of o = r) ∧
      AllWellFormed ns
  | apply op ns => (if op.family = .shape then ns.length = 1 else ns ≠ []) ∧ AllWellFormed ns

def AllWellFormed : List Node → Prop
  | [] => True
  | n :: ns => n.WellFormed ∧ AllWellFormed ns

end

mutual

/-- The largest number of groups, calls and minus signs that are open at one place of the text of a
tree. -/
def openLevels : Node → Nat
  | constant _ => 0
  | operand _ => 0
  | negate n => n.openLevels + n.isCompound.toNat + 1
  | chain r ns _ => openLevelsIn r ns
  | apply op [n] =>
      if op.family = .shape then n.openLevels + (n.isCompound || n.isConstant).toNat
      else n.openLevels + 1
  | apply _ ns => openLevelsOf ns + 1

/-- The levels that the operands of a chain open. -/
def openLevelsIn (r : Rank) : List Node → Nat
  | [] => 0
  | n :: ns => max (n.openLevels + (n.needsBrackets r).toNat) (openLevelsIn r ns)

/-- The levels that the arguments of a call open inside it. -/
def openLevelsOf : List Node → Nat
  | [] => 0
  | n :: ns => max n.openLevels (openLevelsOf ns)

end

end Node

/-! ## Texts of phrases -/

/-- A text with these tokens wherever nothing that follows goes on with its last lexeme. -/
def Spells (cs : List Char) (ts : List Token) : Prop := ∀ rest, Stops rest → ScansBefore rest cs ts

/-- A text that is a term with the tree `n`, inside which `k` levels are open. -/
def SpellsTerm (cs : List Char) (n : Node) (k : Nat) : Prop :=
  ∃ t : Term, Spells cs t.tokens ∧ t.tree = n ∧ t.nesting = k

def SpellsUnary (cs : List Char) (n : Node) (k : Nat) : Prop :=
  ∃ u : Unary, Spells cs u.tokens ∧ u.tree = n ∧ u.nesting = k

def SpellsProduct (cs : List Char) (n : Node) (k : Nat) : Prop :=
  ∃ m : Multiplicative, Spells cs m.tokens ∧ m.tree = n ∧ m.nesting = k

def SpellsSum (cs : List Char) (n : Node) (k : Nat) : Prop :=
  ∃ a : Additive, Spells cs a.tokens ∧ a.tree = n ∧ a.nesting = k

variable {cs : List Char} {ts : List Token} {n : Node} {k : Nat} {op : Operation}

theorem Spells.close (h : Spells cs ts) (rest : List Char) :
    ScansBefore rest (cs ++ [')']) (ts ++ [.closeBracket]) :=
  .append (h _ (stops_cons (by decide) (by decide))) (scansBefore_symbol rest rfl)

theorem SpellsTerm.unary (h : SpellsTerm cs n k) : SpellsUnary cs n k := by
  obtain ⟨t, hs, ht, hk⟩ := h
  exact ⟨.plain t, hs, ht, hk⟩

theorem SpellsUnary.product (h : SpellsUnary cs n k) : SpellsProduct cs n k := by
  obtain ⟨u, hs, ht, hk⟩ := h
  refine ⟨.mk u .nil, ?_, ht, ?_⟩
  · rwa [Multiplicative.tokens, Multipliers.tokens, List.append_nil]
  · rw [Multiplicative.nesting, Multipliers.nesting, Nat.max_zero, hk]

theorem SpellsProduct.sum (h : SpellsProduct cs n k) : SpellsSum cs n k := by
  obtain ⟨m, hs, ht, hk⟩ := h
  refine ⟨.mk m .nil, ?_, ht, ?_⟩
  · rwa [Additive.tokens, Addends.tokens, List.append_nil]
  · rw [Additive.nesting, Addends.nesting, Nat.max_zero, hk]

theorem SpellsSum.bracketed (h : SpellsSum cs n k) :
    SpellsTerm ('(' :: (cs ++ [')'])) n (k + 1) := by
  obtain ⟨a, hs, ht, hk⟩ := h
  refine ⟨.mk (.group a) [], ?_, ht, ?_⟩
  · intro rest _
    have hopen : ScansBefore (cs ++ [')'] ++ rest) ['('] [.openBracket] := scansBefore_symbol _ rfl
    simpa [Term.tokens, Primary.tokens, suffixTokens] using hopen.append (hs.close rest)
  · rw [Term.nesting, Primary.nesting, hk]

theorem SpellsTerm.minus (h : SpellsTerm cs n k) : SpellsUnary ('-' :: cs) (.negate n) (k + 1) := by
  obtain ⟨t, hs, rfl, rfl⟩ := h
  refine ⟨.minus t, ?_, rfl, rfl⟩
  intro rest hr
  have hminus : ScansBefore (cs ++ rest) ['-'] [.operator .sub] := scansBefore_symbol _ rfl
  exact hminus.append (hs rest hr)

theorem spellsTerm_literal (h : IsLiteral cs) :
    SpellsTerm cs (.constant ((Decimal.ofLiteral cs).toDouble false)) 0 :=
  ⟨.mk (.number _) [], fun _ hr => scansBefore_number h hr, rfl, rfl⟩

theorem spellsTerm_constant {v : Float} (h : IsPlain v) :
    SpellsTerm (plainText v) (.constant v) 0 := by
  have hs := spellsTerm_literal (isLiteral_plainText h)
  rwa [toDouble_plainText h] at hs

theorem spellsTerm_operand {i : Nat} (h : i < Nat.pow 2 64) :
    SpellsTerm ('%' :: natText i) (.operand i) 0 :=
  ⟨.mk (.operand i) [], fun _ hr => scansBefore_operand h hr, rfl, rfl⟩

/-! ## Names -/

theorem letters_eq (op : Operation) : ∃ c more, op.letters = c :: more ∧ isNameStart c = true ∧
    ∀ d ∈ more, isNamePart d = true := by
  cases op <;> exact ⟨_, _, rfl, by decide, List.all_eq_true.1 (by decide)⟩

theorem word?_letters (op : Operation) : word? op.letters =
    some (if op.family = .shape then .suffix op else .function op) := by
  cases op <;> rfl

theorem spells_letters (op : Operation) :
    Spells op.letters [if op.family = .shape then .suffix op else .function op] := by
  obtain ⟨c, more, he, hc, hm⟩ := letters_eq op
  have hw := word?_letters op
  intro rest hr
  rw [he] at hw ⊢
  exact scansBefore_word hc hm hw hr

theorem stops_dot_letters (op : Operation) (rest : List Char) :
    Stops ('.' :: (op.letters ++ rest)) := by
  obtain ⟨c, more, he, hc, -⟩ := letters_eq op
  have hr := toNat_of_isNameStart hc
  have hd : c.isDigit = false := by
    rw [Bool.eq_false_iff, ne_eq, isDigit_iff]
    omega
  refine ⟨by simp [isNamePart], ?_⟩
  rw [fractionLength, he]
  simp [runLength, hd]

theorem SpellsTerm.suffix (h : SpellsTerm cs n k) (hop : op.family = .shape) :
    SpellsTerm (cs ++ '.' :: op.letters) (.apply op [n]) k := by
  obtain ⟨⟨p, l⟩, hs, rfl, hk⟩ := h
  refine ⟨.mk p (l ++ [op]), ?_, ?_, hk⟩
  · intro rest hr
    have ho := spells_letters op rest hr
    rw [if_pos hop] at ho
    have hdot : ScansBefore (op.letters ++ rest) ['.'] [.dot] := scansBefore_symbol _ rfl
    have hall := (hs _ (stops_dot_letters op rest)).append (hdot.append ho)
    simpa [Term.tokens, suffixTokens] using hall
  · simp [Term.tree, suffixed]

/-! ## Chains and argument lists -/

theorem stops_textLinks (r : Rank) (ns : List Node) (os : List Operator) {rest : List Char}
    (h : Stops rest) : Stops (Node.textLinks r ns os ++ rest) := by
  cases ns with
  | nil => exact h
  | cons n ns =>
      rw [Node.textLinks]
      cases os <;> exact stops_cons (by decide) (by decide)

theorem scansBefore_operator (o : Operator) (rest : List Char) :
    ScansBefore (' ' :: rest) [o.symbol] [.operator o] := by
  cases o with
  | matmul =>
      exact scansBefore_word (by decide) (List.forall_mem_nil _) rfl
        (stops_cons (by decide) (by decide))
  | _ => exact scansBefore_symbol _ rfl

/-- An operator and an operand after it, between the operand before and the links after. -/
theorem Spells.link {cs' : List Char} {ts' : List Token} (o : Operator) (os : List Operator)
    (h : Spells cs ts) (h' : Spells cs' ts') (hstop : ∀ rest, Stops rest → Stops (cs' ++ rest)) :
    Spells (Node.linkText (o :: os) ++ cs ++ cs') (.operator o :: (ts ++ ts')) := by
  intro rest hr
  have hop := (ScansBefore.separator ([o.symbol] ++ (' ' :: (cs ++ cs' ++ rest)))
    (c := ' ') rfl).append (scansBefore_operator o (cs ++ cs' ++ rest))
  have hsp : ScansBefore (cs ++ cs' ++ rest) [' '] [] := .separator _ rfl
  have hcs : ScansBefore rest (cs ++ cs') (ts ++ ts') := (h _ (hstop rest hr)).append (h' rest hr)
  have hall := hop.append (hsp.append hcs)
  simpa [Node.linkText] using hall

theorem spells_multipliers {ns : List Node} {os : List Operator} (hlen : os.length = ns.length)
    (hos : ∀ o ∈ os, Rank.of o = .product)
    (h : ∀ n ∈ ns, SpellsUnary (bracket (n.needsBrackets .product) n.text) n
      (n.openLevels + (n.needsBrackets .product).toNat)) :
    ∃ m : Multipliers, Spells (Node.textLinks .product ns os) m.tokens ∧ m.links = os.zip ns ∧
      m.nesting = Node.openLevelsIn .product ns := by
  induction ns generalizing os with
  | nil =>
      obtain rfl := List.length_eq_zero_iff.1 hlen
      exact ⟨.nil, fun _ _ => .nil, rfl, rfl⟩
  | cons n ns ih =>
      obtain ⟨o, os, rfl⟩ := List.exists_cons_of_length_eq_add_one hlen
      rw [List.forall_mem_cons] at hos h
      obtain ⟨u, hu, ht, hk⟩ := h.1
      obtain ⟨m, hm, hl, hk'⟩ := ih (Nat.succ.inj hlen) hos.2 h.2
      refine ⟨.cons o hos.1 u m, ?_, ?_, ?_⟩
      · exact hu.link o os hm fun _ => stops_textLinks .product ns os
      · rw [Multipliers.links, ht, hl, List.zip_cons_cons]
      · rw [Multipliers.nesting, hk, hk', Node.openLevelsIn]

theorem spells_addends {ns : List Node} {os : List Operator} (hlen : os.length = ns.length)
    (hos : ∀ o ∈ os, Rank.of o = .sum)
    (h : ∀ n ∈ ns, SpellsProduct (bracket (n.needsBrackets .sum) n.text) n
      (n.openLevels + (n.needsBrackets .sum).toNat)) :
    ∃ a : Addends, Spells (Node.textLinks .sum ns os) a.tokens ∧ a.links = os.zip ns ∧
      a.nesting = Node.openLevelsIn .sum ns := by
  induction ns generalizing os with
  | nil =>
      obtain rfl := List.length_eq_zero_iff.1 hlen
      exact ⟨.nil, fun _ _ => .nil, rfl, rfl⟩
  | cons n ns ih =>
      obtain ⟨o, os, rfl⟩ := List.exists_cons_of_length_eq_add_one hlen
      rw [List.forall_mem_cons] at hos h
      obtain ⟨m, hm, ht, hk⟩ := h.1
      obtain ⟨a, ha, hl, hk'⟩ := ih (Nat.succ.inj hlen) hos.2 h.2
      refine ⟨.cons o hos.1 m a, ?_, ?_, ?_⟩
      · exact hm.link o os ha fun _ => stops_textLinks .sum ns os
      · rw [Addends.links, ht, hl, List.zip_cons_cons]
      · rw [Addends.nesting, hk, hk', Node.openLevelsIn]

theorem Node.ofChain_zip (r : Rank) (n : Node) {ns : List Node} {os : List Operator}
    (hlen : os.length = ns.length) (hne : ns ≠ []) :
    Node.ofChain r n (os.zip ns) = .chain r (n :: ns) os := by
  have hz : os.zip ns ≠ [] := by
    rw [← List.length_pos_iff, List.length_zip, hlen, Nat.min_self]
    exact List.length_pos_iff.2 hne
  obtain ⟨l, links, hl⟩ := List.exists_cons_of_ne_nil hz
  have hfst : (l :: links).map Prod.fst = os := hl ▸ List.map_fst_zip hlen.le
  have hsnd : (l :: links).map Prod.snd = ns := hl ▸ List.map_snd_zip hlen.ge
  rw [hl, ← hfst, ← hsnd]
  rfl

theorem stops_textArguments (ns : List Node) {rest : List Char} (h : Stops rest) :
    Stops (Node.textArguments ns ++ rest) := by
  cases ns with
  | nil => exact h
  | cons n ns => exact stops_cons (by decide) (by decide)

theorem spells_arguments {ns : List Node} (h : ∀ n ∈ ns, SpellsSum n.text n n.openLevels) :
    ∃ a : Arguments, Spells (Node.textArguments ns) a.tokens ∧ a.trees = ns ∧
      a.nesting = Node.openLevelsOf ns := by
  induction ns with
  | nil => exact ⟨.nil, fun _ _ => .nil, rfl, rfl⟩
  | cons n ns ih =>
      rw [List.forall_mem_cons] at h
      obtain ⟨next, hn, ht, hk⟩ := h.1
      obtain ⟨a, ha, hl, hk'⟩ := ih h.2
      refine ⟨.cons next a, ?_, ?_, ?_⟩
      · intro rest hr
        have hcomma : ScansBefore (' ' :: (n.text ++ Node.textArguments ns ++ rest)) [',']
            [.comma] := scansBefore_symbol _ rfl
        have hsp : ScansBefore (n.text ++ Node.textArguments ns ++ rest) [' '] [] :=
          .separator _ rfl
        have hargs : ScansBefore rest (n.text ++ Node.textArguments ns) (next.tokens ++ a.tokens) :=
          (hn _ (stops_textArguments ns hr)).append (ha rest hr)
        exact hcomma.append (hsp.append hargs)
      · rw [Arguments.trees, ht, hl]
      · rw [Arguments.nesting, hk, hk', Node.openLevelsOf]

/-- A call of the first argument, written `cs`, and those after it, written `cs'`. -/
theorem SpellsSum.call {cs' : List Char} {ns : List Node} {j : Nat} (h : SpellsSum cs n k)
    (hargs : ∃ a : Arguments, Spells cs' a.tokens ∧ a.trees = ns ∧ a.nesting = j)
    (hstop : ∀ rest, Stops rest → Stops (cs' ++ rest)) (hop : op.family ≠ .shape) :
    SpellsTerm (op.letters ++ '(' :: (cs ++ cs' ++ [')'])) (.apply op (n :: ns))
      (max k j + 1) := by
  obtain ⟨a, ha, rfl, rfl⟩ := h
  obtain ⟨args, hs, rfl, rfl⟩ := hargs
  refine ⟨.mk (.call op a args) [], ?_, rfl, rfl⟩
  intro rest hr
  have hname := spells_letters op ('(' :: (cs ++ cs' ++ [')'] ++ rest))
    (stops_cons (by decide) (by decide))
  rw [if_neg hop] at hname
  have hopen : ScansBefore (cs ++ cs' ++ [')'] ++ rest) ['('] [.openBracket] :=
    scansBefore_symbol _ rfl
  have hin : Spells (cs ++ cs') (a.tokens ++ args.tokens) := fun rest hr =>
    (ha _ (hstop rest hr)).append (hs rest hr)
  have hall := hname.append (hopen.append (hin.close rest))
  simpa [Term.tokens, Primary.tokens, suffixTokens] using hall

theorem spellsTerm_call {n : Node} {ns : List Node} (hop : op.family ≠ .shape)
    (h : ∀ m ∈ n :: ns, SpellsSum m.text m m.openLevels) :
    SpellsTerm (op.letters ++ '(' :: (n.text ++ Node.textArguments ns ++ [')']))
      (.apply op (n :: ns)) (Node.openLevelsOf (n :: ns) + 1) := by
  rw [List.forall_mem_cons] at h
  exact h.1.call (spells_arguments h.2) (fun _ => stops_textArguments ns) hop

/-! ## The text of a tree at each place -/

/-- The text of a tree is a phrase at each place of another text, with the brackets that it gets
there. -/
structure Printed (n : Node) : Prop where
  sum : SpellsSum n.text n n.openLevels
  product : SpellsProduct (bracket (n.needsBrackets .sum) n.text) n
    (n.openLevels + (n.needsBrackets .sum).toNat)
  unary : SpellsUnary (bracket (n.needsBrackets .product) n.text) n
    (n.openLevels + (n.needsBrackets .product).toNat)
  term : SpellsTerm (bracket n.isCompound n.text) n (n.openLevels + n.isCompound.toNat)

theorem Printed.of_term (h : SpellsTerm n.text n n.openLevels) (hc : n.isCompound = false)
    (hb : ∀ r, n.needsBrackets r = false) : Printed n where
  sum := h.unary.product.sum
  product := by simpa [hb, bracket] using h.unary.product
  unary := by simpa [hb, bracket] using h.unary
  term := by simpa [hc, bracket] using h

theorem Printed.of_unary (h : SpellsUnary n.text n n.openLevels) (hc : n.isCompound = true)
    (hb : ∀ r, n.needsBrackets r = false) : Printed n where
  sum := h.product.sum
  product := by simpa [hb, bracket] using h.product
  unary := by simpa [hb, bracket] using h
  term := by simpa [hc, bracket] using h.product.sum.bracketed

theorem Printed.of_product (h : SpellsProduct n.text n n.openLevels) (hc : n.isCompound = true)
    (hs : n.needsBrackets .sum = false) (hp : n.needsBrackets .product = true) : Printed n where
  sum := h.sum
  product := by simpa [hs, bracket] using h
  unary := by simpa [hp, bracket] using h.sum.bracketed.unary
  term := by simpa [hc, bracket] using h.sum.bracketed

theorem Printed.of_sum (h : SpellsSum n.text n n.openLevels) (hc : n.isCompound = true)
    (hb : ∀ r, n.needsBrackets r = true) : Printed n where
  sum := h
  product := by simpa [hb, bracket] using h.bracketed.unary.product
  unary := by simpa [hb, bracket] using h.bracketed.unary
  term := by simpa [hc, bracket] using h.bracketed

theorem Printed.before_suffix (h : Printed n) :
    SpellsTerm (bracket (n.isCompound || n.isConstant) n.text) n
      (n.openLevels + (n.isCompound || n.isConstant).toNat) := by
  by_cases hc : n.isCompound = true
  · simpa [hc] using h.term
  · by_cases hk : n.isConstant = true
    · simpa [hc, hk, bracket] using h.sum.bracketed
    · simpa [hc, hk] using h.term

theorem Printed.negate (h : Printed n) : Printed n.negate := by
  refine .of_unary ?_ rfl fun _ => rfl
  rw [Node.text, Node.openLevels]
  exact h.term.minus

theorem Printed.chain {r : Rank} {ns : List Node} {os : List Operator} (htwo : 2 ≤ ns.length)
    (hlen : os.length + 1 = ns.length) (hos : ∀ o ∈ os, Rank.of o = r)
    (h : ∀ n ∈ ns, Printed n) : Printed (.chain r ns os) := by
  obtain ⟨n, ns, rfl⟩ := List.exists_cons_of_length_pos (Nat.lt_of_lt_of_le Nat.zero_lt_two htwo)
  have hlen : os.length = ns.length := Nat.succ.inj hlen
  have hne : ns ≠ [] := List.length_pos_iff.1 (Nat.lt_of_succ_lt_succ htwo)
  rw [List.forall_mem_cons] at h
  cases r with
  | sum =>
      refine .of_sum ?_ rfl fun _ => rfl
      obtain ⟨m, hm, ht, hk⟩ := h.1.product
      obtain ⟨a, ha, hl, hk'⟩ := spells_addends hlen hos fun n hn => (h.2 n hn).product
      refine ⟨.mk m a, ?_, ?_, ?_⟩
      · intro rest hr
        rw [Node.text]
        exact (hm _ (stops_textLinks .sum ns os hr)).append (ha rest hr)
      · rw [Additive.tree, ht, hl, Node.ofChain_zip .sum n hlen hne]
      · rw [Additive.nesting, hk, hk', Node.openLevels, Node.openLevelsIn]
  | product =>
      refine .of_product ?_ rfl rfl rfl
      obtain ⟨u, hu, ht, hk⟩ := h.1.unary
      obtain ⟨m, hm, hl, hk'⟩ := spells_multipliers hlen hos fun n hn => (h.2 n hn).unary
      refine ⟨.mk u m, ?_, ?_, ?_⟩
      · intro rest hr
        rw [Node.text]
        exact (hu _ (stops_textLinks .product ns os hr)).append (hm rest hr)
      · rw [Multiplicative.tree, ht, hl, Node.ofChain_zip .product n hlen hne]
      · rw [Multiplicative.nesting, hk, hk', Node.openLevels, Node.openLevelsIn]

theorem Printed.suffix (hop : op.family = .shape) (h : Printed n) : Printed (.apply op [n]) := by
  refine .of_term ?_ rfl fun _ => rfl
  rw [Node.text, if_pos hop, Node.openLevels, if_pos hop]
  exact h.before_suffix.suffix hop

theorem Printed.call {ns : List Node} (hop : op.family ≠ .shape) (hne : ns ≠ [])
    (h : ∀ n ∈ ns, Printed n) : Printed (.apply op ns) := by
  refine .of_term ?_ rfl fun _ => rfl
  obtain ⟨n, ns, rfl⟩ := List.exists_cons_of_ne_nil hne
  have hcall := spellsTerm_call hop fun m hm => (h m hm).sum
  cases ns with
  | nil =>
      rw [Node.text, if_neg hop, Node.openLevels, if_neg hop]
      simpa [Node.textArguments, Node.openLevelsOf] using hcall
  | cons m ns =>
      rw [Node.text, Node.openLevels]
      · exact hcall
      all_goals simp

mutual

theorem Node.WellFormed.printed : (n : Node) → n.WellFormed → Printed n
  | .constant _, h => .of_term (spellsTerm_constant h) rfl fun _ => rfl
  | .operand _, h => .of_term (spellsTerm_operand h) rfl fun _ => rfl
  | .negate n, h => (WellFormed.printed n h).negate
  | .chain _ ns _, ⟨htwo, hlen, hos, h⟩ => .chain htwo hlen hos (AllWellFormed.printed ns h)
  | .apply op ns, ⟨hns, h⟩ => by
      have hp := AllWellFormed.printed ns h
      by_cases hop : op.family = .shape
      · rw [if_pos hop] at hns
        obtain ⟨n, rfl⟩ := List.length_eq_one_iff.1 hns
        exact .suffix hop (hp n (List.mem_singleton_self n))
      · rw [if_neg hop] at hns
        exact .call hop hns hp

theorem Node.AllWellFormed.printed : (ns : List Node) → AllWellFormed ns → ∀ n ∈ ns, Printed n
  | [], _ => List.forall_mem_nil _
  | n :: ns, ⟨h, hs⟩ => List.forall_mem_cons.2 ⟨WellFormed.printed n h, AllWellFormed.printed ns hs⟩

end

theorem Node.WellFormed.sentence (h : n.WellFormed) : ∃ ps, scan n.text = .ok ps ∧
    ∃ a : Additive, a.tokens = ps.map Placed.token ∧ a.tree = n ∧ a.nesting = n.openLevels := by
  obtain ⟨a, ha, ht, hk⟩ := (h.printed n).sum
  obtain ⟨ps, hp, hs⟩ := (ha [] stops_nil).scan_eq
  exact ⟨ps, hs, a, hp.symm, ht, hk⟩

/-- A tree of the grammar is read back from its text, exactly if the text keeps the limit on open
levels. -/
theorem parse_toText_eq_ok_iff (h : n.WellFormed) :
    parse n.toText = .ok n ↔ n.openLevels ≤ nestingLimit := by
  obtain ⟨ps, hs, a, ha, ht, hk⟩ := h.sentence
  rw [parse, Node.toText, String.toList_ofList, parseChars_eq_ok_iff, ← hk]
  constructor
  · rintro ⟨ps', hs', b, hb, hn, -⟩
    obtain rfl := Except.ok.inj (hs.symm.trans hs')
    rwa [Additive.tokens_injective (hb.trans ha.symm)] at hn
  · intro hn
    exact ⟨ps, hs, a, ha, hn, ht⟩

/-- The tree of `%0 - -((1.5).T x %1) - leakyReLu(%1, 0.5)`. -/
def sampleTree : Node :=
  .chain .sum
    [.operand 0,
      .negate (.chain .product
        [.apply .transpose [.constant (.ofBits 0x3FF8000000000000)], .operand 1] [.matmul]),
      .apply .leakyRelu [.operand 1, .constant (.ofBits 0x3FE0000000000000)]]
    [.sub, .sub]

theorem parse_toText_sampleTree :
    sampleTree.WellFormed ∧ sampleTree.openLevels = 3 ∧
      parse sampleTree.toText = .ok sampleTree := by
  have hlarge : IsPlain (.ofBits 0x3FF8000000000000) := ⟨0x18000000000000, -52, by decide⟩
  have hsmall : IsPlain (.ofBits 0x3FE0000000000000) := ⟨0x10000000000000, -53, by decide⟩
  have hw : sampleTree.WellFormed := by
    simp [sampleTree, Node.WellFormed, Node.AllWellFormed, hlarge, hsmall, Rank.of,
      Operation.family]
  exact ⟨hw, rfl, (parse_toText_eq_ok_iff hw).2 (by decide)⟩

end TensorFormula
