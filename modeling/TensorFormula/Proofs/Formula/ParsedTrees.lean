import TensorFormula.Proofs.Formula.RoundTrip

/-!
# Trees that a formula is read as

The tree of a formula has the shape that the grammar gives it, but a literal past the range of
doubles is an infinite constant in it. Its canonical text opens a level that the formula did not
open only around a constant before a suffix, and so one level more at the most.
-/

namespace TensorFormula

open Grammar Lexeme

/-! ## Tokens that are scanned -/

/-- What a scanned token may hold. -/
def Token.IsScanned : Token → Prop
  | number v => IsPlain v ∨ IsInfinite v
  | operand i => i < Nat.pow 2 64
  | function op => op.family ≠ .shape
  | suffix op => op.family = .shape
  | _ => True

theorem family_of_functionNamed? {cs : List Char} {op : Operation}
    (h : Operation.functionNamed? cs = some op) : op.family ≠ .shape := by
  have hall : ∀ op ∈ Operation.functions, op.family ≠ .shape := by decide
  exact hall op (List.mem_of_find?_eq_some h)

theorem family_of_suffixNamed? {cs : List Char} {op : Operation}
    (h : Operation.suffixNamed? cs = some op) : op.family = .shape := by
  have hall : ∀ op ∈ Operation.suffixes, op.family = .shape := by decide
  exact hall op (List.mem_of_find?_eq_some h)

theorem isScanned_of_word? {cs : List Char} {t : Token} (h : word? cs = some t) : t.IsScanned := by
  unfold word? at h
  split at h
  · obtain rfl := Option.some.inj h
    trivial
  · rcases Option.or_eq_some_iff.1 h with h | ⟨-, h⟩
    · obtain ⟨op, hop, rfl⟩ := Option.map_eq_some_iff.1 h
      exact family_of_functionNamed? hop
    · obtain ⟨op, hop, rfl⟩ := Option.map_eq_some_iff.1 h
      exact family_of_suffixNamed? hop

theorem isScanned_of_nameTokens {cs : List Char} {found : List (Nat × Token)}
    (h : nameTokens cs = .ok found) : ∀ t ∈ found, t.2.IsScanned := by
  have hx : (Token.operator .matmul).IsScanned := trivial
  unfold nameTokens at h
  split at h
  · next t ht =>
      obtain rfl := Except.ok.inj h
      exact List.forall_mem_singleton.2 (isScanned_of_word? ht)
  · split at h
    · next t ht =>
        obtain rfl := Except.ok.inj h
        simpa [hx] using isScanned_of_word? (Option.ite_none_right_eq_some.1 ht).2
    · split at h
      · next t ht =>
          obtain rfl := Except.ok.inj h
          simpa [hx] using isScanned_of_word? (Option.ite_none_right_eq_some.1 ht).2
      · cases h

theorem isScanned_of_operandToken {digits : List Char} {t : Token}
    (h : operandToken digits = .ok t) : t.IsScanned := by
  unfold operandToken at h
  split at h
  · cases h
  · dsimp only at h
    split at h
    · next hi =>
        obtain rfl := Except.ok.inj h
        exact hi
    · cases h

theorem isScanned_of_symbol? {c : Char} {t : Token} (h : symbol? c = some t) : t.IsScanned := by
  unfold symbol? at h
  split at h <;> first | (obtain rfl := Option.some.inj h; exact trivial) | cases h

theorem isScanned_of_tokensOf {c : Char} {more : List Char} {found : List (Nat × Token)}
    (h : tokensOf c more = .ok found) : ∀ t ∈ found, t.2.IsScanned := by
  unfold tokensOf at h
  split at h
  · obtain rfl := Except.ok.inj h
    exact List.forall_mem_singleton.2 (isPlain_or_isInfinite_toDouble _)
  · split at h
    · cases ht : operandToken more with
      | error problem => simp [ht, Except.map] at h
      | ok t =>
          rw [ht] at h
          obtain rfl := Except.ok.inj h
          exact List.forall_mem_singleton.2 (isScanned_of_operandToken ht)
    · split at h
      · exact isScanned_of_nameTokens h
      · split at h
        · next t ht =>
            obtain rfl := Except.ok.inj h
            exact List.forall_mem_singleton.2 (isScanned_of_symbol? ht)
        · cases h

theorem isScanned_of_scanFrom {o : Nat} {cs : List Char} {ps : List Placed}
    (h : scanFrom o cs = .ok ps) : ∀ p ∈ ps, p.token.IsScanned := by
  fun_induction scanFrom o cs generalizing ps with
  | case1 o =>
      obtain rfl := Except.ok.inj h
      simp
  | case2 o c cs hsep ih => exact ih h
  | case5 o c cs hsep found ht rest hr ih =>
      obtain rfl := Except.ok.inj h
      have hfound := isScanned_of_tokensOf ht
      intro p hp
      rcases List.mem_append.1 hp with hp | hp
      · obtain ⟨t, htm, rfl⟩ := List.mem_map.1 hp
        exact hfound t htm
      · exact ih hr p hp
  | _ => cases h

/-! ## Trees of derivations -/

namespace Node

mutual

/-- Trees that are well-formed but for constants past the range of doubles. -/
def Readable : Node → Prop
  | constant v => IsPlain v ∨ IsInfinite v
  | operand i => i < Nat.pow 2 64
  | negate n => n.Readable
  | chain r ns os => 2 ≤ ns.length ∧ os.length + 1 = ns.length ∧ (∀ o ∈ os, Rank.of o = r) ∧
      AllReadable ns
  | apply op ns => (if op.family = .shape then ns.length = 1 else ns ≠ []) ∧ AllReadable ns

def AllReadable : List Node → Prop
  | [] => True
  | n :: ns => n.Readable ∧ AllReadable ns

end

theorem allReadable_iff {ns : List Node} : AllReadable ns ↔ ∀ n ∈ ns, n.Readable := by
  induction ns with
  | nil => simp [AllReadable]
  | cons n ns ih => simp [AllReadable, ih]

theorem readable_ofChain {r : Rank} {n : Node} {links : List (Operator × Node)} (hn : n.Readable)
    (h : ∀ l ∈ links, Rank.of l.1 = r ∧ l.2.Readable) : (Node.ofChain r n links).Readable := by
  cases links with
  | nil => exact hn
  | cons l links =>
      refine ⟨by simp, by simp, ?_, hn, allReadable_iff.2 ?_⟩
      · intro o ho
        obtain ⟨link, hm, rfl⟩ := List.mem_map.1 ho
        exact (h link hm).1
      · intro m hm
        obtain ⟨link, hl, rfl⟩ := List.mem_map.1 hm
        exact (h link hl).2

theorem readable_suffixed {n : Node} {l : List Operation} (hn : n.Readable)
    (h : ∀ op ∈ l, op.family = .shape) : (suffixed n l).Readable := by
  induction l generalizing n with
  | nil => exact hn
  | cons op l ih =>
      rw [List.forall_mem_cons] at h
      refine ih ?_ h.2
      exact ⟨by rw [if_pos h.1]; rfl, hn, trivial⟩

end Node

namespace Grammar

theorem family_of_suffixTokens {l : List Operation} (h : ∀ t ∈ suffixTokens l, t.IsScanned) :
    ∀ op ∈ l, op.family = .shape := by
  intro op hop
  exact h (.suffix op) (List.mem_flatMap.2 ⟨op, hop, by simp⟩)

mutual

/-- The tree of scanned tokens is readable. -/
theorem Additive.readable :
    (a : Additive) → (∀ t ∈ a.tokens, t.IsScanned) → a.tree.Readable
  | .mk first rest, h => by
      rw [Additive.tokens, List.forall_mem_append] at h
      exact Node.readable_ofChain (first.readable h.1) (rest.readable_links h.2)

theorem Addends.readable_links : (a : Addends) → (∀ t ∈ a.tokens, t.IsScanned) →
    ∀ l ∈ a.links, Rank.of l.1 = .sum ∧ l.2.Readable
  | .nil, _ => List.forall_mem_nil _
  | .cons op rank next rest, h => by
      rw [Addends.tokens, List.forall_mem_cons, List.forall_mem_append] at h
      rw [Addends.links, List.forall_mem_cons]
      exact ⟨⟨rank, next.readable h.2.1⟩, rest.readable_links h.2.2⟩

theorem Multiplicative.readable :
    (m : Multiplicative) → (∀ t ∈ m.tokens, t.IsScanned) → m.tree.Readable
  | .mk first rest, h => by
      rw [Multiplicative.tokens, List.forall_mem_append] at h
      exact Node.readable_ofChain (first.readable h.1) (rest.readable_links h.2)

theorem Multipliers.readable_links : (m : Multipliers) → (∀ t ∈ m.tokens, t.IsScanned) →
    ∀ l ∈ m.links, Rank.of l.1 = .product ∧ l.2.Readable
  | .nil, _ => List.forall_mem_nil _
  | .cons op rank next rest, h => by
      rw [Multipliers.tokens, List.forall_mem_cons, List.forall_mem_append] at h
      rw [Multipliers.links, List.forall_mem_cons]
      exact ⟨⟨rank, next.readable h.2.1⟩, rest.readable_links h.2.2⟩

theorem Unary.readable : (u : Unary) → (∀ t ∈ u.tokens, t.IsScanned) → u.tree.Readable
  | .plain t, h => t.readable h
  | .minus t, h => t.readable (List.forall_mem_cons.1 h).2

theorem Term.readable : (t : Term) → (∀ t' ∈ t.tokens, t'.IsScanned) → t.tree.Readable
  | .mk p l, h => by
      rw [Term.tokens, List.forall_mem_append] at h
      exact Node.readable_suffixed (p.readable h.1) (family_of_suffixTokens h.2)

theorem Primary.readable : (p : Primary) → (∀ t ∈ p.tokens, t.IsScanned) → p.tree.Readable
  | .number v, h => h _ (List.mem_singleton_self _)
  | .operand i, h => h _ (List.mem_singleton_self _)
  | .group inner, h => by
      rw [Primary.tokens, List.forall_mem_cons, List.forall_mem_append] at h
      exact inner.readable h.2.1
  | .call op first rest, h => by
      rw [Primary.tokens, List.forall_mem_cons, List.forall_mem_cons, List.forall_mem_append,
        List.forall_mem_append] at h
      obtain ⟨hop, -, hfirst, hrest, -⟩ := h
      have hop : op.family ≠ .shape := hop
      exact ⟨by simp [hop], first.readable hfirst, rest.readable hrest⟩

theorem Arguments.readable :
    (a : Arguments) → (∀ t ∈ a.tokens, t.IsScanned) → Node.AllReadable a.trees
  | .nil, _ => trivial
  | .cons next rest, h => by
      rw [Arguments.tokens, List.forall_mem_cons, List.forall_mem_append] at h
      exact ⟨next.readable h.2.1, rest.readable h.2.2⟩

end

end Grammar

/-! ## The levels that the text of a tree opens -/

namespace Node

mutual

/-- Somewhere in the tree, a suffix stands behind a constant. -/
def SuffixesConstant : Node → Prop
  | constant _ => False
  | operand _ => False
  | negate n => n.SuffixesConstant
  | chain _ ns _ => SomeSuffixesConstant ns
  | apply op ns => (op.family = .shape ∧ ∃ v, ns = [constant v]) ∨ SomeSuffixesConstant ns

def SomeSuffixesConstant : List Node → Prop
  | [] => False
  | n :: ns => n.SuffixesConstant ∨ SomeSuffixesConstant ns

end

variable {r : Rank} {n : Node} {ns : List Node} {links : List (Operator × Node)}
  {op : Operation} {l : List Operation} {j k : Nat}

theorem suffixesConstant_ofChain (h : SomeSuffixesConstant (n :: links.map Prod.snd)) :
    (ofChain r n links).SuffixesConstant := by
  cases links with
  | nil => exact h.resolve_right id
  | cons link links => exact h

theorem suffixesConstant_suffixed (h : n.SuffixesConstant) :
    (suffixed n l).SuffixesConstant := by
  induction l generalizing n with
  | nil => exact h
  | cons op l ih => exact ih (.inr (.inl h))

theorem needsBrackets_le (n : Node) : (n.needsBrackets r).toNat ≤ n.isCompound.toNat := by
  cases n with
  | chain r' ns os => exact Bool.toNat_le _
  | _ => exact Nat.zero_le _

theorem openLevels_ofChain_le (r : Rank) (n : Node) (links : List (Operator × Node)) :
    (ofChain r n links).openLevels ≤ openLevelsIn r (n :: links.map Prod.snd) := by
  cases links with
  | nil =>
      simp only [ofChain, openLevelsIn, List.map_nil]
      omega
  | cons link links => exact Nat.le_refl _

theorem openLevels_product_le (n : Node) (links : List (Operator × Node)) :
    (ofChain .product n links).openLevels +
        ((ofChain .product n links).needsBrackets .sum).toNat ≤
      openLevelsIn .product (n :: links.map Prod.snd) := by
  cases links with
  | nil =>
      have h : (n.needsBrackets .sum).toNat ≤ (n.needsBrackets .product).toNat := by
        cases n with
        | chain r ns os => cases r <;> exact Nat.le_of_ble_eq_true rfl
        | _ => exact Nat.le_refl _
      simp only [ofChain, openLevelsIn, List.map_nil]
      omega
  | cons link links => exact Nat.le_refl _

theorem openLevels_call (hop : op.family ≠ .shape) :
    (apply op (n :: ns)).openLevels = openLevelsOf (n :: ns) + 1 := by
  cases ns with
  | nil => simp [openLevels, openLevelsOf, hop]
  | cons m ns => simp [openLevels, openLevelsOf]

/-- A suffix opens no level, except around a constant. -/
theorem openLevels_suffixed_le (h : n.openLevels + n.isCompound.toNat ≤ j + k)
    (hl : ∀ op ∈ l, op.family = .shape) (hk : (suffixed n l).SuffixesConstant → 1 ≤ k) :
    (suffixed n l).openLevels + (suffixed n l).isCompound.toNat ≤ j + k := by
  induction l generalizing n with
  | nil => exact h
  | cons op l ih =>
      rw [List.forall_mem_cons] at hl
      refine ih ?_ hl.2 hk
      have ho : (apply op [n]).openLevels =
          n.openLevels + (n.isCompound || n.isConstant).toNat := by
        rw [openLevels, if_pos hl.1]
      have hc : (apply op [n]).isCompound.toNat = 0 := rfl
      rw [ho, hc]
      cases n with
      | constant v =>
          have hs : (apply op [constant v]).SuffixesConstant := .inl ⟨hl.1, v, rfl⟩
          have h1 : 1 ≤ k := hk (suffixesConstant_suffixed (l := l) hs)
          simp only [openLevels, isCompound, isConstant, Bool.false_or, Bool.toNat_true]
          omega
      | _ => simpa [isConstant] using h

end Node

namespace Grammar

variable {k : Nat}

mutual

/-- The text of a tree opens the levels of the formula that it was read from, and at most `k` more,
if `k` is positive where a suffix stands behind a constant. -/
theorem Additive.openLevels_le : (a : Additive) → (∀ t ∈ a.tokens, t.IsScanned) →
    (a.tree.SuffixesConstant → 1 ≤ k) → a.tree.openLevels ≤ a.nesting + k
  | .mk first rest, h, hk => by
      rw [Additive.tokens, List.forall_mem_append] at h
      have hfirst := first.openLevels_le h.1 fun hs => hk (Node.suffixesConstant_ofChain (.inl hs))
      have hrest := rest.openLevels_le h.2 fun hs => hk (Node.suffixesConstant_ofChain (.inr hs))
      refine (Node.openLevels_ofChain_le _ _ _).trans ?_
      rw [Node.openLevelsIn, Additive.nesting]
      omega

theorem Addends.openLevels_le : (a : Addends) → (∀ t ∈ a.tokens, t.IsScanned) →
    (Node.SomeSuffixesConstant (a.links.map Prod.snd) → 1 ≤ k) →
    Node.openLevelsIn .sum (a.links.map Prod.snd) ≤ a.nesting + k
  | .nil, _, _ => Nat.zero_le _
  | .cons op rank next rest, h, hk => by
      rw [Addends.tokens, List.forall_mem_cons, List.forall_mem_append] at h
      have hnext := next.openLevels_le h.2.1 fun hs => hk (.inl hs)
      have hrest := rest.openLevels_le h.2.2 fun hs => hk (.inr hs)
      simp only [Addends.links, List.map_cons, Node.openLevelsIn, Addends.nesting]
      omega

theorem Multiplicative.openLevels_le : (m : Multiplicative) → (∀ t ∈ m.tokens, t.IsScanned) →
    (m.tree.SuffixesConstant → 1 ≤ k) →
    m.tree.openLevels + (m.tree.needsBrackets .sum).toNat ≤ m.nesting + k
  | .mk first rest, h, hk => by
      rw [Multiplicative.tokens, List.forall_mem_append] at h
      have hfirst := first.openLevels_le h.1 fun hs => hk (Node.suffixesConstant_ofChain (.inl hs))
      have hrest := rest.openLevels_le h.2 fun hs => hk (Node.suffixesConstant_ofChain (.inr hs))
      refine (Node.openLevels_product_le _ _).trans ?_
      rw [Node.openLevelsIn, Multiplicative.nesting]
      omega

theorem Multipliers.openLevels_le : (m : Multipliers) → (∀ t ∈ m.tokens, t.IsScanned) →
    (Node.SomeSuffixesConstant (m.links.map Prod.snd) → 1 ≤ k) →
    Node.openLevelsIn .product (m.links.map Prod.snd) ≤ m.nesting + k
  | .nil, _, _ => Nat.zero_le _
  | .cons op rank next rest, h, hk => by
      rw [Multipliers.tokens, List.forall_mem_cons, List.forall_mem_append] at h
      have hnext := next.openLevels_le h.2.1 fun hs => hk (.inl hs)
      have hrest := rest.openLevels_le h.2.2 fun hs => hk (.inr hs)
      simp only [Multipliers.links, List.map_cons, Node.openLevelsIn, Multipliers.nesting]
      omega

theorem Unary.openLevels_le : (u : Unary) → (∀ t ∈ u.tokens, t.IsScanned) →
    (u.tree.SuffixesConstant → 1 ≤ k) →
    u.tree.openLevels + (u.tree.needsBrackets .product).toNat ≤ u.nesting + k
  | .plain t, h, hk =>
      (Nat.add_le_add_left t.tree.needsBrackets_le _).trans (t.openLevels_le h hk)
  | .minus t, h, hk => by
      have ht := t.openLevels_le (List.forall_mem_cons.1 h).2 hk
      simp only [Unary.tree, Node.openLevels, Node.needsBrackets, Bool.toNat_false, Unary.nesting]
      omega

theorem Term.openLevels_le : (t : Term) → (∀ t' ∈ t.tokens, t'.IsScanned) →
    (t.tree.SuffixesConstant → 1 ≤ k) →
    t.tree.openLevels + t.tree.isCompound.toNat ≤ t.nesting + k
  | .mk p l, h, hk => by
      rw [Term.tokens, List.forall_mem_append] at h
      have hp := p.openLevels_le h.1 fun hs => hk (Node.suffixesConstant_suffixed hs)
      exact Node.openLevels_suffixed_le hp (family_of_suffixTokens h.2) hk

theorem Primary.openLevels_le : (p : Primary) → (∀ t ∈ p.tokens, t.IsScanned) →
    (p.tree.SuffixesConstant → 1 ≤ k) →
    p.tree.openLevels + p.tree.isCompound.toNat ≤ p.nesting + k
  | .number v, _, _ => Nat.zero_le _
  | .operand i, _, _ => Nat.zero_le _
  | .group inner, h, hk => by
      rw [Primary.tokens, List.forall_mem_cons, List.forall_mem_append] at h
      have hin := inner.openLevels_le h.2.1 hk
      have hc := Bool.toNat_le inner.tree.isCompound
      rw [Primary.tree, Primary.nesting]
      omega
  | .call op first rest, h, hk => by
      rw [Primary.tokens, List.forall_mem_cons, List.forall_mem_cons, List.forall_mem_append,
        List.forall_mem_append] at h
      obtain ⟨hop, -, hfirst, hrest, -⟩ := h
      have hf := first.openLevels_le hfirst fun hs => hk (.inr (.inl hs))
      have hr := rest.openLevels_le hrest fun hs => hk (.inr (.inr hs))
      have hc : (Node.apply op (first.tree :: rest.trees)).isCompound.toNat = 0 := rfl
      rw [Primary.tree, Node.openLevels_call hop, hc, Node.openLevelsOf, Primary.nesting]
      omega

theorem Arguments.openLevels_le : (a : Arguments) → (∀ t ∈ a.tokens, t.IsScanned) →
    (Node.SomeSuffixesConstant a.trees → 1 ≤ k) → Node.openLevelsOf a.trees ≤ a.nesting + k
  | .nil, _, _ => Nat.zero_le _
  | .cons next rest, h, hk => by
      rw [Arguments.tokens, List.forall_mem_cons, List.forall_mem_append] at h
      have hnext := next.openLevels_le h.2.1 fun hs => hk (.inl hs)
      have hrest := rest.openLevels_le h.2.2 fun hs => hk (.inr hs)
      rw [Arguments.trees, Node.openLevelsOf, Arguments.nesting]
      omega

end

end Grammar

/-! ## Trees of accepted formulas -/

variable {formula : String} {n : Node}

/-- The tree of an accepted formula, and the levels that its text opens. -/
theorem readable_of_parse (h : parse formula = .ok n) :
    n.Readable ∧ n.openLevels ≤ nestingLimit + 1 ∧
      (¬ n.SuffixesConstant → n.openLevels ≤ nestingLimit) := by
  obtain ⟨ps, hs, a, ha, hn, rfl⟩ := parseChars_eq_ok_iff.1 h
  have hscanned : ∀ t ∈ a.tokens, t.IsScanned := by
    rw [ha]
    exact List.forall_mem_map.2 (isScanned_of_scanFrom hs)
  refine ⟨a.readable hscanned, ?_, fun hsuffix => ?_⟩
  · exact (a.openLevels_le hscanned fun _ => Nat.le_refl 1).trans (Nat.add_le_add_right hn 1)
  · exact (a.openLevels_le (k := 0) hscanned fun hk => absurd hk hsuffix).trans hn

end TensorFormula
