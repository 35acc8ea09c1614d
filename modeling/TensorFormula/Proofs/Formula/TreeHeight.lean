import TensorFormula.Proofs.Formula.CanonicalText

/-!
# The height of accepted trees

A walk over a tree has as many calls open at once as the longest path of the tree has nodes. Each
level of a formula puts at most three nodes on a path: a sum, a product, and the call or the minus
that opens the next level. The limit on levels therefore bounds the height, except for suffixes,
which open no level and put one node each on the path.
-/

namespace TensorFormula

open Grammar

namespace Node

mutual

/-- The number of nodes on the longest path from the root to a leaf. -/
def height : Node → Nat
  | constant _ => 1
  | operand _ => 1
  | negate n => n.height + 1
  | chain _ ns _ => heightOf ns + 1
  | apply _ ns => heightOf ns + 1

/-- The largest of the heights of some trees. -/
def heightOf : List Node → Nat
  | [] => 0
  | n :: ns => max n.height (heightOf ns)

end

mutual

/-- The largest number of suffixes on a path from the root to a leaf. -/
def suffixHeight : Node → Nat
  | constant _ => 0
  | operand _ => 0
  | negate n => n.suffixHeight
  | chain _ ns _ => suffixHeightOf ns
  | apply op ns => suffixHeightOf ns + if op.family = .shape then 1 else 0

def suffixHeightOf : List Node → Nat
  | [] => 0
  | n :: ns => max n.suffixHeight (suffixHeightOf ns)

end

variable {r : Rank} {n : Node} {ns : List Node} {links : List (Operator × Node)}
  {l : List Operation} {j j' k : Nat}

/-- The levels of some trees are as many as those of the deepest. -/
theorem heightOf_cons_le (hn : n.height ≤ 3 * j + k + n.suffixHeight)
    (hns : heightOf ns ≤ 3 * j' + k + suffixHeightOf ns) :
    heightOf (n :: ns) ≤ 3 * max j j' + k + suffixHeightOf (n :: ns) := by
  rw [heightOf, suffixHeightOf]
  omega

theorem height_ofChain_le
    (h : heightOf (n :: links.map Prod.snd) ≤ k + suffixHeightOf (n :: links.map Prod.snd)) :
    (ofChain r n links).height ≤ k + 1 + (ofChain r n links).suffixHeight := by
  cases links with
  | nil =>
      simp only [List.map_nil, heightOf, suffixHeightOf, Nat.max_zero] at h
      rw [ofChain]
      omega
  | cons link links =>
      change heightOf (n :: (link :: links).map Prod.snd) + 1 ≤
        k + 1 + suffixHeightOf (n :: (link :: links).map Prod.snd)
      omega

/-! ### Suffixes -/

theorem height_suffixed (n : Node) (l : List Operation) :
    (suffixed n l).height = n.height + l.length := by
  induction l generalizing n with
  | nil => rfl
  | cons op l ih =>
      have hstep : (apply op [n]).height = n.height + 1 := by
        rw [height, heightOf, heightOf, Nat.max_zero]
      rw [suffixed, List.foldl_cons, ← suffixed, ih, hstep, List.length_cons]
      omega

theorem suffixHeight_suffixed (n : Node) (hl : ∀ op ∈ l, op.family = .shape) :
    (suffixed n l).suffixHeight = n.suffixHeight + l.length := by
  induction l generalizing n with
  | nil => rfl
  | cons op l ih =>
      rw [List.forall_mem_cons] at hl
      have hstep : (apply op [n]).suffixHeight = n.suffixHeight + 1 := by
        rw [suffixHeight, suffixHeightOf, suffixHeightOf, Nat.max_zero, if_pos hl.1]
      rw [suffixed, List.foldl_cons, ← suffixed, ih _ hl.2, hstep, List.length_cons]
      omega

/-- A suffix is one more node and one more suffix. -/
theorem height_suffixed_le (h : n.height ≤ k + n.suffixHeight)
    (hl : ∀ op ∈ l, op.family = .shape) :
    (suffixed n l).height ≤ k + (suffixed n l).suffixHeight := by
  rw [height_suffixed, suffixHeight_suffixed n hl]
  omega

theorem wellFormed_suffixed (hn : n.WellFormed) (hl : ∀ op ∈ l, op.family = .shape) :
    (suffixed n l).WellFormed := by
  induction l generalizing n with
  | nil => exact hn
  | cons op l ih =>
      rw [List.forall_mem_cons] at hl
      refine ih ?_ hl.2
      exact ⟨by rw [if_pos hl.1]; rfl, hn, trivial⟩

theorem needsBrackets_suffixed (l : List Operation) (hn : n.needsBrackets r = false) :
    (suffixed n l).needsBrackets r = false := by
  induction l generalizing n with
  | nil => exact hn
  | cons op l ih => exact ih rfl

/-- Behind anything but a constant, suffixes are written without brackets. -/
theorem text_suffixed (hn : (n.isCompound || n.isConstant) = false)
    (hl : ∀ op ∈ l, op.family = .shape) :
    (suffixed n l).text = n.text ++ l.flatMap (fun op => '.' :: op.letters) ∧
      (suffixed n l).openLevels = n.openLevels := by
  induction l generalizing n with
  | nil => exact ⟨(List.append_nil _).symm, rfl⟩
  | cons op l ih =>
      rw [List.forall_mem_cons] at hl
      obtain ⟨htext, hlevels⟩ := ih (n := apply op [n]) rfl hl.2
      rw [text, if_pos hl.1, hn, bracket] at htext
      rw [openLevels, if_pos hl.1, hn] at hlevels
      refine ⟨htext.trans ?_, hlevels⟩
      rw [List.flatMap_cons, List.append_assoc]
      rfl

end Node

/-! ## Heights of derivations -/

namespace Grammar

mutual

/-- A sum has three nodes on a path for each level inside it and three of its own, suffixes not
counted. -/
theorem Additive.height_le : (a : Additive) → (∀ t ∈ a.tokens, t.IsScanned) →
    a.tree.height ≤ 3 * a.nesting + 3 + a.tree.suffixHeight
  | .mk first rest, h => by
      rw [Additive.tokens, List.forall_mem_append] at h
      have hall := Node.heightOf_cons_le (first.height_le h.1) (rest.heightOf_le h.2)
      exact Node.height_ofChain_le hall

theorem Addends.heightOf_le : (a : Addends) → (∀ t ∈ a.tokens, t.IsScanned) →
    Node.heightOf (a.links.map Prod.snd) ≤
      3 * a.nesting + 2 + Node.suffixHeightOf (a.links.map Prod.snd)
  | .nil, _ => Nat.zero_le _
  | .cons op rank next rest, h => by
      rw [Addends.tokens, List.forall_mem_cons, List.forall_mem_append] at h
      exact Node.heightOf_cons_le (next.height_le h.2.1) (rest.heightOf_le h.2.2)

theorem Multiplicative.height_le : (m : Multiplicative) → (∀ t ∈ m.tokens, t.IsScanned) →
    m.tree.height ≤ 3 * m.nesting + 2 + m.tree.suffixHeight
  | .mk first rest, h => by
      rw [Multiplicative.tokens, List.forall_mem_append] at h
      have hall := Node.heightOf_cons_le (first.height_le h.1) (rest.heightOf_le h.2)
      exact Node.height_ofChain_le hall

theorem Multipliers.heightOf_le : (m : Multipliers) → (∀ t ∈ m.tokens, t.IsScanned) →
    Node.heightOf (m.links.map Prod.snd) ≤
      3 * m.nesting + 1 + Node.suffixHeightOf (m.links.map Prod.snd)
  | .nil, _ => Nat.zero_le _
  | .cons op rank next rest, h => by
      rw [Multipliers.tokens, List.forall_mem_cons, List.forall_mem_append] at h
      exact Node.heightOf_cons_le (next.height_le h.2.1) (rest.heightOf_le h.2.2)

theorem Unary.height_le : (u : Unary) → (∀ t ∈ u.tokens, t.IsScanned) →
    u.tree.height ≤ 3 * u.nesting + 1 + u.tree.suffixHeight
  | .plain t, h => t.height_le h
  | .minus t, h => by
      have ht := t.height_le (List.forall_mem_cons.1 h).2
      simp only [Unary.tree, Node.height, Node.suffixHeight, Unary.nesting]
      omega

theorem Term.height_le : (t : Term) → (∀ t' ∈ t.tokens, t'.IsScanned) →
    t.tree.height ≤ 3 * t.nesting + 1 + t.tree.suffixHeight
  | .mk p l, h => by
      rw [Term.tokens, List.forall_mem_append] at h
      exact Node.height_suffixed_le (p.height_le h.1) (family_of_suffixTokens h.2)

theorem Primary.height_le : (p : Primary) → (∀ t ∈ p.tokens, t.IsScanned) →
    p.tree.height ≤ 3 * p.nesting + 1 + p.tree.suffixHeight
  | .number _, _ => Nat.le_refl 1
  | .operand _, _ => Nat.le_refl 1
  | .group inner, h => by
      rw [Primary.tokens, List.forall_mem_cons, List.forall_mem_append] at h
      have hin := inner.height_le h.2.1
      rw [Primary.tree, Primary.nesting]
      omega
  | .call op first rest, h => by
      rw [Primary.tokens, List.forall_mem_cons, List.forall_mem_cons, List.forall_mem_append,
        List.forall_mem_append] at h
      obtain ⟨-, -, hfirst, hrest, -⟩ := h
      have hall := Node.heightOf_cons_le (first.height_le hfirst) (rest.heightOf_le hrest)
      rw [Primary.tree, Node.height, Node.suffixHeight, Primary.nesting]
      omega

theorem Arguments.heightOf_le : (a : Arguments) → (∀ t ∈ a.tokens, t.IsScanned) →
    Node.heightOf a.trees ≤ 3 * a.nesting + 3 + Node.suffixHeightOf a.trees
  | .nil, _ => Nat.zero_le _
  | .cons next rest, h => by
      rw [Arguments.tokens, List.forall_mem_cons, List.forall_mem_append] at h
      exact Node.heightOf_cons_le (next.height_le h.2.1) (rest.heightOf_le h.2.2)

end

end Grammar

/-! ## Tall trees -/

namespace Node

/-- A tree below a product, below a sum. -/
def layer (n : Node) : Node :=
  .chain .sum [.operand 0, .chain .product [.operand 0, n] [.mul]] [.add]

/-- A layer around a tree, and `j` calls around it with a layer each. -/
def tower (n : Node) : Nat → Node
  | 0 => layer n
  | j + 1 => layer (.apply .sqrt [tower n j])

variable {n : Node}

theorem height_pos (n : Node) : 0 < n.height := by
  cases n <;> exact Nat.succ_pos _

theorem height_layer (n : Node) : n.layer.height = n.height + 2 := by
  have hn := n.height_pos
  simp only [layer, height, heightOf]
  omega

theorem suffixHeight_layer (n : Node) : n.layer.suffixHeight = n.suffixHeight := by
  simp [layer, suffixHeight, suffixHeightOf]

theorem openLevels_layer (hn : n.needsBrackets .product = false) :
    n.layer.openLevels = n.openLevels := by
  have hfirst (r : Rank) : (operand 0).needsBrackets r = false := rfl
  have hproduct : (chain .product [.operand 0, n] [.mul]).needsBrackets .sum = false := rfl
  simp [layer, openLevels, openLevelsIn, hfirst, hproduct, hn]

theorem wellFormed_layer (hn : n.WellFormed) : n.layer.WellFormed := by
  simp [layer, WellFormed, AllWellFormed, Rank.of, hn]

theorem height_tower (n : Node) (j : Nat) : (n.tower j).height = 3 * j + 2 + n.height := by
  induction j with
  | zero => rw [tower, height_layer]; omega
  | succ j ih =>
      rw [tower, height_layer, height, heightOf, heightOf, ih]
      omega

theorem suffixHeight_tower (n : Node) (j : Nat) : (n.tower j).suffixHeight = n.suffixHeight := by
  induction j with
  | zero => exact suffixHeight_layer n
  | succ j ih =>
      rw [tower, suffixHeight_layer, suffixHeight, suffixHeightOf, suffixHeightOf, ih,
        if_neg (by decide), Nat.max_zero, Nat.add_zero]

theorem openLevels_tower (hn : n.needsBrackets .product = false) (j : Nat) :
    (n.tower j).openLevels = n.openLevels + j := by
  induction j with
  | zero => exact openLevels_layer hn
  | succ j ih =>
      rw [tower, openLevels_layer rfl, openLevels, if_neg (by decide), ih, Nat.add_assoc]

theorem wellFormed_tower (hn : n.WellFormed) (j : Nat) : (n.tower j).WellFormed := by
  induction j with
  | zero => exact wellFormed_layer hn
  | succ j ih => exact wellFormed_layer ⟨by simp [Operation.family], ih, trivial⟩

/-- The first operand with `k` suffixes. -/
def transposed (k : Nat) : Node := suffixed (.operand 0) (List.replicate k .transpose)

theorem family_of_mem_replicate (k : Nat) :
    ∀ op ∈ List.replicate k Operation.transpose, op.family = .shape := by
  intro op hop
  rw [List.eq_of_mem_replicate hop]
  rfl

theorem height_transposed (k : Nat) : (transposed k).height = k + 1 := by
  rw [transposed, height_suffixed, List.length_replicate, height, Nat.add_comm]

theorem suffixHeight_transposed (k : Nat) : (transposed k).suffixHeight = k := by
  rw [transposed, suffixHeight_suffixed _ (family_of_mem_replicate k), List.length_replicate,
    suffixHeight, Nat.zero_add]

theorem wellFormed_transposed (k : Nat) : (transposed k).WellFormed :=
  wellFormed_suffixed (by decide : 0 < Nat.pow 2 64) (family_of_mem_replicate k)

theorem needsBrackets_transposed (k : Nat) : (transposed k).needsBrackets .product = false :=
  needsBrackets_suffixed (n := .operand 0) _ rfl

theorem openLevels_transposed (k : Nat) : (transposed k).openLevels = 0 :=
  (text_suffixed (n := .operand 0) rfl (family_of_mem_replicate k)).2

theorem text_transposed (k : Nat) :
    (transposed k).text = '%' :: '0' :: (List.replicate k ['.', 'T']).flatten := by
  refine (text_suffixed (n := .operand 0) rfl (family_of_mem_replicate k)).1.trans ?_
  rw [List.flatMap_replicate]
  rfl

end Node

/-! ## Main statement -/

/-- As many calls as may be nested, around `k` suffixes. -/
theorem parse_tower (k : Nat) :
    parse ((Node.transposed k).tower nestingLimit).toText =
      .ok ((Node.transposed k).tower nestingLimit) := by
  have hlevels : ((Node.transposed k).tower nestingLimit).openLevels = nestingLimit := by
    rw [Node.openLevels_tower (Node.needsBrackets_transposed k), Node.openLevels_transposed,
      Nat.zero_add]
  exact (Node.wellFormed_tower (Node.wellFormed_transposed k) nestingLimit).parse_toText.1
    hlevels.le

/-- The limit on levels bounds the height of the tree of an accepted formula up to the suffixes on a
path, and there is an accepted formula with as many suffixes that reaches the bound. -/
theorem height_bounded_up_to_suffixes (formula : String) (n : Node) (h : parse formula = .ok n) :
    n.height ≤ 3 * (nestingLimit + 1) + n.suffixHeight ∧
    (n.suffixHeight ≤ nestingLimit + 1 → n.height ≤ 4 * (nestingLimit + 1)) ∧
    ∃ formula' n', parse formula' = .ok n' ∧ n'.suffixHeight = n.suffixHeight ∧
      n'.height = 3 * (nestingLimit + 1) + n.suffixHeight := by
  obtain ⟨ps, hs, a, ha, hn, rfl⟩ := parseChars_eq_ok_iff.1 h
  have hscanned : ∀ t ∈ a.tokens, t.IsScanned := by
    rw [ha]
    exact List.forall_mem_map.2 (isScanned_of_scanFrom hs)
  have hheight := a.height_le hscanned
  refine ⟨by omega, by omega, _, _, parse_tower a.tree.suffixHeight, ?_, ?_⟩
  · rw [Node.suffixHeight_tower, Node.suffixHeight_transposed]
  · rw [Node.height_tower, Node.height_transposed]
    omega

/-- Every level is taken, and there is one suffix more than levels. -/
def tallTree : Node := (Node.transposed (nestingLimit + 1)).tower nestingLimit

theorem height_bounded_up_to_suffixes_tallTree :
    parse tallTree.toText = .ok tallTree ∧ tallTree.suffixHeight = nestingLimit + 1 ∧
      tallTree.height ≤ 4 * (nestingLimit + 1) := by
  have hp : parse tallTree.toText = .ok tallTree := parse_tower (nestingLimit + 1)
  have hs : tallTree.suffixHeight = nestingLimit + 1 := by
    rw [tallTree, Node.suffixHeight_tower, Node.suffixHeight_transposed]
  exact ⟨hp, hs, (height_bounded_up_to_suffixes _ _ hp).2.1 hs.le⟩

/-- An operand with `k` suffixes. -/
def suffixText (k : Nat) : List Char := '%' :: '0' :: (List.replicate k ['.', 'T']).flatten

theorem parse_suffixText (k : Nat) :
    parse (String.ofList (suffixText k)) = .ok (Node.transposed k) := by
  have hlevels : (Node.transposed k).openLevels ≤ nestingLimit := by
    rw [Node.openLevels_transposed]
    exact Nat.zero_le _
  have hp := (Node.wellFormed_transposed k).parse_toText.1 hlevels
  rwa [Node.toText, Node.text_transposed] at hp

theorem suffixText_higher_than_limit :
    ∃ n, parse (String.ofList (suffixText (4 * (nestingLimit + 1)))) = .ok n ∧
      4 * (nestingLimit + 1) < n.height := by
  refine ⟨_, parse_suffixText _, ?_⟩
  rw [Node.height_transposed]
  exact Nat.lt_succ_self _

end TensorFormula
