import TensorFormula.Proofs.Formula.RoundTrip

/-!
# The longest match

The lexemes of a text are what the token patterns match: where a lexeme begins, it is the longest
start of the remaining text that any pattern matches. It stays the longest one if the text is cut
behind it, and also if the text goes on with a character that no pattern can take up.
-/

namespace TensorFormula

namespace Lexeme

open Text

variable {c : Char} {cs more rest rest' v w w' : List Char} {p : Char → Bool}

/-! ## Patterns -/

/-- Letters, digits and underscores that do not begin with a digit. -/
inductive IsName : List Char → Prop
  | mk {c : Char} {more : List Char} (hc : isNameStart c = true)
      (hm : ∀ d ∈ more, isNamePart d = true) : IsName (c :: more)

/-- The characters that are a token by themselves. -/
def symbols : List Char := ['(', ')', ',', '.', '+', '-', '*', '/']

/-- What the token patterns match. -/
inductive IsLexeme : List Char → Prop
  | number {w : List Char} (h : IsLiteral w) : IsLexeme w
  /-- A percent sign, also without digits. -/
  | operand {ds : List Char} (hd : ∀ c ∈ ds, c.isDigit = true) : IsLexeme ('%' :: ds)
  | name {w : List Char} (h : IsName w) : IsLexeme w
  | symbol {c : Char} (h : c ∈ symbols) : IsLexeme [c]

/-- The longest start of a text that a pattern matches. -/
structure Longest (cs w : List Char) : Prop where
  start : w <+: cs
  matched : IsLexeme w
  greatest : ∀ v, v <+: cs → IsLexeme v → v.length ≤ w.length

theorem Longest.unique (h : Longest cs w) (h' : Longest cs w') : w = w' := by
  have hle : w'.length ≤ w.length := h.greatest w' h'.start h'.matched
  have hle' : w.length ≤ w'.length := h'.greatest w h.start h.matched
  exact (List.prefix_of_prefix_length_le h.start h'.start hle').eq_of_length_le hle

/-- A match is still the longest one if the text is cut behind it. -/
theorem Longest.of_append (h : Longest (cs ++ rest) w) (hw : w <+: cs) : Longest cs w :=
  ⟨hw, h.matched, fun v hv hp => h.greatest v (hv.trans (List.prefix_append cs rest)) hp⟩

/-- What a pattern can begin with. -/
def Starts (c : Char) : Prop :=
  c.isDigit = true ∨ c = '%' ∨ isNameStart c = true ∨ c ∈ symbols

/-- The symbols begin none of the longer lexemes. -/
theorem not_starts_otherwise (hc : c ∈ symbols) :
    c.isDigit = false ∧ c ≠ '%' ∧ isNameStart c = false := by
  simp only [symbols, List.mem_cons, List.not_mem_nil, or_false] at hc
  rcases hc with rfl | rfl | rfl | rfl | rfl | rfl | rfl | rfl <;> decide

theorem IsLexeme.eq_cons (h : IsLexeme w) : ∃ c more, w = c :: more ∧ Starts c := by
  cases h with
  | number h =>
      cases h with
      | @whole ds hne hd =>
          obtain ⟨c, ds, rfl⟩ := List.exists_cons_of_ne_nil hne
          exact ⟨c, ds, rfl, .inl (hd c List.mem_cons_self)⟩
      | @fraction ds fs hne hd =>
          obtain ⟨c, ds, rfl⟩ := List.exists_cons_of_ne_nil hne
          exact ⟨c, ds ++ '.' :: fs, rfl, .inl (hd c List.mem_cons_self)⟩
  | operand hd => exact ⟨_, _, rfl, .inr (.inl rfl)⟩
  | name h =>
      obtain ⟨hc, hm⟩ := h
      exact ⟨_, _, rfl, .inr (.inr (.inl hc))⟩
  | symbol h => exact ⟨_, [], rfl, .inr (.inr (.inr h))⟩

theorem not_isLexeme_of_prefix (hc : ¬ Starts c) (hw : w <+: c :: cs) : ¬ IsLexeme w := by
  intro h
  obtain ⟨d, more, rfl, hd⟩ := h.eq_cons
  obtain ⟨rfl, -⟩ := List.cons_prefix_cons.1 hw
  exact hc hd

/-! ## Runs of characters -/

theorem take_runLength (p : Char → Bool) (cs : List Char) :
    cs.take (runLength p cs) = cs.takeWhile p :=
  (List.prefix_iff_eq_take.1 (List.takeWhile_prefix p)).symm

theorem runLength_le (p : Char → Bool) (cs : List Char) : runLength p cs ≤ cs.length :=
  (List.takeWhile_prefix p).length_le

theorem length_le_runLength (hv : ∀ d ∈ v, p d = true) (h : v <+: cs) :
    v.length ≤ runLength p cs := by
  obtain ⟨t, rfl⟩ := h
  rw [runLength, List.takeWhile_append_of_pos hv, List.length_append]
  exact Nat.le_add_right _ _

theorem runLength_append_of_head (h : ∀ d ∈ rest.head?, p d = false) :
    runLength p (cs ++ rest) = runLength p cs := by
  induction cs with
  | nil => exact runLength_append (List.forall_mem_nil _) h
  | cons d cs ih =>
      unfold runLength at ih ⊢
      rw [List.cons_append, List.takeWhile_cons, List.takeWhile_cons]
      split
      · rw [List.length_cons, List.length_cons, ih]
      · rfl

theorem not_of_runLength (hm : ∀ d ∈ more, p d = true)
    (h : runLength p (more ++ rest) = more.length) : ∀ d ∈ rest.head?, p d = false := by
  intro d hd
  obtain ⟨rest, rfl⟩ := List.head?_eq_some_iff.1 hd
  rw [Bool.eq_false_iff]
  intro hp
  have hlt : (more ++ [d]).length ≤ runLength p (more ++ d :: rest) := by
    refine length_le_runLength ?_ ⟨rest, List.append_cons more d rest ▸ rfl⟩
    simpa [or_imp, forall_and] using ⟨hm, hp⟩
  rw [h, List.length_append, List.length_singleton] at hlt
  omega

theorem fractionLength_le (cs : List Char) : fractionLength cs ≤ cs.length := by
  unfold fractionLength
  split
  · next cs =>
      have hrun := runLength_le Char.isDigit cs
      split <;> simp only [List.length_cons] <;> omega
  · exact Nat.zero_le _

theorem fractionLength_append (h : Stops rest) :
    fractionLength (cs ++ rest) = fractionLength cs := by
  cases cs with
  | nil => exact h.2
  | cons d cs =>
      by_cases hd : d = '.'
      · subst hd
        simp only [List.cons_append, fractionLength, runLength_append_of_head h.not_digit]
      · have hzero (ds : List Char) : fractionLength (d :: ds) = 0 := by
          unfold fractionLength
          split
          · next heq => exact absurd (List.cons.inj heq).1 hd
          · rfl
        rw [List.cons_append, hzero, hzero]

/-! ## How far a lexeme goes -/

theorem further_percent (cs : List Char) : further '%' cs = runLength Char.isDigit cs := rfl

theorem further_of_mem_symbols (hc : c ∈ symbols) (cs : List Char) : further c cs = 0 := by
  have h := not_starts_otherwise hc
  simp [further, h]

theorem further_of_not_starts (hc : ¬ Starts c) (cs : List Char) : further c cs = 0 := by
  simp only [Starts, not_or] at hc
  simp [further, hc.1, hc.2.1, hc.2.2.1]

theorem further_le (c : Char) (cs : List Char) : further c cs ≤ cs.length := by
  unfold further
  dsimp only
  have hrun (p : Char → Bool) := runLength_le p cs
  split
  · have hfraction := fractionLength_le (cs.drop (runLength Char.isDigit cs))
    have hdigits := hrun Char.isDigit
    rw [List.length_drop] at hfraction
    omega
  · split
    · exact hrun _
    · split
      · exact hrun _
      · exact Nat.zero_le _

theorem further_append (h : Stops rest) (c : Char) (cs : List Char) :
    further c (cs ++ rest) = further c cs := by
  unfold further
  dsimp only
  rw [runLength_append_of_head h.not_digit, runLength_append_of_head h.1,
    List.drop_append_of_le_length (runLength_le Char.isDigit cs), fractionLength_append h]

theorem isLiteral_further (hc : c.isDigit = true) (cs : List Char) :
    IsLiteral (c :: cs.take (further c cs)) := by
  have hdigits : ∀ d ∈ c :: cs.take (runLength Char.isDigit cs), d.isDigit = true := by
    rw [take_runLength]
    exact List.forall_mem_cons.2 ⟨hc, fun d => List.mem_takeWhile_imp⟩
  rw [further_of_isDigit hc]
  generalize runLength Char.isDigit cs = n at *
  by_cases hzero : fractionLength (cs.drop n) = 0
  · rw [hzero, Nat.add_zero]
    exact .whole (List.cons_ne_nil _ _) hdigits
  · rw [List.take_add]
    generalize cs.drop n = ds at *
    unfold fractionLength at hzero ⊢
    split at hzero
    · next fs =>
        have hne : runLength Char.isDigit fs ≠ 0 := fun h => hzero (if_pos h)
        rw [if_neg hne, List.take_succ_cons, take_runLength]
        refine .fraction (List.cons_ne_nil _ _) hdigits ?_ fun d => List.mem_takeWhile_imp
        exact fun h => hne (congrArg List.length h)
    · exact absurd rfl hzero

theorem isLexeme_further (hc : Starts c) (cs : List Char) :
    IsLexeme (c :: cs.take (further c cs)) := by
  obtain hd | rfl | hn | hs := hc
  · exact .number (isLiteral_further hd cs)
  · rw [further_percent, take_runLength]
    exact .operand fun d => List.mem_takeWhile_imp
  · rw [further_of_isNameStart hn, take_runLength]
    exact .name (.mk hn fun d => List.mem_takeWhile_imp)
  · rw [further_of_mem_symbols hs, List.take_zero]
    exact .symbol hs

theorem length_le_further_of_isLiteral (hl : IsLiteral (c :: v)) (hv : v <+: cs) :
    v.length ≤ further c cs := by
  generalize he : c :: v = w at hl
  cases hl with
  | whole hne hd =>
      subst he
      rw [List.forall_mem_cons] at hd
      rw [further_of_isDigit hd.1]
      exact (length_le_runLength hd.2 hv).trans (Nat.le_add_right _ _)
  | @fraction ds fs hne hd hne' hd' =>
      obtain ⟨d, ds, rfl⟩ := List.exists_cons_of_ne_nil hne
      rw [List.cons_append] at he
      obtain ⟨rfl, rfl⟩ := List.cons.inj he
      obtain ⟨t, rfl⟩ := hv
      rw [List.forall_mem_cons] at hd
      have hrun : runLength Char.isDigit (ds ++ '.' :: (fs ++ t)) = ds.length :=
        runLength_append hd.2 (by simp)
      have hfraction : fs.length ≤ runLength Char.isDigit (fs ++ t) :=
        length_le_runLength hd' (List.prefix_append fs t)
      -- The digits behind the point keep the scanner from stopping before it.
      have hpos : 0 < fs.length := List.length_pos_iff.2 hne'
      rw [List.append_assoc, List.cons_append, further_of_isDigit hd.1, hrun, List.drop_left,
        fractionLength, if_neg (by omega), List.length_append, List.length_cons]
      omega

theorem length_le_further (hp : IsLexeme (c :: v)) (hv : v <+: cs) : v.length ≤ further c cs := by
  generalize he : c :: v = w at hp
  cases hp with
  | number h => exact length_le_further_of_isLiteral (he ▸ h) hv
  | operand hd =>
      obtain ⟨rfl, rfl⟩ := List.cons.inj he
      exact length_le_runLength hd hv
  | name h =>
      obtain ⟨hc, hm⟩ := h
      obtain ⟨rfl, rfl⟩ := List.cons.inj he
      rw [further_of_isNameStart hc]
      exact length_le_runLength hm hv
  | symbol h =>
      obtain ⟨-, rfl⟩ := List.cons.inj he
      exact Nat.zero_le _

/-- A lexeme is the longest match at its place. -/
theorem longest_further (hc : Starts c) (cs : List Char) :
    Longest (c :: cs) (c :: cs.take (further c cs)) := by
  refine ⟨List.cons_prefix_cons.2 ⟨rfl, List.take_prefix _ _⟩, isLexeme_further hc cs, ?_⟩
  intro w hw hp
  obtain ⟨d, v, rfl, -⟩ := hp.eq_cons
  obtain ⟨rfl, hv⟩ := List.cons_prefix_cons.1 hw
  rw [List.length_cons, List.length_cons, List.length_take_of_le (further_le d cs)]
  exact Nat.succ_le_succ (length_le_further hp hv)

theorem longest_of_further (hc : Starts c) (hf : further c (more ++ rest) = more.length) :
    Longest (c :: more ++ rest) (c :: more) := by
  have h := longest_further hc (more ++ rest)
  rwa [hf, List.take_left] at h

theorem further_of_longest (h : Longest (c :: more ++ rest) (c :: more)) :
    further c (more ++ rest) = more.length := by
  obtain ⟨d, v, heq, hd⟩ := h.matched.eq_cons
  obtain ⟨rfl, rfl⟩ := List.cons.inj heq
  have hsame := congrArg List.length (h.unique (longest_further hd (more ++ rest)))
  rw [List.length_cons, List.length_cons, List.length_take_of_le (further_le _ _)] at hsame
  exact (Nat.succ.inj hsame).symm

/-- A lexeme does not change if the text is cut somewhere behind it. -/
theorem further_cut (h : further c (more ++ (rest ++ rest')) = more.length) :
    further c (more ++ rest) = more.length := by
  by_cases hc : Starts c
  · have hlong := longest_of_further hc h
    rw [← List.append_assoc] at hlong
    exact further_of_longest (hlong.of_append (List.prefix_append _ _))
  · rw [further_of_not_starts hc] at h ⊢
    exact h

end Lexeme

end TensorFormula
