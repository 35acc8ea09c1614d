import TensorFormula.Proofs.Formula.Recognition

/-!
# Where levels are opened

A group, a call and the minus before a term each open a level. The openings of a derivation say of
each token whether it opens a level, and how many levels are open around it. As far as the parser
comes in a sentence, it stands as deep at each of these tokens as the derivation says.
-/

namespace TensorFormula

namespace Grammar

def suffixOpenings (suffixes : List Operation) : List (Option Nat) :=
  suffixes.flatMap fun _ => [none, none]

mutual

/-- For each token of a phrase, the number of levels around it if it opens a level, `base` of them
being around the phrase. The name of a function opens the level of its arguments. -/
def Additive.openings (base : Nat) : Additive → List (Option Nat)
  | .mk first rest => first.openings base ++ rest.openings base

def Addends.openings (base : Nat) : Addends → List (Option Nat)
  | .nil => []
  | .cons _ _ next rest => none :: (next.openings base ++ rest.openings base)

def Multiplicative.openings (base : Nat) : Multiplicative → List (Option Nat)
  | .mk first rest => first.openings base ++ rest.openings base

def Multipliers.openings (base : Nat) : Multipliers → List (Option Nat)
  | .nil => []
  | .cons _ _ next rest => none :: (next.openings base ++ rest.openings base)

def Unary.openings (base : Nat) : Unary → List (Option Nat)
  | .plain term => term.openings base
  | .minus term => some base :: term.openings (base + 1)

def Term.openings (base : Nat) : Term → List (Option Nat)
  | .mk primary suffixes => primary.openings base ++ suffixOpenings suffixes

def Primary.openings (base : Nat) : Primary → List (Option Nat)
  | .number _ => [none]
  | .operand _ => [none]
  | .call _ first rest =>
      some base :: none :: (first.openings (base + 1) ++ (rest.openings (base + 1) ++ [none]))
  | .group inner => some base :: (inner.openings (base + 1) ++ [none])

def Arguments.openings (base : Nat) : Arguments → List (Option Nat)
  | .nil => []
  | .cons next rest => none :: (next.openings base ++ rest.openings base)

end

theorem length_suffixOpenings (l : List Operation) :
    (suffixOpenings l).length = (suffixTokens l).length := by
  simp [suffixOpenings, suffixTokens]

mutual

theorem Additive.length_openings (base : Nat) :
    (a : Additive) → (a.openings base).length = a.tokens.length
  | .mk first rest => by
      simp [Additive.openings, Additive.tokens, first.length_openings, rest.length_openings]

theorem Addends.length_openings (base : Nat) :
    (a : Addends) → (a.openings base).length = a.tokens.length
  | .nil => rfl
  | .cons _ _ next rest => by
      simp [Addends.openings, Addends.tokens, next.length_openings, rest.length_openings]

theorem Multiplicative.length_openings (base : Nat) :
    (m : Multiplicative) → (m.openings base).length = m.tokens.length
  | .mk first rest => by
      simp [Multiplicative.openings, Multiplicative.tokens, first.length_openings,
        rest.length_openings]

theorem Multipliers.length_openings (base : Nat) :
    (m : Multipliers) → (m.openings base).length = m.tokens.length
  | .nil => rfl
  | .cons _ _ next rest => by
      simp [Multipliers.openings, Multipliers.tokens, next.length_openings, rest.length_openings]

theorem Unary.length_openings (base : Nat) :
    (u : Unary) → (u.openings base).length = u.tokens.length
  | .plain t => t.length_openings base
  | .minus t => congrArg Nat.succ (t.length_openings (base + 1))

theorem Term.length_openings (base : Nat) :
    (t : Term) → (t.openings base).length = t.tokens.length
  | .mk p l => by simp [Term.openings, Term.tokens, p.length_openings, length_suffixOpenings]

theorem Primary.length_openings (base : Nat) :
    (p : Primary) → (p.openings base).length = p.tokens.length
  | .number _ => rfl
  | .operand _ => rfl
  | .call _ first rest => by
      simp [Primary.openings, Primary.tokens, first.length_openings, rest.length_openings]
  | .group inner => by simp [Primary.openings, Primary.tokens, inner.length_openings]

theorem Arguments.length_openings (base : Nat) :
    (a : Arguments) → (a.openings base).length = a.tokens.length
  | .nil => rfl
  | .cons next rest => by
      simp [Arguments.openings, Arguments.tokens, next.length_openings, rest.length_openings]

end

end Grammar

open Grammar

namespace ParseState

/-- The number of open levels, if the token opens one more after what has been read. -/
def opening (s : ParseState) (t : Token) : Option Nat :=
  match s.wanted, t with
  | .factor, .operator .sub => some s.depth
  | .factor, .openBracket | .term, .openBracket => some s.depth
  | .factor, .function _ | .term, .function _ => some s.depth
  | _, _ => none

/-- Wherever the parser comes to in these tokens from `s`, it finds the opening listed there. -/
def Opens (s : ParseState) (ts : List Token) (openings : List (Option Nat)) : Prop :=
  ∀ (ps : List Placed) (t : Token) (rest : List Token) (s' : ParseState),
    ps.map Placed.token ++ t :: rest = ts → ps.foldlM step s = .ok s' →
    openings[ps.length]? = some (s'.opening t)

variable {s s' : ParseState} {t : Token} {ts ts' : List Token} {top : Nat} {m : Option Nat}
  {ms ms' : List (Option Nat)}

theorem opens_nil : Opens s [] ms := by
  intro ps t rest s' he
  simp at he

theorem Opens.cons (hm : s.opening t = m) (h : ∀ o s', s.step ⟨t, o⟩ = .ok s' → Opens s' ts ms) :
    Opens s (t :: ts) (m :: ms) := by
  intro ps t' rest s' he hr
  cases ps with
  | nil =>
      obtain ⟨ht, -⟩ := List.cons.inj he
      obtain rfl := Except.ok.inj hr
      simp [ht, hm]
  | cons p ps =>
      obtain ⟨ht, hrest⟩ := List.cons.inj he
      obtain ⟨s₁, hs, hr⟩ := exists_of_run_cons hr
      exact h p.offset s₁ (ht ▸ hs) ps t' rest s' hrest hr

theorem Reads.eq_of_run {ps : List Placed} (h : Reads top s ts s')
    (hp : ps.map Placed.token = ts) {s₁ : ParseState} (hr : ps.foldlM step s = .ok s₁) :
    s₁ = s' := by
  by_cases ht : top ≤ nestingLimit
  · exact Except.ok.inj (hr.symm.trans ((h ps hp).1 ht))
  · obtain ⟨o, ho⟩ := (h ps hp).2 (Nat.lt_of_not_le ht)
    cases hr.symm.trans ho

theorem Opens.append (h : Opens s ts ms) (hlen : ms.length = ts.length) (hr : Reads top s ts s')
    (h' : Opens s' ts' ms') : Opens s (ts ++ ts') (ms ++ ms') := by
  intro ps t rest s₂ he hrun
  have hsecond (qs rs : List Placed) (hp : ps = qs ++ rs) (hq : qs.map Placed.token = ts)
      (hrs : rs.map Placed.token ++ t :: rest = ts') :
      (ms ++ ms')[ps.length]? = some (s₂.opening t) := by
    subst hp
    have hl : ms.length = qs.length := by rw [hlen, ← hq, List.length_map]
    rw [List.foldlM_append] at hrun
    cases hs : qs.foldlM step s with
    | error f => simp [hs, bind, Except.bind] at hrun
    | ok s₁ =>
        obtain rfl := hr.eq_of_run hq hs
        rw [hs] at hrun
        rw [List.length_append, ← hl, List.getElem?_append_right (Nat.le_add_right _ _),
          Nat.add_sub_cancel_left]
        exact h' rs t rest s₂ hrs hrun
  obtain ⟨rest', hts, hrest⟩ | ⟨qs, hp, hts'⟩ := List.append_eq_append_iff.1 he
  · cases rest' with
    | nil => exact hsecond ps [] (by simp) (by simpa using hts.symm) hrest
    | cons t' rest' =>
        obtain ⟨rfl, -⟩ := List.cons.inj hrest
        have hin := h ps t rest' s₂ hts.symm hrun
        rw [List.getElem?_append_left (List.getElem?_eq_some_iff.1 hin).1]
        exact hin
  · obtain ⟨qs', rs, rfl, hq, rfl⟩ := List.map_eq_append_iff.1 hp
    exact hsecond qs' rs rfl hq hts'.symm

/-! ## The openings that the parser finds -/

variable {n : Node} {c : Clause} {E : List (Opener × Clause)}

theorem WantsTerm.opening_eq (h : s.WantsTerm) (ht : t ≠ .operator .sub) :
    s.opening t = match t with
      | .openBracket => some s.depth
      | .function _ => some s.depth
      | _ => none := by
  obtain ⟨w, c, E⟩ := s
  rcases h with h | h <;> obtain rfl : w = _ := h
  · cases t with
    | operator op => cases op <;> first | rfl | exact absurd rfl ht
    | _ => rfl
  · cases t <;> rfl

theorem lt_of_nest_eq_ok {o : Nat} {deeper : ParseState} (h : s.nest o deeper = .ok s') :
    s.depth < nestingLimit := by
  unfold nest at h
  split at h
  · assumption
  · cases h

theorem opens_suffixes (n : Node) (l : List Operation) :
    Opens (after n c E) (suffixTokens l) (suffixOpenings l) := by
  induction l generalizing n with
  | nil => exact opens_nil
  | cons op l ih =>
      refine .cons rfl fun o s' hs => ?_
      obtain rfl := Except.ok.inj hs
      refine .cons rfl fun o s' hs => ?_
      obtain rfl := Except.ok.inj hs
      exact ih _

mutual

theorem opens_additive (E : List (Opener × Clause)) : (a : Additive) → levels E ≤ nestingLimit →
    Opens ⟨.factor, .blank, E⟩ a.tokens (a.openings (levels E))
  | .mk first rest, hE => by
      obtain ⟨n, c, -, -, hr⟩ := reads_multiplicative E [] first hE
      exact (opens_multiplicative E [] first hE).append (first.length_openings _) hr
        (opens_addends E n c rest hE)

theorem opens_addends (E : List (Opener × Clause)) (n : Node) (c : Clause) :
    (a : Addends) → levels E ≤ nestingLimit →
    Opens (after n c E) a.tokens (a.openings (levels E))
  | .nil, _ => opens_nil
  | .cons op rank next rest, hE => by
      obtain ⟨n₁, c₁, -, -, hr⟩ := reads_multiplicative E ((c.product n, op) :: c.sums) next hE
      have hc : c.continued n op = ⟨(c.product n, op) :: c.sums, [], false⟩ := by
        simp [Clause.continued, rank]
      refine .cons rfl fun o s' hs => ?_
      obtain rfl : ⟨.factor, c.continued n op, E⟩ = s' := Except.ok.inj hs
      rw [hc]
      exact (opens_multiplicative E _ next hE).append (next.length_openings _) hr
        (opens_addends E n₁ c₁ rest hE)

theorem opens_multiplicative (E : List (Opener × Clause)) (sums : Links) :
    (m : Multiplicative) → levels E ≤ nestingLimit →
    Opens ⟨.factor, ⟨sums, [], false⟩, E⟩ m.tokens (m.openings (levels E))
  | .mk first rest, hE => by
      obtain ⟨n, negated, -, hr⟩ := reads_unary E ⟨sums, [], false⟩ rfl first hE
      exact (opens_unary E ⟨sums, [], false⟩ rfl first hE).append (first.length_openings _) hr
        (opens_multipliers E n ⟨sums, [], negated⟩ rest hE)

theorem opens_multipliers (E : List (Opener × Clause)) (n : Node) (c : Clause) :
    (m : Multipliers) → levels E ≤ nestingLimit →
    Opens (after n c E) m.tokens (m.openings (levels E))
  | .nil, _ => opens_nil
  | .cons op rank next rest, hE => by
      obtain ⟨n₁, negated, -, hr⟩ :=
        reads_unary E ⟨c.sums, (c.factor n, op) :: c.factors, false⟩ rfl next hE
      have hc : c.continued n op = ⟨c.sums, (c.factor n, op) :: c.factors, false⟩ := by
        simp [Clause.continued, rank]
      refine .cons rfl fun o s' hs => ?_
      obtain rfl : ⟨.factor, c.continued n op, E⟩ = s' := Except.ok.inj hs
      rw [hc]
      exact (opens_unary E _ rfl next hE).append (next.length_openings _) hr
        (opens_multipliers E n₁ _ rest hE)

theorem opens_unary (E : List (Opener × Clause)) (c : Clause) (hc : c.negated = false) :
    (u : Unary) → levels E ≤ nestingLimit →
    Opens ⟨.factor, c, E⟩ u.tokens (u.openings (levels E))
  | .plain t, hE => by
      have hd : depth ⟨.factor, c, E⟩ = levels E := by simp [depth, Clause.depth, hc]
      rw [← hd]
      exact opens_term ⟨.factor, c, E⟩ t (.inl rfl) (hd ▸ hE)
  | .minus t, hE => by
      have hd : depth ⟨.factor, c, E⟩ = levels E := by simp [depth, Clause.depth, hc]
      have hd' : depth ⟨.term, { c with negated := true }, E⟩ = levels E + 1 := by
        simp [depth, Clause.depth, Nat.add_comm]
      refine .cons (congrArg some hd) fun o s' hs => ?_
      have hlt := lt_of_nest_eq_ok hs
      obtain rfl := ok_of_nest_eq_ok hs
      rw [← hd']
      exact opens_term ⟨.term, { c with negated := true }, E⟩ t (.inr rfl) (by omega)

theorem opens_term (s : ParseState) : (t : Term) → s.WantsTerm → s.depth ≤ nestingLimit →
    Opens s t.tokens (t.openings s.depth)
  | .mk p l, hs, hd =>
      (opens_primary s p hs hd).append (p.length_openings _) (reads_primary s p hs hd)
        (opens_suffixes p.tree l)

theorem opens_primary (s : ParseState) : (p : Primary) → s.WantsTerm → s.depth ≤ nestingLimit →
    Opens s p.tokens (p.openings s.depth)
  | .number v, hs, hd => .cons (hs.opening_eq (by simp)) fun _ _ _ => opens_nil
  | .operand i, hs, hd => .cons (hs.opening_eq (by simp)) fun _ _ _ => opens_nil
  | .group inner, hs, hd => by
      refine .cons (hs.opening_eq (by simp)) fun o s' hstep => ?_
      rw [hs.step_eq (by simp)] at hstep
      have hlt : s.depth < nestingLimit := lt_of_nest_eq_ok hstep
      obtain rfl := ok_of_nest_eq_ok hstep
      have hl := s.levels_cons (.group o)
      have hE : levels ((.group o, s.clause) :: s.enclosing) ≤ nestingLimit := hl ▸ hlt
      obtain ⟨n, c, -, hr⟩ := reads_additive ((.group o, s.clause) :: s.enclosing) inner hE
      rw [← hl]
      exact (opens_additive _ inner hE).append (inner.length_openings _) hr
        (.cons rfl fun _ _ _ => opens_nil)
  | .call op first rest, hs, hd => by
      refine .cons (hs.opening_eq (by simp)) fun o s' hstep => ?_
      rw [hs.step_eq (by simp)] at hstep
      obtain rfl := Except.ok.inj hstep
      refine .cons rfl fun o' s' hstep => ?_
      have hlt : s.depth < nestingLimit := lt_of_nest_eq_ok hstep
      obtain rfl := ok_of_nest_eq_ok hstep
      have hl := s.levels_cons (.call op [])
      have hE : levels ((.call op [], s.clause) :: s.enclosing) ≤ nestingLimit := hl ▸ hlt
      obtain ⟨n, c, -, hr⟩ := reads_additive ((.call op [], s.clause) :: s.enclosing) first hE
      obtain ⟨n', c', finished, -, hr'⟩ :=
        reads_arguments s.enclosing op [] n c s.clause rest hE
      rw [← hl]
      refine (opens_additive _ first hE).append (first.length_openings _) hr ?_
      exact (opens_arguments s.enclosing op [] n c s.clause rest hE).append
        (rest.length_openings _) hr' (.cons rfl fun _ _ _ => opens_nil)

theorem opens_arguments (E : List (Opener × Clause)) (op : Operation) (finished : List Node)
    (n : Node) (c c₀ : Clause) :
    (a : Arguments) → levels ((.call op finished, c₀) :: E) ≤ nestingLimit →
    Opens (after n c ((.call op finished, c₀) :: E)) a.tokens
      (a.openings (levels ((.call op finished, c₀) :: E)))
  | .nil, _ => opens_nil
  | .cons next rest, hE => by
      obtain ⟨n₁, c₁, -, hr⟩ :=
        reads_additive ((.call op (c.value n :: finished), c₀) :: E) next hE
      refine .cons rfl fun o s' hs => ?_
      obtain rfl := Except.ok.inj hs
      exact (opens_additive ((.call op (c.value n :: finished), c₀) :: E) next hE).append
        (next.length_openings _) hr (opens_arguments E op (c.value n :: finished) n₁ c₁ c₀ rest hE)

end

/-- As far as the parser comes in a sentence, the derivation says which tokens open a level, and how
deep. -/
theorem openings_get? (a : Additive) {ps : List Placed} {t : Token} {rest : List Token}
    (ha : a.tokens = ps.map Placed.token ++ t :: rest) (hs : ps.foldlM step .start = .ok s) :
    (a.openings 0)[ps.length]? = some (s.opening t) :=
  opens_additive [] a (Nat.zero_le _) ps t rest s ha.symm hs

end ParseState

end TensorFormula
