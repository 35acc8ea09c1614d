import TensorFormula.Formula.Parse
import TensorFormula.Proofs.Formula.Grammar
import TensorFormula.Proofs.Formula.Scanning

/-!
# What the parser reads

Reading the tokens of a phrase takes the parser from a state that wants the phrase to one that has
its tree, unless the phrase nests too deeply. Conversely `Completes` lists what a state can still
accept, and each step takes one token off it. So the accepted token lists are the sentences of the
grammar within the nesting limit, and the result is the tree of the derivation.
-/

namespace TensorFormula

open Grammar

/-! ## Chains -/

/-- The chain of some links, a first operand and what comes after it. -/
def Links.extend (rank : Rank) : Links → Node → List (Operator × Node) → Node
  | links, n, [] => links.close rank n
  | links, n, (op, m) :: rest => extend rank ((n, op) :: links) m rest

theorem Links.extend_cons (rank : Rank) (links : Links) (l : Node × Operator) (n : Node)
    (rest : List (Operator × Node)) :
    Links.extend rank (l :: links) n rest =
      .chain rank (((l :: links).map Prod.fst).reverse ++ n :: rest.map Prod.snd)
        (((l :: links).map Prod.snd).reverse ++ rest.map Prod.fst) := by
  induction rest generalizing links l n with
  | nil => simp [extend, close]
  | cons r rest ih => simp [extend, ih]

theorem Links.extend_nil (rank : Rank) (n : Node) (rest : List (Operator × Node)) :
    Links.extend rank [] n rest = .ofChain rank n rest := by
  cases rest with
  | nil => rfl
  | cons r rest => simp [extend, extend_cons, Node.ofChain]

namespace ParseState

/-! ## Runs -/

/-- Tokens, at whatever offsets, take the parser from `s` to `s'`, unless the nesting limit lies
below the level `top`. -/
def Reads (top : Nat) (s : ParseState) (ts : List Token) (s' : ParseState) : Prop :=
  ∀ ps : List Placed, ps.map Placed.token = ts →
    (top ≤ nestingLimit → ps.foldlM step s = .ok s') ∧
    (nestingLimit < top → ∃ o, ps.foldlM step s = .error (.malformed o .nestedTooDeep))

variable {s s' s'' : ParseState} {ts ts' : List Token} {top top' : Nat} {t : Token}

theorem foldlM_step_cons (s : ParseState) (p : Placed) (ps : List Placed) :
    (p :: ps).foldlM step s = (s.step p).bind fun s' => ps.foldlM step s' := rfl

theorem exists_of_run_cons {p : Placed} {ps : List Placed}
    (h : (p :: ps).foldlM step s = .ok s') :
    ∃ s₁, s.step p = .ok s₁ ∧ ps.foldlM step s₁ = .ok s' := by
  rw [foldlM_step_cons] at h
  cases hs : s.step p with
  | error f => simp [hs, Except.bind] at h
  | ok s₁ =>
      rw [hs] at h
      exact ⟨s₁, rfl, h⟩

theorem Reads.nil (h : top ≤ nestingLimit) : Reads top s [] s := by
  intro ps hp
  obtain rfl : ps = [] := by simpa using hp
  exact ⟨fun _ => rfl, fun ht => absurd h (by omega)⟩

theorem Reads.append (h : Reads top s ts s') (h' : Reads top' s' ts' s'') :
    Reads (max top top') s (ts ++ ts') s'' := by
  intro ps hp
  obtain ⟨qs, rs, rfl, hq, hr⟩ := List.map_eq_append_iff.1 hp
  rw [List.foldlM_append]
  constructor
  · intro ht
    rw [(h qs hq).1 (by omega)]
    exact (h' rs hr).1 (by omega)
  · intro ht
    by_cases hs : top ≤ nestingLimit
    · rw [(h qs hq).1 hs]
      exact (h' rs hr).2 (by omega)
    · obtain ⟨o, ho⟩ := (h qs hq).2 (by omega)
      exact ⟨o, by rw [ho]; rfl⟩

theorem Reads.append_add {base k k' : Nat} (h : Reads (base + k) s ts s')
    (h' : Reads (base + k') s' ts' s'') : Reads (base + max k k') s (ts ++ ts') s'' :=
  Nat.add_max_add_left base k k' ▸ h.append h'

/-- One token that opens no level. -/
theorem Reads.cons (next : Nat → ParseState) (hs : ∀ o, s.step ⟨t, o⟩ = .ok (next o))
    (h : ∀ o, Reads top (next o) ts s'') : Reads top s (t :: ts) s'' := by
  intro ps hp
  obtain ⟨p, qs, rfl, rfl, hq⟩ := List.map_eq_cons_iff.1 hp
  rw [foldlM_step_cons, hs p.offset]
  exact h p.offset qs hq

/-- One token that opens a level. -/
theorem Reads.nest (deeper : Nat → ParseState)
    (hs : ∀ o, ∃ o', s.step ⟨t, o⟩ = s.nest o' (deeper o)) (ht : s.depth + 1 ≤ top)
    (h : s.depth < nestingLimit → ∀ o, Reads top (deeper o) ts s'') :
    Reads top s (t :: ts) s'' := by
  intro ps hp
  obtain ⟨p, qs, rfl, rfl, hq⟩ := List.map_eq_cons_iff.1 hp
  obtain ⟨o, ho⟩ := hs p.offset
  rw [foldlM_step_cons, ho, ParseState.nest]
  by_cases hd : s.depth < nestingLimit
  · rw [if_pos hd]
    exact h hd p.offset qs hq
  · rw [if_neg hd]
    exact ⟨fun hl => absurd hl (by omega), fun _ => ⟨o, rfl⟩⟩

/-! ## Reading a phrase -/

variable {n : Node} {c : Clause} {E : List (Opener × Clause)}

/-- A state that has just read a complete term. -/
abbrev after (n : Node) (c : Clause) (E : List (Opener × Clause)) : ParseState := ⟨.more n, c, E⟩

/-- Wants a term, before which a minus may or may not stand. -/
def WantsTerm (s : ParseState) : Prop := s.wanted = .factor ∨ s.wanted = .term

theorem WantsTerm.step_eq (h : s.WantsTerm) (ht : t ≠ .operator .sub) (o : Nat) :
    s.step ⟨t, o⟩ = s.startTerm ⟨t, o⟩ := by
  obtain ⟨w, c, E⟩ := s
  rcases h with h | h <;> obtain rfl : w = _ := h
  · cases t with
    | operator op => cases op <;> first | rfl | exact absurd rfl ht
    | _ => rfl
  · rfl

theorem reads_suffixes (h : top ≤ nestingLimit) (n : Node) (l : List Operation) :
    Reads top (after n c E) (suffixTokens l) (after (suffixed n l) c E) := by
  induction l generalizing n with
  | nil => exact .nil h
  | cons op l ih =>
      refine .cons (fun _ => ⟨.suffix n, c, E⟩) (fun _ => rfl) fun _ => ?_
      exact .cons (fun _ => after (.apply op [n]) c E) (fun _ => rfl) fun _ => ih _

theorem levels_cons (s : ParseState) (opener : Opener) :
    levels ((opener, s.clause) :: s.enclosing) = s.depth + 1 := by
  simp only [levels, depth]
  omega

mutual

theorem reads_additive (E : List (Opener × Clause)) : (a : Additive) → levels E ≤ nestingLimit →
    ∃ n c, c.value n = a.tree ∧
      Reads (levels E + a.nesting) ⟨.factor, .blank, E⟩ a.tokens (after n c E)
  | .mk first rest, hE => by
      obtain ⟨n, c, hs, hp, hr⟩ := reads_multiplicative E [] first hE
      obtain ⟨n', c', hv, hr'⟩ := reads_addends E n c rest hE
      refine ⟨n', c', ?_, ?_⟩
      · rw [hv, hs, hp, Links.extend_nil, Additive.tree]
      · exact hr.append_add hr'

theorem reads_addends (E : List (Opener × Clause)) (n : Node) (c : Clause) :
    (a : Addends) → levels E ≤ nestingLimit →
    ∃ n' c', c'.value n' = Links.extend .sum c.sums (c.product n) a.links ∧
      Reads (levels E + a.nesting) (after n c E) a.tokens (after n' c' E)
  | .nil, hE => ⟨n, c, rfl, .nil hE⟩
  | .cons op rank next rest, hE => by
      obtain ⟨n₁, c₁, hs, hp, hr⟩ := reads_multiplicative E ((c.product n, op) :: c.sums) next hE
      obtain ⟨n₂, c₂, hv, hr'⟩ := reads_addends E n₁ c₁ rest hE
      refine ⟨n₂, c₂, ?_, ?_⟩
      · rw [hv, hs, hp, Addends.links, Links.extend]
      · have hc : c.continued n op = ⟨(c.product n, op) :: c.sums, [], false⟩ := by
          simp [Clause.continued, rank]
        refine .cons (fun _ => ⟨.factor, c.continued n op, E⟩) (fun _ => rfl) fun _ => ?_
        rw [hc]
        exact hr.append_add hr'

theorem reads_multiplicative (E : List (Opener × Clause)) (sums : Links) :
    (m : Multiplicative) → levels E ≤ nestingLimit →
    ∃ n c, c.sums = sums ∧ c.product n = m.tree ∧
      Reads (levels E + m.nesting) ⟨.factor, ⟨sums, [], false⟩, E⟩ m.tokens (after n c E)
  | .mk first rest, hE => by
      obtain ⟨n, negated, hf, hr⟩ := reads_unary E ⟨sums, [], false⟩ rfl first hE
      obtain ⟨n', c', hs, hp, hr'⟩ := reads_multipliers E n ⟨sums, [], negated⟩ rest hE
      refine ⟨n', c', hs, ?_, ?_⟩
      · rw [hp, hf, Links.extend_nil, Multiplicative.tree]
      · exact hr.append_add hr'

theorem reads_multipliers (E : List (Opener × Clause)) (n : Node) (c : Clause) :
    (m : Multipliers) → levels E ≤ nestingLimit →
    ∃ n' c', c'.sums = c.sums ∧
      c'.product n' = Links.extend .product c.factors (c.factor n) m.links ∧
      Reads (levels E + m.nesting) (after n c E) m.tokens (after n' c' E)
  | .nil, hE => ⟨n, c, rfl, rfl, .nil hE⟩
  | .cons op rank next rest, hE => by
      obtain ⟨n₁, negated, hf, hr⟩ :=
        reads_unary E ⟨c.sums, (c.factor n, op) :: c.factors, false⟩ rfl next hE
      obtain ⟨n₂, c₂, hs, hp, hr'⟩ :=
        reads_multipliers E n₁ ⟨c.sums, (c.factor n, op) :: c.factors, negated⟩ rest hE
      refine ⟨n₂, c₂, hs, ?_, ?_⟩
      · rw [hp, hf, Multipliers.links, Links.extend]
      · have hc : c.continued n op = ⟨c.sums, (c.factor n, op) :: c.factors, false⟩ := by
          simp [Clause.continued, rank]
        refine .cons (fun _ => ⟨.factor, c.continued n op, E⟩) (fun _ => rfl) fun _ => ?_
        rw [hc]
        exact hr.append_add hr'

theorem reads_unary (E : List (Opener × Clause)) (c : Clause) (hc : c.negated = false) :
    (u : Unary) → levels E ≤ nestingLimit →
    ∃ n negated, { c with negated }.factor n = u.tree ∧
      Reads (levels E + u.nesting) ⟨.factor, c, E⟩ u.tokens (after n { c with negated } E)
  | .plain t, hE => by
      have hd : depth ⟨.factor, c, E⟩ = levels E := by simp [depth, Clause.depth, hc]
      refine ⟨t.tree, false, rfl, ?_⟩
      rw [← hd, ← hc]
      exact reads_term ⟨.factor, c, E⟩ t (.inl rfl) (hd ▸ hE)
  | .minus t, hE => by
      have hd : depth ⟨.factor, c, E⟩ = levels E := by simp [depth, Clause.depth, hc]
      have hd' : depth ⟨.term, { c with negated := true }, E⟩ = levels E + 1 := by
        simp [depth, Clause.depth, Nat.add_comm]
      refine ⟨t.tree, true, rfl, ?_⟩
      refine .nest (fun _ => ⟨.term, { c with negated := true }, E⟩) (fun o => ⟨o, rfl⟩) ?_ ?_
      · rw [hd, Unary.nesting]
        omega
      · intro hlt o
        have hr := reads_term ⟨.term, { c with negated := true }, E⟩ t (.inr rfl)
          (by omega)
        rw [hd'] at hr
        rw [Unary.nesting, ← Nat.add_assoc, Nat.add_right_comm]
        exact hr

theorem reads_term (s : ParseState) : (t : Term) → s.WantsTerm → s.depth ≤ nestingLimit →
    Reads (s.depth + t.nesting) s t.tokens { s with wanted := .more t.tree }
  | .mk p l, hs, hd => by
      have hl : Reads (s.depth + 0) (after p.tree s.clause s.enclosing) (suffixTokens l)
          (after (suffixed p.tree l) s.clause s.enclosing) := reads_suffixes hd p.tree l
      have hr := (reads_primary s p hs hd).append_add hl
      rwa [Nat.max_zero] at hr

theorem reads_primary (s : ParseState) : (p : Primary) → s.WantsTerm → s.depth ≤ nestingLimit →
    Reads (s.depth + p.nesting) s p.tokens { s with wanted := .more p.tree }
  | .number v, hs, hd => by
      exact .cons (fun _ => _) (fun o => (hs.step_eq (by simp) o).trans rfl) fun _ => .nil hd
  | .operand i, hs, hd => by
      exact .cons (fun _ => _) (fun o => (hs.step_eq (by simp) o).trans rfl) fun _ => .nil hd
  | .group inner, hs, hd => by
      refine .nest (fun o => s.enclose (.group o))
        (fun o => ⟨o, (hs.step_eq (by simp) o).trans rfl⟩) ?_ ?_
      · rw [Primary.nesting]
        omega
      · intro hlt o
        have hl := s.levels_cons (.group o)
        have hE : levels ((.group o, s.clause) :: s.enclosing) ≤ nestingLimit := hl ▸ hlt
        obtain ⟨n, c, hv, hr⟩ := reads_additive ((.group o, s.clause) :: s.enclosing) inner hE
        have hclose : Reads (levels ((.group o, s.clause) :: s.enclosing) + 0)
            (after n c ((.group o, s.clause) :: s.enclosing)) [.closeBracket]
            { s with wanted := .more (c.value n) } :=
          .cons (fun _ => _) (fun _ => rfl) fun _ => .nil hE
        have hall := hr.append_add hclose
        rwa [Nat.max_zero, hl, Nat.add_right_comm, hv] at hall
  | .call op first rest, hs, hd => by
      refine .cons (fun o => { s with wanted := .opening op o })
        (fun o => (hs.step_eq (by simp) o).trans rfl) fun o => ?_
      refine .nest (fun _ => s.enclose (.call op [])) (fun _ => ⟨o, rfl⟩) ?_ ?_
      · change s.depth + 1 ≤ s.depth + (max first.nesting rest.nesting + 1)
        omega
      · intro hlt _
        have hl := s.levels_cons (.call op [])
        have hE : levels ((.call op [], s.clause) :: s.enclosing) ≤ nestingLimit := hl ▸ hlt
        obtain ⟨n, c, hv, hr⟩ := reads_additive ((.call op [], s.clause) :: s.enclosing) first hE
        obtain ⟨n', c', finished, hf, hr'⟩ :=
          reads_arguments s.enclosing op [] n c s.clause rest hE
        have hclose : Reads (levels ((.call op [], s.clause) :: s.enclosing) + 0)
            (after n' c' ((.call op finished, s.clause) :: s.enclosing)) [.closeBracket]
            { s with wanted := .more (.apply op (c'.value n' :: finished).reverse) } :=
          .cons (fun _ => _) (fun _ => rfl) fun _ => .nil hE
        have hall := hr.append_add (hr'.append_add hclose)
        rw [Nat.max_zero, hl, hf, hv, Nat.add_right_comm] at hall
        exact hall

theorem reads_arguments (E : List (Opener × Clause)) (op : Operation) (finished : List Node)
    (n : Node) (c c₀ : Clause) :
    (a : Arguments) → levels ((.call op finished, c₀) :: E) ≤ nestingLimit →
    ∃ n' c' finished', (c'.value n' :: finished').reverse =
        (c.value n :: finished).reverse ++ a.trees ∧
      Reads (levels ((.call op finished, c₀) :: E) + a.nesting)
        (after n c ((.call op finished, c₀) :: E)) a.tokens
        (after n' c' ((.call op finished', c₀) :: E))
  | .nil, hE => ⟨n, c, finished, by simp [Arguments.trees], .nil hE⟩
  | .cons next rest, hE => by
      obtain ⟨n₁, c₁, hv, hr⟩ :=
        reads_additive ((.call op (c.value n :: finished), c₀) :: E) next hE
      obtain ⟨n₂, c₂, finished', hf, hr'⟩ :=
        reads_arguments E op (c.value n :: finished) n₁ c₁ c₀ rest hE
      refine ⟨n₂, c₂, finished', ?_, ?_⟩
      · rw [hf, hv, Arguments.trees]
        simp
      · exact .cons (fun _ => ⟨.factor, .blank, (.call op (c.value n :: finished), c₀) :: E⟩)
          (fun _ => rfl) fun _ => hr.append_add hr'

end

/-! ## What a state can still accept -/

/-- The tokens from the end of a term, where `Ending` are the tokens after the whole sum. -/
def Continues (Ending : List Token → Prop) (ts : List Token) : Prop :=
  ∃ (l : List Operation) (m : Multipliers) (a : Addends) (rest : List Token),
    Ending rest ∧ ts = suffixTokens l ++ (m.tokens ++ (a.tokens ++ rest))

/-- The tokens that close the given brackets, from the end of the innermost sum. -/
def Closes : List (Opener × Clause) → List Token → Prop
  | [], ts => ts = []
  | (.group _, _) :: E, ts => ∃ rest, ts = .closeBracket :: rest ∧ Continues (Closes E) rest
  | (.call _ _, _) :: E, ts => ∃ (a : Arguments) (rest : List Token),
      ts = a.tokens ++ .closeBracket :: rest ∧ Continues (Closes E) rest

/-- The tokens with which a formula that has come to `s` can be completed, however deep they
nest. -/
def Completes (s : ParseState) (ts : List Token) : Prop :=
  match s.wanted with
  | .factor => ∃ (p : Primary) (rest : List Token), Continues (Closes s.enclosing) rest ∧
      (ts = p.tokens ++ rest ∨ ts = .operator .sub :: (p.tokens ++ rest))
  | .term => ∃ (p : Primary) (rest : List Token), Continues (Closes s.enclosing) rest ∧
      ts = p.tokens ++ rest
  | .opening _ _ => ∃ (first : Additive) (a : Arguments) (rest : List Token),
      Continues (Closes s.enclosing) rest ∧
      ts = .openBracket :: (first.tokens ++ (a.tokens ++ .closeBracket :: rest))
  | .suffix _ => ∃ (op : Operation) (rest : List Token), Continues (Closes s.enclosing) rest ∧
      ts = .suffix op :: rest
  | .more _ => Continues (Closes s.enclosing) ts

theorem Completes.unary (h : Completes ⟨.factor, c, E⟩ ts) :
    ∃ (u : Unary) (m : Multipliers) (a : Addends) (rest : List Token), Closes E rest ∧
      ts = u.tokens ++ (m.tokens ++ (a.tokens ++ rest)) := by
  obtain ⟨p, _, ⟨l, m, a, rest, hE, rfl⟩, rfl | rfl⟩ := h
  · exact ⟨.plain (.mk p l), m, a, rest, hE, by simp [Unary.tokens, Term.tokens]⟩
  · exact ⟨.minus (.mk p l), m, a, rest, hE, by simp [Unary.tokens, Term.tokens]⟩

theorem Completes.additive (h : Completes ⟨.factor, c, E⟩ ts) :
    ∃ (a : Additive) (rest : List Token), Closes E rest ∧ ts = a.tokens ++ rest := by
  obtain ⟨u, m, a, rest, hE, rfl⟩ := h.unary
  exact ⟨.mk (.mk u m) a, rest, hE, by simp [Additive.tokens, Multiplicative.tokens]⟩

theorem Continues.of_ending {Ending : List Token → Prop} (h : Ending ts) : Continues Ending ts :=
  ⟨[], .nil, .nil, ts, h, rfl⟩

/-- After a complete operand, an operator goes on with the sum or the product. -/
theorem Continues.operator (op : Operator) (h : Completes ⟨.factor, c, E⟩ ts) :
    Continues (Closes E) (.operator op :: ts) := by
  obtain ⟨u, m, a, rest, hE, rfl⟩ := h.unary
  cases hop : Rank.of op with
  | product =>
      exact ⟨[], .cons op hop u m, a, rest, hE, by simp [suffixTokens, Multipliers.tokens]⟩
  | sum =>
      exact ⟨[], .nil, .cons op hop (.mk u m) a, rest, hE, by
        simp [suffixTokens, Multipliers.tokens, Addends.tokens, Multiplicative.tokens]⟩

theorem Continues.dot {Ending : List Token → Prop} (op : Operation) (h : Continues Ending ts) :
    Continues Ending (.dot :: .suffix op :: ts) := by
  obtain ⟨l, m, a, rest, hE, rfl⟩ := h
  exact ⟨op :: l, m, a, rest, hE, by simp [suffixTokens]⟩

theorem ok_of_nest_eq_ok {o : Nat} {deeper : ParseState} (h : s.nest o deeper = .ok s') :
    s' = deeper := by
  unfold nest at h
  split at h
  · exact (Except.ok.inj h).symm
  · cases h

/-- A token that starts a term begins a primary. -/
theorem primary_of_startTerm {o : Nat} (h : s.startTerm ⟨t, o⟩ = .ok s') (hc : Completes s' ts) :
    ∃ (p : Primary) (rest : List Token), Continues (Closes s.enclosing) rest ∧
      t :: ts = p.tokens ++ rest := by
  cases t with
  | number v =>
      obtain rfl := Except.ok.inj h
      exact ⟨.number v, ts, hc, rfl⟩
  | operand i =>
      obtain rfl := Except.ok.inj h
      exact ⟨.operand i, ts, hc, rfl⟩
  | openBracket =>
      obtain rfl := ok_of_nest_eq_ok h
      obtain ⟨a, _, ⟨rest, rfl, hr⟩, rfl⟩ := Completes.additive hc
      exact ⟨.group a, rest, hr, by simp [Primary.tokens]⟩
  | function op =>
      obtain rfl := Except.ok.inj h
      obtain ⟨first, a, rest, hr, rfl⟩ := hc
      exact ⟨.call op first a, rest, hr, by simp [Primary.tokens]⟩
  | _ => cases h

theorem continues_of_afterTerm {o : Nat} (h : s.afterTerm n ⟨t, o⟩ = .ok s')
    (hc : Completes s' ts) : Continues (Closes s.enclosing) (t :: ts) := by
  obtain ⟨w, c, E⟩ := s
  cases t with
  | dot =>
      obtain rfl := Except.ok.inj h
      obtain ⟨op, rest, hr, rfl⟩ := hc
      exact hr.dot op
  | operator op =>
      obtain rfl := Except.ok.inj h
      exact .operator op hc
  | closeBracket =>
      match E, h with
      | (.group _, _) :: _, h =>
          obtain rfl := Except.ok.inj h
          exact .of_ending ⟨ts, rfl, hc⟩
      | (.call _ _, _) :: _, h =>
          obtain rfl := Except.ok.inj h
          exact .of_ending ⟨.nil, ts, rfl, hc⟩
  | comma =>
      match E, h with
      | (.call _ _, _) :: _, h =>
          obtain rfl := Except.ok.inj h
          obtain ⟨next, _, ⟨a, rest, rfl, hr⟩, rfl⟩ := Completes.additive hc
          exact .of_ending ⟨.cons next a, rest, by simp [Arguments.tokens], hr⟩
  | _ => cases h

/-- A step takes the token that it reads off what the state can accept. -/
theorem completes_of_step {p : Placed} (h : s.step p = .ok s') (hc : Completes s' ts) :
    Completes s (p.token :: ts) := by
  obtain ⟨w, c, E⟩ := s
  obtain ⟨t, o⟩ := p
  cases w with
  | factor =>
      by_cases ht : t = .operator .sub
      · subst ht
        obtain rfl := ok_of_nest_eq_ok h
        obtain ⟨p, rest, hr, rfl⟩ := hc
        exact ⟨p, rest, hr, .inr rfl⟩
      · rw [WantsTerm.step_eq (.inl rfl) ht] at h
        obtain ⟨p, rest, hr, he⟩ := primary_of_startTerm h hc
        exact ⟨p, rest, hr, .inl he⟩
  | term => exact primary_of_startTerm h hc
  | opening op o' =>
      cases t with
      | openBracket =>
          obtain rfl := ok_of_nest_eq_ok h
          obtain ⟨first, _, ⟨a, rest, rfl, hr⟩, rfl⟩ := Completes.additive hc
          exact ⟨first, a, rest, hr, rfl⟩
      | _ => cases h
  | suffix inner =>
      cases t with
      | suffix op =>
          obtain rfl := Except.ok.inj h
          exact ⟨op, ts, hc, rfl⟩
      | _ => cases h
  | more n => exact continues_of_afterTerm h hc

theorem completes_of_finish {stop : Nat} (h : s.finish stop = .ok n) : Completes s [] := by
  obtain ⟨w, c, E⟩ := s
  match w, E, h with
  | .more _, [], _ => exact .of_ending rfl

/-- What completes the state after a run, completes the one before it, with the tokens read. -/
theorem completes_append {ps : List Placed} (h : ps.foldlM step s = .ok s')
    (hc : Completes s' ts) : Completes s (ps.map Placed.token ++ ts) := by
  induction ps generalizing s with
  | nil =>
      obtain rfl := Except.ok.inj h
      exact hc
  | cons p ps ih =>
      obtain ⟨s₁, hs, hr⟩ := exists_of_run_cons h
      exact completes_of_step hs (ih hr)

theorem completes_of_run {ps : List Placed} {stop : Nat} (h : ps.foldlM step s = .ok s')
    (hf : s'.finish stop = .ok n) : Completes s (ps.map Placed.token) := by
  have hc := completes_append h (completes_of_finish hf)
  rwa [List.append_nil] at hc

end ParseState

/-! ## Accepted formulas -/

open ParseState

variable {ts : List Placed} {stop : Nat} {n : Node}

theorem parseTokens_eq_bind (ts : List Placed) (stop : Nat) :
    parseTokens ts stop = (ts.foldlM step .start).bind fun s => s.finish stop := rfl

/-- A sentence is accepted with its tree, unless it nests too deeply. -/
theorem parseTokens_of_sentence (stop : Nat) (a : Additive) (h : ts.map Placed.token = a.tokens) :
    (a.nesting ≤ nestingLimit → parseTokens ts stop = .ok a.tree) ∧
    (nestingLimit < a.nesting →
      ∃ o, parseTokens ts stop = .error (.malformed o .nestedTooDeep)) := by
  obtain ⟨n, c, hv, hr⟩ := reads_additive [] a (Nat.zero_le _)
  have hr : Reads a.nesting .start a.tokens (after n c []) :=
    Nat.zero_add a.nesting ▸ hr
  rw [parseTokens_eq_bind]
  constructor
  · intro ha
    rw [(hr ts h).1 ha, ← hv]
    rfl
  · intro ha
    obtain ⟨o, ho⟩ := (hr ts h).2 ha
    exact ⟨o, by rw [ho]; rfl⟩

theorem exists_sentence_of_parseTokens (h : parseTokens ts stop = .ok n) :
    ∃ a : Additive, a.tokens = ts.map Placed.token := by
  rw [parseTokens_eq_bind] at h
  cases hs : ts.foldlM step .start with
  | error f => simp [hs, Except.bind] at h
  | ok s =>
      rw [hs] at h
      obtain ⟨a, rest, rfl, ha⟩ := Completes.additive (completes_of_run hs h)
      exact ⟨a, by rw [ha, List.append_nil]⟩

theorem parseTokens_eq_ok_iff : parseTokens ts stop = .ok n ↔
    ∃ a : Additive, a.tokens = ts.map Placed.token ∧ a.nesting ≤ nestingLimit ∧ a.tree = n := by
  constructor
  · intro h
    obtain ⟨a, ha⟩ := exists_sentence_of_parseTokens h
    obtain ⟨hfits, hdeep⟩ := parseTokens_of_sentence stop a ha.symm
    by_cases hn : a.nesting ≤ nestingLimit
    · exact ⟨a, ha, hn, Except.ok.inj ((hfits hn).symm.trans h)⟩
    · obtain ⟨o, ho⟩ := hdeep (Nat.lt_of_not_le hn)
      cases ho.symm.trans h
  · rintro ⟨a, ha, hn, rfl⟩
    exact (parseTokens_of_sentence stop a ha.symm).1 hn

theorem Grammar.Additive.tokens_ne_nil (a : Additive) : a.tokens ≠ [] := by
  obtain ⟨⟨⟨⟨p, _⟩⟩ | _, _⟩, _⟩ := a
  · cases p <;> simp [Additive.tokens, Multiplicative.tokens, Unary.tokens, Term.tokens,
      Primary.tokens]
  · simp [Additive.tokens, Multiplicative.tokens, Unary.tokens]

/-- The tokens of an accepted text are a sentence within the nesting limit, and the result is its
tree. -/
theorem parseChars_eq_ok_iff {cs : List Char} : parseChars cs = .ok n ↔
    ∃ ts, scan cs = .ok ts ∧ ∃ a : Additive, a.tokens = ts.map Placed.token ∧
      a.nesting ≤ nestingLimit ∧ a.tree = n := by
  by_cases hb : cs.all Text.isBlank = true
  · rw [parseChars, if_pos hb]
    constructor
    · intro h
      cases h
    · rintro ⟨ts, hs, a, ha, -⟩
      obtain rfl := eq_nil_of_scan_blank hb hs
      exact absurd ha a.tokens_ne_nil
  · have hp : parseChars cs = (scan cs).bind fun ts => parseTokens ts (Text.bytes cs) := by
      rw [parseChars, if_neg hb]
      rfl
    rw [hp]
    cases hs : scan cs with
    | error f => simp [Except.bind]
    | ok ts =>
        change parseTokens ts (Text.bytes cs) = .ok n ↔ _
        rw [parseTokens_eq_ok_iff]
        simp

/-- A formula is accepted with the tree `n` exactly when its tokens have a derivation within the
nesting limit whose tree is `n`, and no token list has two derivations. -/
theorem parse_accepts_exactly_grammar :
    (∀ (formula : String) (n : Node), parse formula = .ok n ↔
      ∃ ts, scan formula.toList = .ok ts ∧ ∃ a : Additive, a.tokens = ts.map Placed.token ∧
        a.nesting ≤ nestingLimit ∧ a.tree = n) ∧
    ∀ a b : Additive, a.tokens = b.tokens → a = b :=
  ⟨fun _ _ => parseChars_eq_ok_iff, fun _ _ h => Additive.tokens_injective h⟩

end TensorFormula
