import TensorFormula.Proofs.Formula.Openings

/-!
# Refusals point at the first token that is wrong

Whatever the parser has read is the beginning of a sentence, since every state can be completed. It
refuses a token, or the end, only where no sentence goes on so, or where the token would open a
level beyond the limit.
-/

namespace TensorFormula

namespace Grammar

def IsSentence (ts : List Token) : Prop := ∃ a : Additive, a.tokens = ts

/-- Some sentence begins with the tokens, however deep it nests. -/
def IsViable (ts : List Token) : Prop := ∃ a : Additive, ts <+: a.tokens

/-- Sentences may begin with `before` and `t`, and in all of them `t` is a bracket of a group, the
name of a function or the minus before a term, and opens a level inside `d` others. -/
def OpensLevel (d : Nat) (before : List Token) (t : Token) : Prop :=
  IsViable (before ++ [t]) ∧
    ∀ a : Additive, before ++ [t] <+: a.tokens → (a.openings 0)[before.length]? = some (some d)

def Additive.ofPrimary (p : Primary) : Additive := .mk (.mk (.plain (.mk p [])) .nil) .nil

end Grammar

open Grammar

namespace ParseState

variable {s s' : ParseState} {ts : List Token} {E : List (Opener × Clause)} {p : Placed}
  {ps : List Placed} {o : Nat} {problem : Problem}

/-! ## Every state can be completed -/

theorem exists_closes (E : List (Opener × Clause)) : ∃ ts, Closes E ts := by
  induction E with
  | nil => exact ⟨[], rfl⟩
  | cons e E ih =>
      obtain ⟨opener, c⟩ := e
      obtain ⟨ts, hts⟩ := ih
      cases opener with
      | group o => exact ⟨.closeBracket :: ts, ts, rfl, .of_ending hts⟩
      | call op finished => exact ⟨.closeBracket :: ts, .nil, ts, rfl, .of_ending hts⟩

theorem exists_completes (s : ParseState) : ∃ ts, Completes s ts := by
  obtain ⟨w, c, E⟩ := s
  obtain ⟨rest, hr⟩ := exists_closes E
  have hr := Continues.of_ending hr
  cases w with
  | factor => exact ⟨_, .operand 0, rest, hr, .inl rfl⟩
  | term => exact ⟨_, .operand 0, rest, hr, rfl⟩
  | opening op o => exact ⟨_, .ofPrimary (.operand 0), .nil, rest, hr, rfl⟩
  | suffix inner => exact ⟨_, .transpose, rest, hr, rfl⟩
  | more n => exact ⟨rest, hr⟩

theorem WantsTerm.exists_completes (h : s.WantsTerm) (p : Primary) :
    ∃ ts, Completes s (p.tokens ++ ts) := by
  obtain ⟨w, c, E⟩ := s
  obtain ⟨rest, hr⟩ := exists_closes E
  have hr := Continues.of_ending hr
  rcases h with h | h <;> obtain rfl : w = _ := h
  · exact ⟨rest, p, rest, hr, .inl rfl⟩
  · exact ⟨rest, p, rest, hr, rfl⟩

/-- A token that would open a level could go on, were it not for the limit. -/
theorem exists_completes_of_opening {t : Token} {d : Nat} (h : s.opening t = some d) :
    ∃ ts, Completes s (t :: ts) := by
  have hterm (hw : s.WantsTerm) (ht : t ≠ .operator .sub) : ∃ ts, Completes s (t :: ts) := by
    rw [hw.opening_eq ht] at h
    cases t with
    | openBracket =>
        obtain ⟨ts, hts⟩ := hw.exists_completes (.group (.ofPrimary (.operand 0)))
        exact ⟨_, hts⟩
    | function op =>
        obtain ⟨ts, hts⟩ := hw.exists_completes (.call op (.ofPrimary (.operand 0)) .nil)
        exact ⟨_, hts⟩
    | _ => cases h
  obtain ⟨w, c, E⟩ := s
  cases w with
  | factor =>
      by_cases ht : t = .operator .sub
      · subst ht
        obtain ⟨rest, hr⟩ := exists_closes E
        exact ⟨_, .operand 0, rest, .of_ending hr, .inr rfl⟩
      · exact hterm (.inl rfl) ht
  | term =>
      refine hterm (.inr rfl) ?_
      rintro rfl
      cases h
  | _ => cases h

theorem isSentence_of_completes (h : Completes .start ts) : IsSentence ts := by
  obtain ⟨a, rest, rfl, ha⟩ := Completes.additive h
  exact ⟨a, by rw [ha, List.append_nil]⟩

theorem isViable_of_completes (h : ps.foldlM step .start = .ok s) {ts' : List Token}
    (hc : Completes s (ts ++ ts')) : IsViable (ps.map Placed.token ++ ts) := by
  obtain ⟨a, ha⟩ := isSentence_of_completes (completes_append h hc)
  exact ⟨a, ts', by rw [ha, List.append_assoc]⟩

theorem isViable_of_run (h : ps.foldlM step .start = .ok s) : IsViable (ps.map Placed.token) := by
  obtain ⟨ts, hts⟩ := s.exists_completes
  have hv : IsViable (ps.map Placed.token ++ []) := isViable_of_completes h hts
  rwa [List.append_nil] at hv

/-! ## What a step can do -/

theorem nest_eq_error {deeper : ParseState} {f : FormulaFault} (h : s.nest o deeper = .error f) :
    f = .malformed o .nestedTooDeep ∧ nestingLimit ≤ s.depth := by
  unfold nest at h
  split at h
  · cases h
  · next hd => exact ⟨(Except.error.inj h).symm, Nat.le_of_not_lt hd⟩

/-- The token at which the parser would go one level deeper, and the offset that a refusal for the
depth has: a call is refused at its name. -/
def Deepens (s : ParseState) (p : Placed) (o : Nat) : Prop :=
  (s.opening p.token = some s.depth ∧ o = p.offset) ∨ ∃ op, s.wanted = .opening op o

/-- A step reads the name of a function, goes on at the same depth or a lesser one, goes one level
deeper if the limit allows, or refuses the token. -/
inductive Outcome (s : ParseState) (p : Placed) : Prop
  | names (op : Operation) (eq : s.step p = .ok { s with wanted := .opening op p.offset })
      (token : p = ⟨.function op, p.offset⟩) (opens : s.opening p.token = some s.depth)
  | advances (s' : ParseState) (eq : s.step p = .ok s') (le : s'.depth ≤ s.depth)
      (ne : ∀ op o, s'.wanted ≠ .opening op o)
  | deepens (o : Nat) (deeper : ParseState) (eq : s.step p = s.nest o deeper)
      (le : deeper.depth ≤ s.depth + 1) (ne : ∀ op o, deeper.wanted ≠ .opening op o)
      (at_token : s.Deepens p o)
  | refuses (eq : s.step p = s.refuse p)

theorem depth_enclose (s : ParseState) (opener : Opener) :
    (s.enclose opener).depth = s.depth + 1 := by
  rw [← s.levels_cons opener]
  exact Nat.zero_add _

theorem WantsTerm.outcome (h : s.WantsTerm) (hp : s.step p = s.startTerm p)
    (ht : p.token ≠ .operator .sub) : s.Outcome p := by
  have ho := h.opening_eq ht
  obtain ⟨t, o⟩ := p
  cases t with
  | number v => exact .advances _ hp (Nat.le_refl _) nofun
  | operand i => exact .advances _ hp (Nat.le_refl _) nofun
  | openBracket => exact .deepens o _ hp (s.depth_enclose _).le nofun (.inl ⟨ho, rfl⟩)
  | function op => exact .names op hp rfl ho
  | _ => exact .refuses hp

theorem afterTerm_outcome {n : Node} (hs : s.wanted = .more n) : s.Outcome p := by
  obtain ⟨w, c, E⟩ := s
  obtain rfl : w = .more n := hs
  obtain ⟨t, o⟩ := p
  cases t with
  | dot => exact .advances _ rfl (Nat.le_refl _) (by simp)
  | operator op =>
      refine .advances _ rfl ?_ (by simp)
      have hc : (c.continued n op).depth = 0 := by
        unfold Clause.continued
        split <;> rfl
      simp [depth, hc]
  | closeBracket =>
      cases E with
      | nil => exact .refuses rfl
      | cons e rest =>
          refine .advances _ rfl ?_ (by simp)
          simp only [depth, levels]
          omega
  | comma =>
      cases E with
      | nil => exact .refuses rfl
      | cons e rest =>
          obtain ⟨opener, c'⟩ := e
          cases opener with
          | group o' => exact .refuses rfl
          | call op finished =>
              refine .advances _ rfl ?_ (by simp)
              simp [depth, levels, Clause.depth, Clause.blank]
  | _ => exact .refuses rfl

theorem step_outcome (s : ParseState) (p : Placed) : s.Outcome p := by
  obtain ⟨w, c, E⟩ := s
  obtain ⟨t, o⟩ := p
  cases w with
  | factor =>
      by_cases ht : t = .operator .sub
      · subst ht
        refine .deepens o _ rfl ?_ nofun (.inl ⟨rfl, rfl⟩)
        simp only [depth, Clause.depth, if_true]
        omega
      · exact WantsTerm.outcome (.inl rfl) (WantsTerm.step_eq (.inl rfl) ht o) ht
  | term =>
      by_cases ht : t = .operator .sub
      · subst ht
        exact .refuses rfl
      · exact WantsTerm.outcome (.inr rfl) rfl ht
  | opening op o' =>
      cases t with
      | openBracket => exact .deepens o' _ rfl (depth_enclose _ _).le nofun (.inr ⟨op, rfl⟩)
      | _ => exact .refuses rfl
  | suffix inner =>
      cases t with
      | suffix op => exact .advances _ rfl (Nat.le_refl _) nofun
      | _ => exact .refuses rfl
  | more n => exact afterTerm_outcome rfl

theorem depth_le_of_step (h : s.step p = .ok s') (hd : s.depth ≤ nestingLimit) :
    s'.depth ≤ nestingLimit := by
  cases s.step_outcome p with
  | names op eq _ _ =>
      obtain rfl := Except.ok.inj (h.symm.trans eq)
      exact hd
  | advances s₁ eq le _ =>
      obtain rfl := Except.ok.inj (h.symm.trans eq)
      exact le.trans hd
  | deepens o deeper eq le _ _ =>
      rw [eq] at h
      have hlt := lt_of_nest_eq_ok h
      obtain rfl := ok_of_nest_eq_ok h
      omega
  | refuses eq => cases h.symm.trans eq

theorem depth_le_of_run (h : ps.foldlM step s = .ok s') (hd : s.depth ≤ nestingLimit) :
    s'.depth ≤ nestingLimit := by
  induction ps generalizing s with
  | nil =>
      obtain rfl := Except.ok.inj h
      exact hd
  | cons p ps ih =>
      obtain ⟨s₁, hs, hr⟩ := exists_of_run_cons h
      exact ih hr (depth_le_of_step hs hd)

/-- A state that wants the bracket of a call comes from the name of the function, at which it opens
the level of the arguments. -/
theorem eq_of_step_opening {op : Operation} (h : s.step p = .ok s')
    (hw : s'.wanted = .opening op o) :
    p = ⟨.function op, o⟩ ∧ s.opening p.token = some s'.depth := by
  cases s.step_outcome p with
  | names op' eq token opens =>
      obtain rfl := Except.ok.inj (h.symm.trans eq)
      cases hw
      exact ⟨token, opens⟩
  | advances s₁ eq _ ne =>
      obtain rfl := Except.ok.inj (h.symm.trans eq)
      exact absurd hw (ne op o)
  | deepens o' deeper eq _ ne _ =>
      rw [eq] at h
      obtain rfl := ok_of_nest_eq_ok h
      exact absurd hw (ne op o)
  | refuses eq => cases h.symm.trans eq

/-! ## Refusals -/

theorem refusal_ne_nestedTooDeep (s : ParseState) (found : Option Token) :
    s.refusal found ≠ .nestedTooDeep := by
  obtain ⟨w, c, E⟩ := s
  cases w with
  | more n =>
      match E with
      | [] => nofun
      | (.group _, _) :: _ => nofun
      | (.call .., _) :: _ => nofun
  | _ => nofun

theorem eq_of_finish_eq_error {stop : Nat} {f : FormulaFault} (h : s.finish stop = .error f) :
    f = .malformed stop (s.refusal none) := by
  obtain ⟨w, c, E⟩ := s
  cases w with
  | more n =>
      match E with
      | [] => cases h
      | _ :: _ => exact (Except.error.inj h).symm
  | _ => exact (Except.error.inj h).symm

theorem exists_of_run_eq_error {f : FormulaFault} (h : ps.foldlM step s = .error f) :
    ∃ before p rest s', ps = before ++ p :: rest ∧ before.foldlM step s = .ok s' ∧
      s'.step p = .error f := by
  induction ps generalizing s with
  | nil => cases h
  | cons p ps ih =>
      rw [foldlM_step_cons] at h
      cases hs : s.step p with
      | error f' =>
          rw [hs] at h
          obtain rfl := Except.error.inj h
          exact ⟨[], p, ps, s, rfl, rfl, hs⟩
      | ok s₁ =>
          rw [hs] at h
          obtain ⟨before, q, rest, s', rfl, hb, hq⟩ := ih h
          exact ⟨p :: before, q, rest, s', rfl, by rw [foldlM_step_cons, hs]; exact hb, hq⟩

theorem exists_of_run_opening {op : Operation} (h : ps.foldlM step .start = .ok s)
    (hw : s.wanted = .opening op o) :
    ∃ before s', ps = before ++ [⟨.function op, o⟩] ∧ before.foldlM step .start = .ok s' ∧
      s'.opening (.function op) = some s.depth := by
  obtain rfl | ⟨before, p, rfl⟩ := ps.eq_nil_or_concat
  · obtain rfl := Except.ok.inj h
    cases hw
  · rw [List.concat_eq_append, List.foldlM_append] at h
    cases hb : before.foldlM step .start with
    | error f => simp [hb, bind, Except.bind] at h
    | ok s' =>
        have hstep : s'.step p = .ok s := by
          rw [hb] at h
          change [p].foldlM step s' = .ok s at h
          simpa using h
        obtain ⟨rfl, ho⟩ := eq_of_step_opening hstep hw
        exact ⟨before, s', List.concat_eq_append, hb, ho⟩

/-! ## The first token that is wrong -/

theorem not_isSentence_of_parseTokens {stop : Nat}
    (h : parseTokens ps stop = .error (.malformed o problem)) (hp : problem ≠ .nestedTooDeep) :
    ¬ IsSentence (ps.map Placed.token) := by
  rintro ⟨a, ha⟩
  obtain ⟨hfits, hdeep⟩ := parseTokens_of_sentence stop a ha.symm
  by_cases hn : a.nesting ≤ nestingLimit
  · cases h.symm.trans (hfits hn)
  · obtain ⟨o', ho⟩ := hdeep (Nat.lt_of_not_le hn)
    cases h.symm.trans ho
    exact hp rfl

/-- No sentence goes on at a token that is refused, whatever comes after it. -/
theorem not_isViable_of_refuse (h : ps.foldlM step .start = .ok s) (hs : s.step p = s.refuse p) :
    ¬ IsViable (ps.map Placed.token ++ [p.token]) := by
  rintro ⟨a, rest, ha⟩
  have herror : parseTokens (ps ++ p :: rest.map (⟨·, 0⟩)) 0 =
      .error (.malformed p.offset (s.refusal (some p.token))) := by
    rw [parseTokens_eq_bind, List.foldlM_append, h]
    change ((s.step p).bind _).bind _ = _
    rw [hs]
    rfl
  refine not_isSentence_of_parseTokens herror (s.refusal_ne_nestedTooDeep _) ⟨a, ?_⟩
  simp [← ha, Function.comp_def]

/-- The level that the parser finds open at a token is the one that every sentence has there. -/
theorem opensLevel_of_opening {t : Token} {d : Nat} (h : ps.foldlM step .start = .ok s)
    (ho : s.opening t = some d) : OpensLevel d (ps.map Placed.token) t := by
  obtain ⟨ts, hts⟩ := exists_completes_of_opening ho
  have hv : IsViable (ps.map Placed.token ++ [t]) := isViable_of_completes h hts
  refine ⟨hv, ?_⟩
  rintro a ⟨rest, ha⟩
  rw [List.length_map, openings_get? a (by simpa using ha.symm) h, ho]

end ParseState

open ParseState

/-- How the first of the remaining tokens, or the end where none is left, can be wrong after
`before`. -/
inductive Offends (before : List Token) : Option Token → Problem → Prop
  | misplaced {t : Token} {problem : Problem} (not_viable : ¬ IsViable (before ++ [t]))
      (ne : problem ≠ .nestedTooDeep) : Offends before (some t) problem
  | unfinished {problem : Problem} (not_sentence : ¬ IsSentence before)
      (ne : problem ≠ .nestedTooDeep) : Offends before none problem
  | tooDeep {t : Token} (opens : OpensLevel nestingLimit before t) :
      Offends before (some t) .nestedTooDeep

/-- The offset of the first of some tokens, or of the end of the text. -/
def nextOffset (rest : List Placed) (stop : Nat) : Nat := (rest.head?.map Placed.offset).getD stop

variable {ps : List Placed} {o : Nat} {problem : Problem}

theorem offends_of_parseTokens {stop : Nat}
    (h : parseTokens ps stop = .error (.malformed o problem)) :
    ∃ before rest, ps = before ++ rest ∧ nextOffset rest stop = o ∧
      IsViable (before.map Placed.token) ∧
      Offends (before.map Placed.token) (rest.head?.map Placed.token) problem := by
  have hp := not_isSentence_of_parseTokens h
  rw [parseTokens_eq_bind] at h
  cases hr : ps.foldlM step .start with
  | ok s =>
      rw [hr] at h
      obtain ⟨rfl, rfl⟩ := FormulaFault.malformed.inj (eq_of_finish_eq_error h)
      have hne := s.refusal_ne_nestedTooDeep none
      exact ⟨ps, [], (List.append_nil ps).symm, rfl, isViable_of_run hr,
        .unfinished (hp hne) hne⟩
  | error f =>
      rw [hr] at h
      obtain rfl := Except.error.inj h
      obtain ⟨before, p, rest, s, rfl, hb, hs⟩ := exists_of_run_eq_error hr
      cases s.step_outcome p with
      | names op eq _ _ => cases eq.symm.trans hs
      | advances s' eq _ _ => cases eq.symm.trans hs
      | refuses eq =>
          obtain ⟨rfl, rfl⟩ := FormulaFault.malformed.inj (Except.error.inj (eq.symm.trans hs))
          exact ⟨before, p :: rest, rfl, rfl, isViable_of_run hb,
            .misplaced (not_isViable_of_refuse hb eq) (s.refusal_ne_nestedTooDeep _)⟩
      | deepens o' deeper eq _ _ at_token =>
          obtain ⟨hf, hd⟩ := nest_eq_error (eq.symm.trans hs)
          obtain ⟨rfl, rfl⟩ := FormulaFault.malformed.inj hf
          have hd : s.depth = nestingLimit :=
            Nat.le_antisymm (depth_le_of_run hb (Nat.zero_le _)) hd
          obtain ⟨ho, rfl⟩ | ⟨op, hw⟩ := at_token
          · exact ⟨before, p :: rest, rfl, rfl, isViable_of_run hb,
              .tooDeep (opensLevel_of_opening hb (hd ▸ ho))⟩
          · obtain ⟨before, s', rfl, hb, ho⟩ := exists_of_run_opening hb hw
            exact ⟨before, ⟨.function op, o⟩ :: p :: rest, by simp, rfl, isViable_of_run hb,
              .tooDeep (opensLevel_of_opening hb (hd ▸ ho))⟩

/-- A text that can be scanned but is malformed is refused at its first token that is wrong: what
stands before it begins a sentence, but no sentence goes on with it, or none ends there, or it would
open a level inside as many as a formula may have. -/
theorem malformed_at_first_offence {formula : String} (hs : scan formula.toList = .ok ps)
    (h : parse formula = .error (.malformed o problem)) :
    ∃ before rest, ps = before ++ rest ∧ nextOffset rest (Text.bytes formula.toList) = o ∧
      IsViable (before.map Placed.token) ∧
      Offends (before.map Placed.token) (rest.head?.map Placed.token) problem := by
  refine offends_of_parseTokens ?_
  rw [parse, parseChars, hs] at h
  by_cases hb : formula.toList.all Text.isBlank = true
  · rw [if_pos hb] at h
    cases h
  · rwa [if_neg hb] at h

theorem malformed_at_first_offence_unbracketed :
    ∃ ps, scan "-(%0 + sqrt %1)".toList = .ok ps ∧
      parse "-(%0 + sqrt %1)" =
        .error (.malformed 12 (.callExpected .sqrt (some (.operand 1)))) ∧
      ∃ before rest, ps = before ++ rest ∧ nextOffset rest 15 = 12 ∧
        IsViable (before.map Placed.token) ∧
        Offends (before.map Placed.token) (rest.head?.map Placed.token)
          (.callExpected .sqrt (some (.operand 1))) := by
  have hs : scan "-(%0 + sqrt %1)".toList = .ok
      [⟨.operator .sub, 0⟩, ⟨.openBracket, 1⟩, ⟨.operand 0, 2⟩, ⟨.operator .add, 5⟩,
        ⟨.function .sqrt, 7⟩, ⟨.operand 1, 12⟩, ⟨.closeBracket, 14⟩] := by
    with_unfolding_all rfl
  have hp : parse "-(%0 + sqrt %1)" =
      .error (.malformed 12 (.callExpected .sqrt (some (.operand 1)))) := by
    with_unfolding_all rfl
  exact ⟨_, hs, hp, malformed_at_first_offence hs hp⟩

end TensorFormula
