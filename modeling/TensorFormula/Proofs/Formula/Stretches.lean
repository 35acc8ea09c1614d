import TensorFormula.Proofs.Formula.Advancing

/-!
# Tokens and the text

The stretches that spell the tokens of a text stand apart and in order, and separators are all that
is left between them. Where a text is refused, no token can be read, but the text before that place
has tokens of its own.
-/

namespace TensorFormula

open Lexeme Text

variable {c : Char} {cs w : List Char} {problem : Problem} {o : Nat} {ss : List Stretch}

/-! ## Covered texts -/

/-- A stretch ends where the longest match at its place ends, or inside it, where a known name and
the operator `x` are glued. -/
def Stretch.EndsBefore (s : Stretch) (after : List Char) : Prop :=
  Longest (s.text ++ after) s.text ∨
    ∃ w t, Glued s.text w s.token t ∧ Longest (s.text ++ after) (s.text ++ w)

/-- The stretches of a text at offset `o` are in order and apart, each spells its token, and nothing
but separators is left outside. -/
structure Covers (o : Nat) (cs : List Char) (ss : List Stretch) : Prop where
  apart : ss.Pairwise fun s s' => s.stop ≤ s'.offset
  spelled : ∀ s ∈ ss, s.token.SpelledBy s.text
  stands : ∀ s ∈ ss, ∃ before after, cs = before ++ (s.text ++ after) ∧
    s.offset = o + bytes before ∧ s.EndsBefore after
  outside : ∀ before c after, cs = before ++ c :: after → isSeparator c = true ∨
    ∃ s ∈ ss, s.offset ≤ o + bytes before ∧ o + bytes (before ++ [c]) ≤ s.stop

/-- A character of two texts in a row belongs to the first one or to the second. -/
theorem inside_or_behind {before after : List Char} (h : w ++ cs = before ++ c :: after) :
    (∃ mid, w = before ++ c :: mid) ∨ ∃ mid, before = w ++ mid ∧ cs = mid ++ c :: after := by
  obtain ⟨mid, hmid, htail⟩ | ⟨mid, hmid, htail⟩ := List.append_eq_append_iff.1 h
  · exact .inr ⟨mid, hmid, htail⟩
  · cases mid with
    | nil => exact .inr ⟨[], by rw [hmid, List.append_nil, List.append_nil], htail.symm⟩
    | cons d mid =>
        obtain ⟨rfl, -⟩ := List.cons.inj htail
        exact .inl ⟨mid, hmid⟩

namespace Covers

variable {t : Token}

theorem nil : Covers o [] [] := by
  refine ⟨.nil, List.forall_mem_nil _, List.forall_mem_nil _, fun before c after h => ?_⟩
  exact absurd h.symm (List.append_ne_nil_of_right_ne_nil _ (List.cons_ne_nil _ _))

theorem separator (hc : isSeparator c = true) (h : Covers (o + c.utf8Size) cs ss) :
    Covers o (c :: cs) ss := by
  refine ⟨h.apart, h.spelled, fun s hs => ?_, fun before d after heq => ?_⟩
  · obtain ⟨before, after, rfl, ho, he⟩ := h.stands s hs
    exact ⟨c :: before, after, rfl, by rw [ho, bytes_cons, Nat.add_assoc], he⟩
  · cases before with
    | nil =>
        obtain ⟨rfl, -⟩ := List.cons.inj heq
        exact .inl hc
    | cons b before =>
        obtain ⟨rfl, htail⟩ := List.cons.inj heq
        have hrest := h.outside before d after htail
        rwa [Nat.add_assoc, Nat.add_assoc] at hrest

theorem le_offset (h : Covers o cs ss) : ∀ s ∈ ss, o ≤ s.offset := by
  intro s hs
  obtain ⟨before, after, -, ho, -⟩ := h.stands s hs
  exact ho ▸ Nat.le_add_right _ _

/-- One more stretch before the text. -/
theorem prepend (hw : t.SpelledBy w) (he : Stretch.EndsBefore ⟨w, t, o⟩ cs)
    (h : Covers (o + bytes w) cs ss) : Covers o (w ++ cs) (⟨w, t, o⟩ :: ss) := by
  refine ⟨List.pairwise_cons.2 ⟨h.le_offset, h.apart⟩, List.forall_mem_cons.2 ⟨hw, h.spelled⟩,
    List.forall_mem_cons.2 ⟨⟨[], cs, rfl, rfl, he⟩, fun s hs => ?_⟩, fun before c after heq => ?_⟩
  · obtain ⟨before, after, rfl, ho, he⟩ := h.stands s hs
    refine ⟨w ++ before, after, (List.append_assoc ..).symm, ?_, he⟩
    rw [ho, bytes_append, Nat.add_assoc]
  · obtain ⟨mid, rfl⟩ | ⟨mid, rfl, htail⟩ := inside_or_behind heq
    · refine .inr ⟨_, List.mem_cons_self, Nat.le_add_right _ _, ?_⟩
      simp only [Stretch.stop, bytes_append, bytes_cons, bytes_nil]
      omega
    · refine (h.outside mid c after htail).imp_right fun ⟨s, hs, hlow, hup⟩ => ?_
      refine ⟨s, List.mem_cons_of_mem _ hs, ?_⟩
      rw [List.append_assoc, bytes_append, bytes_append w, ← Nat.add_assoc, ← Nat.add_assoc]
      exact ⟨hlow, hup⟩

end Covers

theorem Advances.covers (h : Advances [] o cs ss) : Covers o cs ss := by
  induction h with
  | done => exact .nil
  | separator hc h ih => exact .separator hc ih
  | token hl h ih =>
      rw [List.append_nil] at hl
      exact ih.prepend hl.spelledBy (.inl hl.longest)
  | glued hl hg h ih =>
      rw [List.append_nil] at hl
      have hlong := hl.longest
      rw [List.append_assoc] at hlong
      -- The second part ends where the whole name ends, the first one inside it.
      refine (ih.prepend (.name hg.right) (.inl (hl.right hg).longest)).prepend (.name hg.left) ?_
      exact .inr ⟨_, _, hg, hlong⟩

theorem Token.SpelledBy.bytes_pos {t : Token} (h : t.SpelledBy w) : 0 < bytes w := by
  have hne : w ≠ [] := by
    cases h with
    | number hr => cases hr <;> simp [*]
    | name h =>
        obtain ⟨-, -⟩ := h.isName
        exact List.cons_ne_nil _ _
    | _ => exact List.cons_ne_nil _ _
  obtain ⟨c, more, rfl⟩ := List.exists_cons_of_ne_nil hne
  rw [bytes_cons]
  exact Nat.add_pos_left c.utf8Size_pos _

theorem Covers.offset_lt (h : Covers o cs ss) : ∀ s ∈ ss, s.offset < o + bytes cs := by
  intro s hs
  have hpos := (h.spelled s hs).bytes_pos
  obtain ⟨before, after, rfl, ho, -⟩ := h.stands s hs
  rw [ho, bytes_append, bytes_append]
  omega

theorem Covers.increasing (h : Covers o cs ss) :
    ss.Pairwise fun s s' => s.offset < s'.offset := by
  refine h.apart.imp_of_mem fun {s s'} hs _ hle => ?_
  have hpos := (h.spelled s hs).bytes_pos
  rw [Stretch.stop] at hle
  omega

/-! ## Refused texts -/

/-- No token can be read where a text begins. -/
inductive Refuses : List Char → Problem → Prop
  | symbol {c : Char} {cs : List Char} (hc : isSeparator c = false)
      (hp : ∀ w, w <+: c :: cs → ¬ IsLexeme w) : Refuses (c :: cs) (.unknownSymbol c)
  | percent {cs : List Char} (hl : Longest cs ['%']) : Refuses cs .operandDigitsMissing
  | operand {cs ds : List Char} (hl : Longest cs ('%' :: ds))
      (hi : Nat.pow 2 64 ≤ Nat.ofDigitChars 10 ds 0) : Refuses cs (.operandTooLarge ('%' :: ds))
  | name {cs w : List Char} (hl : Longest cs w) (hw : IsName w) (hn : ∀ t, ¬ Named t w)
      (hg : ∀ u u' t t', w = u ++ u' → ¬ Glued u u' t t') : Refuses cs (.unknownName w)

theorem Lexeme.Halts.refuses (h : Halts cs problem) : Refuses cs problem := by
  obtain @⟨c, more, rest, problem, hc, hf, ht⟩ := h
  by_cases hs : Starts c
  · have hl := longest_of_further hs hf
    have hr := readAs_tokensOf hl.matched
    rw [ht] at hr
    cases hr with
    | percent hw => exact .percent (hw ▸ hl)
    | large hw hi =>
        rw [hw] at hl ⊢
        exact .operand hl hi
    | unknown hw hn hg => exact .name hl hw hn hg
  · rw [tokensOf_of_not_starts hs] at ht
    obtain rfl := Except.error.inj ht
    exact .symbol hc fun w hw => not_isLexeme_of_prefix hs hw

/-! ## Main statement -/

/-- The tokens of a text stand in increasing order before its end, and their stretches cover all of
it but separators. A text that has no tokens is refused at a character inside it, and what stands
before that character has tokens. -/
theorem marks_cover_text (cs : List Char) :
    (∀ ms, marks cs = .ok ms → (ms.map Prod.snd).Pairwise (· < ·) ∧
      ∃ ss, ms = ss.map Stretch.mark ++ [(none, bytes cs)] ∧ Covers 0 cs ss) ∧
    ∀ fault, marks cs = .error fault → ∃ before after problem, cs = before ++ after ∧
      after ≠ [] ∧ fault = .malformed (bytes before) problem ∧ Refuses after problem ∧
      ∃ ms, marks before = .ok ms := by
  obtain ⟨ss, ha, hok⟩ | ⟨front, rest, problem, ss, rfl, ha, hh, herror⟩ := marks_cases cs
  · refine ⟨fun ms h => ?_, fun fault h => (nomatch hok.symm.trans h)⟩
    obtain rfl := Except.ok.inj (hok.symm.trans h)
    have hcovers := ha.covers
    refine ⟨?_, ss, rfl, hcovers⟩
    rw [List.map_append, List.map_map, List.pairwise_append]
    refine ⟨List.pairwise_map.2 hcovers.increasing, List.pairwise_singleton _ _, ?_⟩
    intro k hk k' hk'
    obtain ⟨s, hs, rfl⟩ := List.mem_map.1 hk
    obtain rfl := List.mem_singleton.1 hk'
    have hlt := hcovers.offset_lt s hs
    rwa [Nat.zero_add] at hlt
  · refine ⟨fun ms h => (nomatch herror.symm.trans h), fun fault h => ?_⟩
    obtain rfl := Except.error.inj (herror.symm.trans h)
    rw [← List.nil_append rest] at ha
    exact ⟨front, rest, problem, rfl, hh.ne_nil, rfl, hh.refuses, _, marks_eq_ok ha.cut⟩

/-- Tokens up to the end of a text, two of them glued, and a text refused in the middle. -/
theorem marks_cover_text_glued :
    (∃ ms, marks "%0.Tx%1".toList = .ok ms ∧ ms.map Prod.snd = [0, 2, 3, 4, 5, 7] ∧
      (ms.map Prod.snd).Pairwise (· < ·) ∧
      ∃ ss, ms = ss.map Stretch.mark ++ [(none, 7)] ∧ Covers 0 "%0.Tx%1".toList ss) ∧
    ∃ problem, marks "%0+Txx".toList = .error (.malformed 3 problem) ∧
      ∃ before after, "%0+Txx".toList = before ++ after ∧ bytes before = 3 ∧
        Refuses after problem ∧ ∃ ms, marks before = .ok ms := by
  have hok : marks "%0.Tx%1".toList = .ok [(some (.operand 0), 0), (some .dot, 2),
      (some (.suffix .transpose), 3), (some (.operator .matmul), 4), (some (.operand 1), 5),
      (none, 7)] := by
    with_unfolding_all rfl
  have herror : marks "%0+Txx".toList =
      .error (.malformed 3 (.unknownName ['T', 'x', 'x'])) := by
    with_unfolding_all rfl
  refine ⟨⟨_, hok, rfl, (marks_cover_text _).1 _ hok⟩, _, herror, ?_⟩
  obtain ⟨before, after, problem, heq, -, hfault, hrefuses, hbefore⟩ :=
    (marks_cover_text _).2 _ herror
  obtain ⟨hoffset, rfl⟩ := FormulaFault.malformed.inj hfault
  exact ⟨before, after, heq, hoffset.symm, hrefuses, hbefore⟩

end TensorFormula
