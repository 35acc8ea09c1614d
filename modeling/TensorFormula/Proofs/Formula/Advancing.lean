import TensorFormula.Proofs.Formula.Spelling

/-!
# Scanning step by step

A scan goes past separators and lexemes, up to the end of a text or to a lexeme that stands for no
token. A step depends on what follows its lexeme, so the steps are stated with the text that
remains. They do not change if that text is cut off, or if it goes on behind a place where every
lexeme stops.
-/

namespace TensorFormula

open Lexeme Text

namespace Lexeme

variable {c : Char} {cs more rest rest' w : List Char} {found : List (Nat × Token)}
  {problem : Problem} {o : Nat}

/-! ## One lexeme -/

/-- Before `rest`, the text `w` is a lexeme with these tokens. -/
inductive Leads (rest : List Char) : List Char → List (Nat × Token) → Prop
  | mk {c : Char} {more : List Char} {found : List (Nat × Token)} (hc : isSeparator c = false)
      (hf : further c (more ++ rest) = more.length) (ht : tokensOf c more = .ok found) :
      Leads rest (c :: more) found

/-- The text begins with a lexeme that stands for no token. -/
inductive Halts : List Char → Problem → Prop
  | mk {c : Char} {more rest : List Char} {problem : Problem} (hc : isSeparator c = false)
      (hf : further c (more ++ rest) = more.length) (ht : tokensOf c more = .error problem) :
      Halts (c :: more ++ rest) problem

theorem Leads.cut (h : Leads (rest ++ rest') w found) : Leads rest w found := by
  obtain ⟨hc, hf, ht⟩ := h
  exact .mk hc (further_cut hf) ht

theorem Leads.extend (h : Leads rest w found) (hr : Stops rest') :
    Leads (rest ++ rest') w found := by
  obtain ⟨hc, hf, ht⟩ := h
  refine .mk hc ?_ ht
  rw [← List.append_assoc, further_append hr, hf]

theorem Halts.extend (h : Halts cs problem) (hr : Stops rest) : Halts (cs ++ rest) problem := by
  obtain ⟨hc, hf, ht⟩ := h
  rw [List.append_assoc]
  refine .mk hc ?_ ht
  rw [← List.append_assoc, further_append hr, hf]

theorem Leads.scanFrom_eq (h : Leads rest w found) (o : Nat) :
    scanFrom o (w ++ rest) =
      (scanFrom (o + bytes w) rest).map (found.map (fun t => ⟨t.2, o + t.1⟩) ++ ·) := by
  obtain ⟨hc, hf, ht⟩ := h
  exact scanFrom_lexeme hc hf ht o

theorem Halts.scanFrom_eq (h : Halts cs problem) (o : Nat) :
    scanFrom o cs = .error (.malformed o problem) := by
  obtain ⟨hc, hf, ht⟩ := h
  exact scanFrom_refused hc hf ht o

theorem Halts.ne_nil (h : Halts cs problem) : cs ≠ [] := by
  obtain ⟨-, -, -⟩ := h
  exact List.cons_ne_nil _ _

/-- What is no separator begins a lexeme, with tokens or without. -/
theorem leads_or_halts (hc : isSeparator c = false) (cs : List Char) :
    (∃ w rest found, c :: cs = w ++ rest ∧ Leads rest w found) ∨
      ∃ problem, Halts (c :: cs) problem := by
  obtain ⟨more, rest, rfl, hf⟩ :
      ∃ more rest, cs = more ++ rest ∧ further c (more ++ rest) = more.length := by
    refine ⟨cs.take (further c cs), cs.drop (further c cs), ?_⟩
    rw [List.take_append_drop, List.length_take_of_le (further_le c cs)]
    exact ⟨rfl, rfl⟩
  cases ht : tokensOf c more with
  | error problem => exact .inr ⟨problem, .mk hc hf ht⟩
  | ok found => exact .inl ⟨c :: more, rest, found, rfl, .mk hc hf ht⟩

theorem Leads.longest (h : Leads rest w found) : Longest (w ++ rest) w := by
  obtain ⟨hc, hf, ht⟩ := h
  refine longest_of_further (by_contra fun hs => ?_) hf
  rw [tokensOf_of_not_starts hs] at ht
  cases ht

theorem Leads.readAs (h : Leads rest w found) : ReadAs w (.ok found) := by
  have hp := h.longest.matched
  obtain ⟨hc, hf, ht⟩ := h
  exact ht ▸ readAs_tokensOf hp

theorem Leads.spelledBy {t : Token} (h : Leads rest w [(0, t)]) : t.SpelledBy w := by
  generalize he : Except.ok [(0, t)] = r
  have hr := h.readAs
  rw [he] at hr
  cases hr with
  | token hs =>
      obtain ⟨-, rfl⟩ := Prod.mk.inj (List.cons.inj (Except.ok.inj he)).1
      exact hs
  | _ => cases he

/-! ## Names as lexemes -/

theorem Leads.not_isNamePart (h : Leads rest w found) (hw : IsName w) :
    ∀ c ∈ rest.head?, isNamePart c = false := by
  obtain ⟨-, hf, -⟩ := h
  obtain ⟨hc, hm⟩ := hw
  rw [further_of_isNameStart hc] at hf
  exact not_of_runLength hm hf

theorem Named.leads {t : Token} (h : Named t w) (hr : ∀ c ∈ rest.head?, isNamePart c = false) :
    Leads rest w [(0, t)] := by
  have hw := word?_eq_some_iff.2 h
  obtain ⟨hc, hm⟩ := h.isName
  obtain ⟨hs, -, ht⟩ := further_name hc hm stops_nil
  refine .mk hs ?_ (ht.trans ?_)
  · rw [further_of_isNameStart hc]
    exact runLength_append hm hr
  · rw [nameTokens, hw]

theorem Glued.isName {w' : List Char} {t t' : Token} (h : Glued w w' t t') : IsName (w ++ w') := by
  have hm := h.right.isName.all_isNamePart
  obtain ⟨hc, hm'⟩ := h.left.isName
  exact .mk hc (List.forall_mem_append.2 ⟨hm', hm⟩)

/-- The later part of a glued name is a lexeme by itself. -/
theorem Leads.right {w' : List Char} {t t' : Token} (h : Leads rest (w ++ w') found)
    (hg : Glued w w' t t') : Leads rest w' [(0, t')] :=
  hg.right.leads (h.not_isNamePart hg.isName)

end Lexeme

/-! ## Stretches -/

/-- A token with the text that spells it and the place of that text. -/
structure Stretch where
  text : List Char
  token : Token
  offset : Nat

namespace Stretch

variable (s : Stretch)

/-- The offset behind the text. -/
def stop : Nat := s.offset + bytes s.text

def placed : Placed := ⟨s.token, s.offset⟩

end Stretch

variable {c : Char} {cs rest rest' w : List Char} {found : List (Nat × Token)}
  {problem : Problem} {o : Nat} {ss : List Stretch}

/-- A scan of a text that stands at `o` before `rest` goes past it and finds these stretches. -/
inductive Advances (rest : List Char) : Nat → List Char → List Stretch → Prop
  | done {o : Nat} : Advances rest o [] []
  | separator {o : Nat} {c : Char} {cs : List Char} {ss : List Stretch}
      (hc : isSeparator c = true) (h : Advances rest (o + c.utf8Size) cs ss) :
      Advances rest o (c :: cs) ss
  | token {o : Nat} {w cs : List Char} {t : Token} {ss : List Stretch}
      (hl : Leads (cs ++ rest) w [(0, t)]) (h : Advances rest (o + bytes w) cs ss) :
      Advances rest o (w ++ cs) (⟨w, t, o⟩ :: ss)
  | glued {o : Nat} {w w' cs : List Char} {t t' : Token} {ss : List Stretch}
      (hl : Leads (cs ++ rest) (w ++ w') [(0, t), (bytes w, t')]) (hg : Glued w w' t t')
      (h : Advances rest (o + bytes w + bytes w') cs ss) :
      Advances rest o (w ++ (w' ++ cs)) (⟨w, t, o⟩ :: ⟨w', t', o + bytes w⟩ :: ss)

namespace Advances

theorem scanFrom_eq (h : Advances rest o cs ss) : scanFrom o (cs ++ rest) =
    (scanFrom (o + bytes cs) rest).map (ss.map Stretch.placed ++ ·) := by
  induction h with
  | done =>
      rw [List.nil_append, bytes_nil, Nat.add_zero]
      cases scanFrom _ rest <;> rfl
  | separator hc h ih =>
      rw [List.cons_append, scanFrom, if_pos hc, ih, bytes_cons, Nat.add_assoc]
  | token hl h ih =>
      rw [List.append_assoc, hl.scanFrom_eq, ih, bytes_append, Nat.add_assoc]
      cases scanFrom _ rest <;> rfl
  | glued hl hg h ih =>
      rw [List.append_assoc, List.append_assoc, ← List.append_assoc, hl.scanFrom_eq, bytes_append,
        ← Nat.add_assoc, ih, bytes_append, bytes_append]
      simp only [Nat.add_assoc]
      cases scanFrom _ rest <;> rfl

theorem scanFrom_eq_ok (h : Advances [] o cs ss) : scanFrom o cs = .ok (ss.map Stretch.placed) := by
  have hs := h.scanFrom_eq
  rw [List.append_nil, scanFrom] at hs
  rw [hs, Except.map, List.append_nil]

/-- A scan goes on in the same way if the text that remains is cut. -/
theorem cut (h : Advances (rest ++ rest') o cs ss) : Advances rest o cs ss := by
  induction h with
  | done => exact .done
  | separator hc h ih => exact .separator hc ih
  | token hl h ih =>
      rw [← List.append_assoc] at hl
      exact .token hl.cut ih
  | glued hl hg h ih =>
      rw [← List.append_assoc] at hl
      exact .glued hl.cut hg ih

theorem extend (h : Advances rest o cs ss) (hr : Stops rest') :
    Advances (rest ++ rest') o cs ss := by
  induction h with
  | done => exact .done
  | separator hc h ih => exact .separator hc ih
  | token hl h ih =>
      have hl' := hl.extend hr
      rw [List.append_assoc] at hl'
      exact .token hl' ih
  | glued hl hg h ih =>
      have hl' := hl.extend hr
      rw [List.append_assoc] at hl'
      exact .glued hl' hg ih

/-- One more lexeme before the text. -/
theorem prepend (hl : Leads (cs ++ rest) w found) (h : Advances rest (o + bytes w) cs ss) :
    ∃ ss', Advances rest o (w ++ cs) ss' := by
  generalize he : Except.ok found = r
  have hr := hl.readAs
  rw [he] at hr
  cases hr with
  | token =>
      obtain rfl := Except.ok.inj he
      exact ⟨_, .token hl h⟩
  | @glued u u' t t' hw hg =>
      subst hw
      obtain rfl := Except.ok.inj he
      rw [bytes_append, ← Nat.add_assoc] at h
      rw [List.append_assoc]
      exact ⟨_, .glued hl hg h⟩
  | _ => cases he

end Advances

/-- A scan goes on to the end of a text or to a lexeme without tokens. -/
theorem exists_advances (o : Nat) (cs : List Char) : ∃ front rest ss, cs = front ++ rest ∧
    Advances rest o front ss ∧ (rest = [] ∨ ∃ problem, Halts rest problem) := by
  match cs with
  | [] => exact ⟨[], [], [], rfl, .done, .inl rfl⟩
  | c :: cs =>
      by_cases hc : isSeparator c = true
      · obtain ⟨front, rest, ss, rfl, h, hend⟩ := exists_advances (o + c.utf8Size) cs
        exact ⟨c :: front, rest, ss, rfl, .separator hc h, hend⟩
      · obtain ⟨w, rest, found, heq, hl⟩ | ⟨problem, hh⟩ :=
          leads_or_halts (Bool.eq_false_iff.2 hc) cs
        · have hshort : rest.length ≤ cs.length := by
            obtain ⟨-, -, -⟩ := hl
            obtain ⟨-, rfl⟩ := List.cons.inj heq
            exact (List.suffix_append _ rest).length_le
          obtain ⟨front, rest, ss, rfl, h, hend⟩ := exists_advances (o + bytes w) rest
          obtain ⟨ss', h'⟩ := h.prepend hl
          exact ⟨w ++ front, rest, ss', heq.trans (List.append_assoc ..).symm, h', hend⟩
        · exact ⟨[], c :: cs, [], rfl, .done, .inr ⟨problem, hh⟩⟩
  termination_by cs.length

/-! ## Tokens and the end -/

/-- The tokens of a text with their offsets, and its end. -/
def marks (cs : List Char) : Except FormulaFault (List (Option Token × Nat)) :=
  (scan cs).map fun ts => ts.map (fun p => (some p.token, p.offset)) ++ [(none, bytes cs)]

/-- The mark of a stretch. -/
def Stretch.mark (s : Stretch) : Option Token × Nat := (some s.token, s.offset)

theorem marks_eq_ok (h : Advances [] 0 cs ss) :
    marks cs = .ok (ss.map Stretch.mark ++ [(none, bytes cs)]) := by
  rw [marks, scan, h.scanFrom_eq_ok, Except.map, List.map_map]
  rfl

theorem marks_eq_error (h : Advances rest 0 cs ss) (hh : Halts rest problem) :
    marks (cs ++ rest) = .error (.malformed (bytes cs) problem) := by
  rw [marks, scan, h.scanFrom_eq, hh.scanFrom_eq, Nat.zero_add]
  rfl

theorem marks_cases (cs : List Char) :
    (∃ ss, Advances [] 0 cs ss ∧
      marks cs = .ok (ss.map Stretch.mark ++ [(none, bytes cs)])) ∨
    ∃ front rest problem ss, cs = front ++ rest ∧ Advances rest 0 front ss ∧
      Halts rest problem ∧ marks cs = .error (.malformed (bytes front) problem) := by
  obtain ⟨front, rest, ss, rfl, ha, rfl | ⟨problem, hh⟩⟩ := exists_advances 0 cs
  · rw [List.append_nil]
    exact .inl ⟨ss, ha, marks_eq_ok ha⟩
  · exact .inr ⟨front, rest, problem, ss, rfl, ha, hh, marks_eq_error ha hh⟩

end TensorFormula
