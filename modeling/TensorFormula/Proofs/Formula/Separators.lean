import TensorFormula.Proofs.Formula.Stretches

/-!
# Separators between tokens

Every lexeme stops at a separator, so a text with separators in the middle is scanned as two texts.
Tokens can be parted by separators wherever one of them begins, because what stands before and after
such a place is scanned by itself in the same way, also where a name is glued to the operator `x`.
-/

namespace TensorFormula

open Lexeme Text

variable {cs cs' rest w : List Char} {o : Nat} {s : Stretch} {ss ss' : List Stretch}

/-! ## Texts put together -/

/-- The same stretch `k` bytes later. -/
def Stretch.later (k : Nat) (s : Stretch) : Stretch := ⟨s.text, s.token, s.offset + k⟩

namespace Advances

theorem append (h : Advances (cs' ++ rest) o cs ss) (h' : Advances rest (o + bytes cs) cs' ss') :
    Advances rest o (cs ++ cs') (ss ++ ss') := by
  induction h with
  | done => exact h'
  | separator hc h ih =>
      rw [bytes_cons, ← Nat.add_assoc] at h'
      exact .separator hc (ih h')
  | token hl h ih =>
      rw [bytes_append, ← Nat.add_assoc] at h'
      rw [← List.append_assoc] at hl
      rw [List.append_assoc]
      exact .token hl (ih h')
  | glued hl hg h ih =>
      rw [bytes_append, bytes_append, ← Nat.add_assoc, ← Nat.add_assoc] at h'
      rw [← List.append_assoc] at hl
      rw [List.append_assoc, List.append_assoc]
      exact .glued hl hg (ih h')

/-- A text is scanned in the same way wherever it stands. -/
theorem later (k : Nat) (h : Advances rest o cs ss) :
    Advances rest (o + k) cs (ss.map (Stretch.later k)) := by
  induction h with
  | done => exact .done
  | separator hc h ih =>
      rw [Nat.add_right_comm] at ih
      exact .separator hc ih
  | token hl h ih =>
      rw [Nat.add_right_comm] at ih
      exact .token hl ih
  | @glued o w w' cs t t' ss hl hg h ih =>
      have hplace : o + bytes w + bytes w' + k = o + k + bytes w + bytes w' := by omega
      have hsecond : o + bytes w + k = o + k + bytes w := Nat.add_right_comm ..
      rw [hplace] at ih
      rw [List.map_cons, List.map_cons, Stretch.later, Stretch.later]
      dsimp only
      rw [hsecond]
      exact .glued hl hg ih

theorem separators (hw : w.all isSeparator = true) : Advances rest o w [] := by
  induction w generalizing o with
  | nil => exact .done
  | cons c w ih =>
      rw [List.all_cons, Bool.and_eq_true] at hw
      exact .separator hw.1 (ih hw.2)

/-- Separators between two texts move the tokens of the second one. -/
theorem separated (hne : w ≠ []) (hw : w.all isSeparator = true) (h : Advances [] o cs ss)
    (h' : Advances rest (o + bytes cs) cs' ss') :
    Advances rest o (cs ++ (w ++ cs')) (ss ++ ss'.map (Stretch.later (bytes w))) := by
  have hstops : Stops (w ++ (cs' ++ rest)) := stops_separators hne hw _
  have hfirst := h.extend hstops
  rw [List.nil_append, ← List.append_assoc] at hfirst
  exact hfirst.append ((separators hw).append (h'.later (bytes w)))

/-- A scan can be parted before each token that it finds. -/
theorem split (h : Advances [] o cs (ss ++ s :: ss')) :
    ∃ before after, cs = before ++ after ∧ s.offset = o + bytes before ∧
      Advances [] o before ss ∧ Advances [] s.offset after (s :: ss') := by
  generalize hall : ss ++ s :: ss' = all at h
  induction h generalizing ss with
  | done => exact absurd hall (List.append_ne_nil_of_right_ne_nil _ (List.cons_ne_nil _ _))
  | @separator o c cs _ hc h ih =>
      obtain ⟨before, after, rfl, ho, hbefore, hafter⟩ := ih hall
      refine ⟨c :: before, after, rfl, ?_, .separator hc hbefore, hafter⟩
      rw [ho, bytes_cons, Nat.add_assoc]
  | @token o w cs t _ hl h ih =>
      cases ss with
      | nil =>
          obtain ⟨rfl, rfl⟩ := List.cons.inj hall
          exact ⟨[], w ++ cs, rfl, rfl, .done, .token hl h⟩
      | cons s₀ ss =>
          obtain ⟨rfl, htail⟩ := List.cons.inj hall
          obtain ⟨before, after, rfl, ho, hbefore, hafter⟩ := ih htail
          refine ⟨w ++ before, after, (List.append_assoc ..).symm, ?_, ?_, hafter⟩
          · rw [ho, bytes_append, Nat.add_assoc]
          · rw [List.append_nil] at hl
            refine .token ?_ hbefore
            rw [List.append_nil]
            exact hl.cut
  | @glued o w w' cs t t' _ hl hg h ih =>
      have hwhole := hl
      rw [List.append_nil] at hl
      match ss with
      | [] =>
          obtain ⟨rfl, rfl⟩ := List.cons.inj hall
          exact ⟨[], w ++ (w' ++ cs), rfl, rfl, .done, .glued hwhole hg h⟩
      | [s₀] =>
          -- The place is inside a glued name, both parts of which are lexemes.
          obtain ⟨rfl, htail⟩ := List.cons.inj hall
          obtain ⟨rfl, rfl⟩ := List.cons.inj htail
          refine ⟨w, w' ++ cs, rfl, rfl, ?_, .token ?_ h⟩
          · have hfirst : Leads [] w [(0, t)] := hg.left.leads (by simp)
            have hscan : Advances [] o (w ++ []) [⟨w, t, o⟩] := .token hfirst .done
            rwa [List.append_nil] at hscan
          · rw [List.append_nil]
            exact hl.right hg
      | s₀ :: s₁ :: ss =>
          obtain ⟨rfl, htail⟩ := List.cons.inj hall
          obtain ⟨rfl, htail'⟩ := List.cons.inj htail
          obtain ⟨before, after, rfl, ho, hbefore, hafter⟩ := ih htail'
          refine ⟨w ++ (w' ++ before), after, ?_, ?_, ?_, hafter⟩
          · rw [List.append_assoc, List.append_assoc]
          · rw [ho, bytes_append, bytes_append, Nat.add_assoc, Nat.add_assoc]
          · refine .glued ?_ hg hbefore
            rw [List.append_nil]
            exact hl.cut

end Advances

/-- The place of a token or of the end parts a scan. -/
theorem exists_split {m : Option Token × Nat} (h : Advances [] 0 cs ss)
    (hm : m ∈ ss.map Stretch.mark ++ [(none, bytes cs)]) :
    ∃ before after ss₁ ss₂, cs = before ++ after ∧ bytes before = m.2 ∧ ss = ss₁ ++ ss₂ ∧
      Advances [] 0 before ss₁ ∧ Advances [] m.2 after ss₂ := by
  obtain hm | hm := List.mem_append.1 hm
  · obtain ⟨s, hs, rfl⟩ := List.mem_map.1 hm
    obtain ⟨ss₁, ss₂, rfl⟩ := List.append_of_mem hs
    obtain ⟨before, after, heq, ho, hbefore, hafter⟩ := h.split
    rw [Nat.zero_add] at ho
    exact ⟨before, after, ss₁, s :: ss₂, heq, ho.symm, rfl, hbefore, hafter⟩
  · obtain rfl := List.mem_singleton.1 hm
    exact ⟨cs, [], ss, [], (List.append_nil cs).symm, rfl, (List.append_nil ss).symm, h, .done⟩

/-! ## Main statement -/

/-- The same mark `k` bytes later. -/
def laterMark (k : Nat) (m : Option Token × Nat) : Option Token × Nat := (m.1, m.2 + k)

theorem map_mark_later (k : Nat) (ss : List Stretch) :
    (ss.map (Stretch.later k)).map Stretch.mark = (ss.map Stretch.mark).map (laterMark k) := by
  rw [List.map_map, List.map_map]
  rfl

theorem map_later_later (k l : Nat) (ss : List Stretch) :
    (ss.map (Stretch.later k)).map (Stretch.later l) = ss.map (Stretch.later (k + l)) := by
  rw [List.map_map]
  refine List.map_congr_left fun s _ => ?_
  rw [Function.comp_apply, Stretch.later, Stretch.later, Stretch.later, Nat.add_assoc]

theorem marks_separated_of_error {a : List Char} {fault : FormulaFault} (hne : w ≠ [])
    (hw : w.all isSeparator = true) (b : List Char) (h : marks a = .error fault) :
    marks (a ++ (w ++ b)) = .error fault := by
  obtain ⟨ss, -, hok⟩ | ⟨front, rest, problem, ss, rfl, ha, hh, herror⟩ := marks_cases a
  · cases hok.symm.trans h
  · have hstops := stops_separators hne hw b
    rw [List.append_assoc, marks_eq_error (ha.extend hstops) (hh.extend hstops)]
    exact herror.symm.trans h

theorem marks_separated_of_ok_error {a b : List Char} {ms : List (Option Token × Nat)}
    {fault : FormulaFault} (hne : w ≠ []) (hw : w.all isSeparator = true) (ha : marks a = .ok ms)
    (hb : marks b = .error fault) : ∃ o problem, fault = .malformed o problem ∧
      marks (a ++ (w ++ b)) = .error (.malformed (o + bytes (a ++ w)) problem) := by
  obtain ⟨ss, h, -⟩ | ⟨front, rest, problem, ss, -, -, -, herror⟩ := marks_cases a
  · obtain ⟨ss', -, hok⟩ | ⟨front, rest, problem, ss', rfl, h', hh, herror⟩ := marks_cases b
    · cases hok.symm.trans hb
    · refine ⟨bytes front, problem, Except.error.inj (hb.symm.trans herror), ?_⟩
      have hall := marks_eq_error (h.separated hne hw (h'.later (bytes a))) hh
      rw [List.append_assoc, List.append_assoc] at hall
      rw [hall, ← List.append_assoc, bytes_append, Nat.add_comm]
  · cases herror.symm.trans ha

theorem marks_separated_of_ok {a b : List Char} {ms ms' : List (Option Token × Nat)}
    (hne : w ≠ []) (hw : w.all isSeparator = true) (ha : marks a = .ok ms)
    (hb : marks b = .ok ms') :
    marks (a ++ (w ++ b)) = .ok (ms.dropLast ++ ms'.map (laterMark (bytes (a ++ w)))) := by
  obtain ⟨ss, h, hok⟩ | ⟨front, rest, problem, ss, -, -, -, herror⟩ := marks_cases a
  · obtain ⟨ss', h', hok'⟩ | ⟨front, rest, problem, ss', -, -, -, herror⟩ := marks_cases b
    · obtain rfl := Except.ok.inj (hok.symm.trans ha)
      obtain rfl := Except.ok.inj (hok'.symm.trans hb)
      have hend : (none, bytes (a ++ (w ++ b))) =
          laterMark (bytes (a ++ w)) ((none, bytes b) : Option Token × Nat) := by
        rw [laterMark, ← List.append_assoc, bytes_append, Nat.add_comm]
      rw [marks_eq_ok (h.separated hne hw (h'.later (bytes a))), map_later_later, ← bytes_append,
        List.dropLast_concat, List.map_append, List.map_append, map_mark_later, hend,
        List.append_assoc]
      rfl
    · cases herror.symm.trans hb
  · cases herror.symm.trans ha

/-- The marks from a place on are moved, those before it stay. -/
def makeRoom (place k : Nat) (n : Option Token × Nat) : Option Token × Nat :=
  if n.2 < place then n else laterMark k n

theorem map_makeRoom {ms ms' : List (Option Token × Nat)} {place : Nat} (k : Nat)
    (h : ∀ n ∈ ms, n.2 < place) (h' : ∀ n ∈ ms', place ≤ n.2) :
    (ms ++ ms').map (makeRoom place k) = ms ++ ms'.map (laterMark k) := by
  have hfront : ms.map (makeRoom place k) = ms :=
    (List.map_congr_left fun n hn => if_pos (h n hn)).trans (List.map_id' ms)
  have hback : ms'.map (makeRoom place k) = ms'.map (laterMark k) :=
    List.map_congr_left fun n hn => if_neg (Nat.not_lt.2 (h' n hn))
  rw [List.map_append, hfront, hback]

theorem map_fst_makeRoom (place k : Nat) (ms : List (Option Token × Nat)) :
    (ms.map (makeRoom place k)).map Prod.fst = ms.map Prod.fst := by
  rw [List.map_map]
  refine List.map_congr_left fun n _ => ?_
  rw [Function.comp_apply, makeRoom]
  split <;> rfl

theorem marks_insert {ms : List (Option Token × Nat)} {m : Option Token × Nat} (hne : w ≠ [])
    (hw : w.all isSeparator = true) (h : marks cs = .ok ms) (hm : m ∈ ms) :
    ∃ before after, cs = before ++ after ∧ bytes before = m.2 ∧
      marks (before ++ (w ++ after)) = .ok (ms.map (makeRoom m.2 (bytes w))) := by
  obtain ⟨ss, ha, hok⟩ | ⟨front, rest, problem, ss, -, -, -, herror⟩ := marks_cases cs
  · obtain rfl := Except.ok.inj (hok.symm.trans h)
    obtain ⟨before, after, ss₁, ss₂, rfl, hplace, rfl, hbefore, hafter⟩ := exists_split ha hm
    obtain ⟨t, place⟩ := m
    dsimp only at hplace hafter ⊢
    subst hplace
    refine ⟨before, after, rfl, rfl, ?_⟩
    have hlow : ∀ n ∈ ss₁.map Stretch.mark, n.2 < bytes before := by
      intro n hn
      obtain ⟨s, hs, rfl⟩ := List.mem_map.1 hn
      exact Nat.zero_add (bytes before) ▸ hbefore.covers.offset_lt s hs
    have hhigh : ∀ n ∈ ss₂.map Stretch.mark ++ [(none, bytes (before ++ after))],
        bytes before ≤ n.2 := by
      intro n hn
      obtain hn | hn := List.mem_append.1 hn
      · obtain ⟨s, hs, rfl⟩ := List.mem_map.1 hn
        exact hafter.covers.le_offset s hs
      · obtain rfl := List.mem_singleton.1 hn
        exact (Nat.le_add_right _ _).trans_eq (bytes_append before after).symm
    have hend : (none, bytes (before ++ (w ++ after))) =
        laterMark (bytes w) ((none, bytes (before ++ after)) : Option Token × Nat) := by
      simp only [laterMark, bytes_append, Prod.mk.injEq, true_and]
      omega
    have hroom := map_makeRoom (bytes w) hlow hhigh
    rw [← List.append_assoc, ← List.map_append] at hroom
    rw [← Nat.zero_add (bytes before)] at hafter
    rw [hroom, marks_eq_ok (hbefore.separated hne hw hafter), List.map_append, map_mark_later, hend,
      List.map_append, List.append_assoc]
    rfl
  · cases herror.symm.trans h

/-- Two texts with separators between them are refused where the first one is refused, else where
the second one is, and have the tokens of both texts otherwise. Separators before a token or before
the end of a text move what follows and change nothing else. -/
theorem separators_keep_tokens (w : List Char) (hne : w ≠ []) (hw : w.all isSeparator = true) :
    (∀ a b : List Char,
      (∀ fault, marks a = .error fault → marks (a ++ (w ++ b)) = .error fault) ∧
      (∀ ms fault, marks a = .ok ms → marks b = .error fault → ∃ o problem,
        fault = .malformed o problem ∧
          marks (a ++ (w ++ b)) = .error (.malformed (o + bytes (a ++ w)) problem)) ∧
      ∀ ms ms', marks a = .ok ms → marks b = .ok ms' →
        marks (a ++ (w ++ b)) = .ok (ms.dropLast ++ ms'.map (laterMark (bytes (a ++ w))))) ∧
    ∀ cs ms, marks cs = .ok ms → ∀ m ∈ ms, ∃ before after ms', cs = before ++ after ∧
      bytes before = m.2 ∧ marks (before ++ (w ++ after)) = .ok ms' ∧
      ms'.map Prod.fst = ms.map Prod.fst ∧ ms' = ms.map (makeRoom m.2 (bytes w)) := by
  refine ⟨fun a b => ⟨?_, ?_, ?_⟩, fun cs ms h m hm => ?_⟩
  · exact fun fault ha => marks_separated_of_error hne hw b ha
  · exact fun ms fault ha hb => marks_separated_of_ok_error hne hw ha hb
  · exact fun ms ms' ha hb => marks_separated_of_ok hne hw ha hb
  · obtain ⟨before, after, heq, hplace, hmarks⟩ := marks_insert hne hw h hm
    exact ⟨before, after, _, heq, hplace, hmarks, map_fst_makeRoom _ _ ms, rfl⟩

/-- A space inside a glued name, and a space before a text that is refused. -/
theorem separators_keep_tokens_glued :
    (∃ before after ms', "%0.Tx%1".toList = before ++ after ∧ bytes before = 4 ∧
      marks (before ++ ([' '] ++ after)) = .ok ms' ∧
      ms'.map Prod.snd = [0, 2, 3, 5, 6, 8]) ∧
    marks "v $".toList = .error (.malformed 2 (.unknownSymbol '$')) := by
  obtain ⟨happend, hinsert⟩ := separators_keep_tokens [' '] (List.cons_ne_nil _ _) rfl
  have hglued : marks "%0.Tx%1".toList = .ok [(some (.operand 0), 0), (some .dot, 2),
      (some (.suffix .transpose), 3), (some (.operator .matmul), 4), (some (.operand 1), 5),
      (none, 7)] := by
    with_unfolding_all rfl
  have hvector : marks ['v'] = .ok [(some (.suffix .vector), 0), (none, 1)] := by
    with_unfolding_all rfl
  have hdollar : marks ['$'] = .error (.malformed 0 (.unknownSymbol '$')) := by
    with_unfolding_all rfl
  constructor
  · obtain ⟨before, after, ms', heq, hplace, hmarks, -, rfl⟩ :=
      hinsert _ _ hglued (some (.operator .matmul), 4) (by simp)
    exact ⟨before, after, _, heq, hplace, hmarks, rfl⟩
  · obtain ⟨o, problem, hfault, hmarks⟩ := (happend ['v'] ['$']).2.1 _ _ hvector hdollar
    obtain ⟨rfl, rfl⟩ := FormulaFault.malformed.inj hfault
    exact hmarks

end TensorFormula
