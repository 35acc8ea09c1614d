import Mathlib.Data.List.DropRight
import TensorFormula.Proofs.Json.NumberText

/-!
# Reading what is laid out

Blanks before a value do not matter to a reader, nor do those around the items of an array and the
entries of an object. A text that is read as a value whatever follows may therefore be put among
others, compactly or on a line of its own.
-/

namespace TensorFormula.Json

/-! ## Blanks -/

def IsBlank (cs : List Char) : Prop := ∀ c ∈ cs, isSpace c = true

theorem skip_append {blank : List Char} (h : IsBlank blank) (cs : List Char) :
    skip (blank ++ cs) = skip cs :=
  List.dropWhile_append_of_pos h

theorem skip_cons {c : Char} (h : isSpace c = false) (cs : List Char) :
    skip (c :: cs) = c :: cs :=
  List.dropWhile_cons_of_neg (by simp [h])

theorem isBlank_line (n : Nat) : IsBlank ('\n' :: List.replicate n ' ') := by
  intro c hc
  obtain rfl | hc := List.mem_cons.1 hc
  · rfl
  · obtain rfl := (List.mem_replicate.1 hc).2
    rfl

theorem ends_append {blank : List Char} (h : IsBlank blank) {rest : List Char} (hr : Ends rest) :
    Ends (blank ++ rest) := by
  cases blank with
  | nil => exact hr
  | cons c cs =>
      have hc := h c List.mem_cons_self
      simp only [isSpace, Bool.or_eq_true, beq_iff_eq] at hc
      refine ends_cons ?_
      obtain ((rfl | rfl) | rfl) | rfl := hc <;> decide

theorem skip_skip (cs : List Char) : skip (skip cs) = skip cs := List.dropWhile_idempotent ..

theorem readValue_skip (limit : Nat) (cs : List Char) :
    readValue limit (skip cs) = readValue limit cs := by
  cases limit with
  | zero => rfl
  | succ limit => simp only [readValue, skip_skip]

theorem readEntry_skip (item : Reader Value) (cs : List Char) :
    readEntry item (skip cs) = readEntry item cs := by
  simp only [readEntry, skip_skip]

theorem readItems_skip (limit n : Nat) (cs : List Char) :
    readItems (readValue limit) n (skip cs) = readItems (readValue limit) n cs := by
  cases n with
  | zero => rfl
  | succ n => simp only [readItems, readValue_skip]

theorem readEntries_skip (item : Reader Value) (n : Nat) (cs : List Char) :
    readEntries item n (skip cs) = readEntries item n cs := by
  cases n with
  | zero => rfl
  | succ n => simp only [readEntries, readEntry_skip]

theorem readValue_append {blank : List Char} (h : IsBlank blank) (limit : Nat) (cs : List Char) :
    readValue limit (blank ++ cs) = readValue limit cs := by
  rw [← readValue_skip, skip_append h, readValue_skip]

theorem readItems_append {blank : List Char} (h : IsBlank blank) (limit n : Nat)
    (cs : List Char) :
    readItems (readValue limit) n (blank ++ cs) = readItems (readValue limit) n cs := by
  rw [← readItems_skip, skip_append h, readItems_skip]

/-! ## Single values -/

/-- The text is read as `v`, in front of whatever does not belong to a number. -/
def ReadsAs (limit : Nat) (text : List Char) (v : Value) : Prop :=
  ∀ rest, Ends rest → readValue limit (text ++ rest) = some (v, rest)

theorem readValue_of_numeral {c : Char} (h : c = '-' ∨ c.isDigit = true) (limit : Nat)
    (cs : List Char) : readValue (limit + 1) (c :: cs) = readNumber (c :: cs) := by
  have hne : isSpace c = false ∧ c ≠ 'n' ∧ c ≠ 't' ∧ c ≠ 'f' ∧ c ≠ '"' ∧ c ≠ '[' ∧ c ≠ '\x7b' := by
    refine ⟨?_, ?_, ?_, ?_, ?_, ?_, ?_⟩
    · rw [Bool.eq_false_iff]
      intro hs
      simp only [isSpace, Bool.or_eq_true, beq_iff_eq] at hs
      obtain ((rfl | rfl) | rfl) | rfl := hs <;> revert h <;> decide
    all_goals
      rintro rfl
      revert h
      decide
  obtain ⟨hspace, hn, ht, hf, hquote, hbracket, hbrace⟩ := hne
  simp [readValue, skip_cons hspace, hn, ht, hf, hquote, hbracket, hbrace]

theorem readsAs_null (limit : Nat) : ReadsAs (limit + 1) "null".toList .null := fun _ _ => rfl

theorem Literal.Spells.readsAs {l : Literal} {cs : List Char} (h : l.Spells cs) (limit : Nat) :
    ReadsAs (limit + 1) cs (.number l) := by
  intro rest hr
  rw [← h.readNumber_append hr]
  obtain ⟨c, ds, rfl, hc⟩ := h.exists_cons
  exact readValue_of_numeral hc limit (ds ++ rest)

/-- No value starts with a closing bracket. -/
theorem readValue_eq_none {cs rest : List Char} (h : skip cs = ']' :: rest) (limit : Nat) :
    readValue limit cs = none := by
  cases limit with
  | zero => rfl
  | succ limit =>
      simp only [readValue, h]
      rfl

/-! ## Arrays -/

/-- The blanks after an opening bracket, after a comma and before a closing bracket. -/
structure Spacing where
  opening : List Char
  gap : List Char
  closing : List Char
  isBlank_opening : IsBlank opening
  isBlank_gap : IsBlank gap
  isBlank_closing : IsBlank closing

namespace Spacing

def none : Spacing := ⟨[], [], [], nofun, nofun, nofun⟩

/-- Every part on a line of its own, `depth` levels deep. -/
def lines (depth : Nat) : Spacing where
  opening := '\n' :: List.replicate (2 * depth) ' '
  gap := '\n' :: List.replicate (2 * depth) ' '
  closing := '\n' :: List.replicate (2 * (depth - 1)) ' '
  isBlank_opening := isBlank_line _
  isBlank_gap := isBlank_line _
  isBlank_closing := isBlank_line _

variable (b : Spacing)

theorem skip_closing {c : Char} (h : isSpace c = false) (rest : List Char) :
    skip (b.closing ++ c :: rest) = c :: rest :=
  (skip_append b.isBlank_closing _).trans (skip_cons h _)

/-- Texts in brackets. -/
def array (texts : List (List Char)) : List Char :=
  '[' :: (b.opening ++ separated (',' :: b.gap) texts ++ b.closing ++ [']'])

/-- Two entries in braces. -/
def pair (first second : List Char) : List Char :=
  '\x7b' :: (b.opening ++ first ++ ',' :: (b.gap ++ second ++ b.closing ++ ['\x7d']))

end Spacing

/-- The texts of items with commas between them and blanks around each. -/
inductive Items {β : Type} (R : List Char → β → Prop) : List Char → List β → Prop
  | last {before text after : List Char} {v : β} (hb : IsBlank before) (hv : R text v)
      (ha : IsBlank after) : Items R (before ++ (text ++ after)) [v]
  | more {before text after cs : List Char} {v : β} {vs : List β} (hb : IsBlank before)
      (hv : R text v) (ha : IsBlank after) (h : Items R cs vs) :
      Items R (before ++ (text ++ (after ++ ',' :: cs))) (v :: vs)

/-- There is a comma for each item but one. -/
theorem Items.length_le {β : Type} {R : List Char → β → Prop} {cs : List Char} {vs : List β}
    (h : Items R cs vs) : vs.length ≤ cs.length + 1 := by
  induction h with
  | last => simp
  | more _ _ _ _ ih =>
      simp only [List.length_append, List.length_cons]
      omega

theorem Items.read_append {limit : Nat} {cs : List Char} {vs : List Value}
    (h : Items (ReadsAs limit) cs vs) {n : Nat} (hn : vs.length ≤ n) (rest : List Char) :
    readItems (readValue limit) n (cs ++ ']' :: rest) = some (vs, rest) := by
  induction h generalizing n with
  | @last before text after v hb hv ha =>
      obtain ⟨n, rfl⟩ : ∃ k, n = k + 1 := ⟨n - 1, by simp at hn; omega⟩
      have hends : Ends (after ++ ']' :: rest) := ends_append ha (ends_cons (by decide))
      have hread := hv _ hends
      have hskip : skip (after ++ ']' :: rest) = ']' :: rest :=
        (skip_append ha _).trans (skip_cons rfl _)
      rw [List.append_assoc, List.append_assoc, readItems_append hb]
      simp only [readItems, hread, hskip, Option.bind_eq_bind, Option.bind_some]
  | @more before text after cs v vs hb hv ha _ ih =>
      obtain ⟨n, rfl⟩ : ∃ k, n = k + 1 := ⟨n - 1, by simp at hn; omega⟩
      have hrec := ih (by simpa using hn)
      have hends : Ends (after ++ ',' :: (cs ++ ']' :: rest)) :=
        ends_append ha (ends_cons (by decide))
      have hread := hv _ hends
      have hskip : skip (after ++ ',' :: (cs ++ ']' :: rest)) = ',' :: (cs ++ ']' :: rest) :=
        (skip_append ha _).trans (skip_cons rfl _)
      simp only [List.append_assoc, List.cons_append]
      rw [readItems_append hb]
      simp only [readItems, hread, hskip, hrec, Option.bind_eq_bind, Option.bind_some]

theorem readValue_bracket (limit : Nat) (cs : List Char) :
    readValue (limit + 1) ('[' :: cs) =
      match skip cs with
      | ']' :: rest => some (.array [], rest)
      | rest => (readItems (readValue limit) limit rest).map fun (vs, rest) => (.array vs, rest) :=
  rfl

/-- Items in brackets are read as an array. -/
theorem Items.readsAs {limit : Nat} {cs : List Char} {vs : List Value}
    (h : Items (ReadsAs limit) cs vs) (hlimit : vs.length ≤ limit) :
    ReadsAs (limit + 1) ('[' :: (cs ++ [']'])) (.array vs) := by
  intro rest hr
  have hitems := h.read_append hlimit rest
  have htext : '[' :: (cs ++ [']']) ++ rest = '[' :: (cs ++ ']' :: rest) := by simp
  rw [← readItems_skip] at hitems
  rw [htext, readValue_bracket]
  split
  · next hskip =>
      -- a closing bracket at once would leave no first item
      cases limit with
      | zero => cases hitems
      | succ n =>
          rw [readItems, readValue_eq_none ((skip_skip _).trans hskip)] at hitems
          cases hitems
  · rw [hitems]
    rfl

/-- Separated texts are items, the first of them behind any blanks. -/
theorem Spacing.items {limit : Nat} (b : Spacing) {texts : List (List Char)} {vs : List Value}
    (h : List.Forall₂ (ReadsAs limit) texts vs) (hne : texts ≠ []) {before : List Char}
    (hb : IsBlank before) :
    Items (ReadsAs limit) (before ++ separated (',' :: b.gap) texts ++ b.closing) vs := by
  induction h generalizing before with
  | nil => exact absurd rfl hne
  | @cons text v texts vs hv hvs ih =>
      rw [List.append_assoc]
      cases hvs with
      | nil => exact .last hb hv b.isBlank_closing
      | @cons text' v' texts vs hv' hvs =>
          have hrec := ih (by simp) b.isBlank_gap
          have hall := Items.more hb hv (List.forall_mem_nil _) hrec
          simpa only [separated, List.nil_append, List.append_assoc, List.cons_append] using hall

theorem ReadsAs.array {limit : Nat} (b : Spacing) {texts : List (List Char)} {vs : List Value}
    (h : List.Forall₂ (ReadsAs limit) texts vs) (hne : texts ≠ []) (hlimit : texts.length ≤ limit) :
    ReadsAs (limit + 1) (b.array texts) (.array vs) :=
  (b.items h hne b.isBlank_opening).readsAs (h.length_eq ▸ hlimit)

/-! ## Objects -/

/-- The code units of a text without surrogate pairs. -/
def units (cs : List Char) : List Nat := cs.map Char.toNat

/-- Characters that stand for themselves in a string. -/
def IsVerbatim (c : Char) : Prop := c ≠ '"' ∧ c ≠ '\\' ∧ 0x20 ≤ c.toNat

theorem readString_append {key : List Char} (h : ∀ c ∈ key, IsVerbatim c) (rest : List Char) :
    readString (key ++ '"' :: rest) = some (units key, rest) := by
  induction key with
  | nil => rfl
  | cons c key ih =>
      obtain ⟨hquote, hescape, hcontrol⟩ := h c List.mem_cons_self
      have hrec := ih fun d hd => h d (List.mem_cons_of_mem c hd)
      have hstep : ∀ cs, readString (c :: cs) =
          (readString cs).bind fun p => some (c.toNat :: p.1, p.2) := by
        intro cs
        have hc : ¬ (c.toNat < 0x20 ∨ c = '\\') := by
          simp only [hescape, or_false]
          omega
        rw [readString]
        · exact if_neg hc
        · exact hquote
        · exact fun _ _ _ _ _ h _ => hescape h
        · exact fun _ _ h _ => hescape h
      rw [List.cons_append, hstep, hrec]
      rfl

/-- A key in quotes and a value after its colon. -/
def entryText (key gap text : List Char) : List Char := '"' :: (key ++ '"' :: ':' :: (gap ++ text))

theorem ReadsAs.entry {limit : Nat} {key gap text : List Char} {v : Value}
    (hkey : ∀ c ∈ key, IsVerbatim c) (hgap : IsBlank gap) (h : ReadsAs limit text v)
    {rest : List Char} (hr : Ends rest) :
    readEntry (readValue limit) (entryText key gap text ++ rest) = some ((units key, v), rest) := by
  have htext : entryText key gap text ++ rest =
      '"' :: (key ++ '"' :: (':' :: (gap ++ (text ++ rest)))) := by
    simp [entryText]
  have hvalue : readValue limit (gap ++ (text ++ rest)) = some (v, rest) := by
    rw [readValue_append hgap, h rest hr]
  have hcolon : ∀ cs, skip (':' :: cs) = ':' :: cs := skip_cons rfl
  rw [htext, readEntry, skip_cons rfl]
  simp only [readString_append hkey, hcolon, hvalue, Option.bind_eq_bind, Option.bind_some]

theorem readValue_brace (limit : Nat) (cs : List Char) :
    readValue (limit + 1) ('\x7b' :: cs) =
      match skip cs with
      | '\x7d' :: rest => some (.object [], rest)
      | rest =>
          (readEntries (readValue limit) limit rest).map fun (es, rest) => (.object es, rest) :=
  rfl

theorem ReadsAs.object {limit : Nat} (b : Spacing) {gap : List Char} (hgap : IsBlank gap)
    {key key' : List Char} (hkey : ∀ c ∈ key, IsVerbatim c) (hkey' : ∀ c ∈ key', IsVerbatim c)
    {text text' : List Char} {v v' : Value} (h : ReadsAs (limit + 2) text v)
    (h' : ReadsAs (limit + 2) text' v') :
    ReadsAs (limit + 3) (b.pair (entryText key gap text) (entryText key' gap text'))
      (.object [(units key, v), (units key', v')]) := by
  intro rest hr
  have hsecond : readEntries (readValue (limit + 2)) (limit + 1)
      (b.gap ++ (entryText key' gap text' ++ (b.closing ++ '\x7d' :: rest))) =
      some ([(units key', v')], rest) := by
    have hends : Ends (b.closing ++ '\x7d' :: rest) :=
      ends_append b.isBlank_closing (ends_cons (by decide))
    have hskip := b.skip_closing (c := '\x7d') rfl rest
    rw [← readEntries_skip, skip_append b.isBlank_gap, readEntries_skip, readEntries,
      h'.entry hkey' hgap hends]
    simp only [hskip, Option.bind_eq_bind, Option.bind_some]
  have hfirst : readEntries (readValue (limit + 2)) (limit + 2)
      (entryText key gap text ++
        ',' :: (b.gap ++ (entryText key' gap text' ++ (b.closing ++ '\x7d' :: rest)))) =
      some ([(units key, v), (units key', v')], rest) := by
    have hcomma : ∀ cs, skip (',' :: cs) = ',' :: cs := skip_cons rfl
    rw [readEntries, h.entry hkey hgap (ends_cons (by decide))]
    simp only [hcomma, hsecond, Option.bind_eq_bind, Option.bind_some]
  have htext : b.pair (entryText key gap text) (entryText key' gap text') ++ rest =
      '\x7b' :: (b.opening ++ (entryText key gap text ++
        ',' :: (b.gap ++ (entryText key' gap text' ++ (b.closing ++ '\x7d' :: rest))))) := by
    simp [Spacing.pair]
  have hquote : ∀ cs, skip (entryText key gap text ++ cs) = entryText key gap text ++ cs :=
    fun _ => skip_cons rfl _
  rw [htext, readValue_brace, skip_append b.isBlank_opening, hquote]
  split
  · next heq => exact absurd (List.cons.inj heq).1 (by decide)
  · rw [hfirst]
    rfl

end TensorFormula.Json
