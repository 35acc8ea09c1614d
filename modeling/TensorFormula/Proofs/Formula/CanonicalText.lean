import TensorFormula.Proofs.Formula.ParsedTrees

/-!
# When canonical text is read back

The canonical text of a tree that a formula was read as is not always read back. An infinite
constant is written as a name that no formula may contain, and around a constant before a suffix the
text opens a level, which can be one too many. These are the only obstacles.
-/

namespace TensorFormula

open Grammar Lexeme Text

variable {cs cs' : List Char} {ts : List Token} {n : Node}

/-! ## Texts with an infinite constant -/

/-- The name that an infinite constant is written as. -/
def infinityName : List Char := ['i', 'n', 'f']

/-- A text that cannot be scanned for the name of an infinite constant, wherever nothing that
follows goes on with its last lexeme. -/
def Breaks (cs : List Char) : Prop :=
  ∀ rest, Stops rest → ∀ o, ∃ o',
    scanFrom o (cs ++ rest) = .error (.malformed o' (.unknownName infinityName))

theorem breaks_infinityName : Breaks infinityName := by
  intro rest hr o
  have hm : ∀ d ∈ ['n', 'f'], isNamePart d = true := List.all_eq_true.1 (by decide)
  have hu : nameTokens ['i', 'n', 'f'] = .error (.unknownName infinityName) := by
    with_unfolding_all rfl
  exact ⟨o, scanFrom_unknown (by decide) hm hu hr o⟩

/-- What comes before a text that breaks is scanned first. -/
theorem Breaks.prepend (h : Breaks cs')
    (hs : ∀ rest, Stops rest → ScansBefore (cs' ++ rest) cs ts) : Breaks (cs ++ cs') := by
  intro rest hr o
  obtain ⟨ps, -, he⟩ := hs rest hr o
  obtain ⟨o', ho⟩ := h rest hr (o + bytes cs)
  exact ⟨o', by rw [List.append_assoc, he, ho]; rfl⟩

theorem Breaks.append (h : Breaks cs) (hs : ∀ rest, Stops rest → Stops (cs' ++ rest)) :
    Breaks (cs ++ cs') := by
  intro rest hr o
  rw [List.append_assoc]
  exact h _ (hs rest hr) o

theorem Breaks.symbol {c : Char} {t : Token} (h : Breaks cs) (hc : symbol? c = some t) :
    Breaks (c :: cs) := by
  have hs : ∀ rest, Stops rest → ScansBefore (cs ++ rest) [c] [t] :=
    fun _ _ => scansBefore_symbol _ hc
  exact h.prepend hs

theorem Breaks.separator {c : Char} (h : Breaks cs) (hc : isSeparator c = true) :
    Breaks (c :: cs) := by
  have hs : ∀ rest, Stops rest → ScansBefore (cs ++ rest) [c] [] := fun _ _ => .separator _ hc
  exact h.prepend hs

theorem Breaks.after (h : Breaks cs') (hs : Spells cs ts)
    (hstop : ∀ rest, Stops rest → Stops (cs' ++ rest)) : Breaks (cs ++ cs') :=
  h.prepend fun rest hr => hs _ (hstop rest hr)

theorem Breaks.close (h : Breaks cs) : Breaks (cs ++ [')']) :=
  h.append fun _ _ => stops_cons (by decide) (by decide)

theorem Breaks.bracket (h : Breaks cs) (needed : Bool) : Breaks (bracket needed cs) := by
  cases needed with
  | false => exact h
  | true => exact h.close.symbol rfl

theorem Breaks.link {o : Operator} {os : List Operator} (h : Breaks cs) :
    Breaks (Node.linkText (o :: os) ++ cs) := by
  have hop : Breaks (o.symbol :: ' ' :: cs) := by
    have hs : ∀ rest, Stops rest → ScansBefore (' ' :: cs ++ rest) [o.symbol] [.operator o] :=
      fun rest _ => scansBefore_operator o (cs ++ rest)
    exact (h.separator rfl).prepend hs
  exact hop.separator rfl

/-- A blank text has no name in it. -/
theorem scanFrom_blank_ne {o o' : Nat} {name : List Char} (hb : cs.all isBlank = true) :
    scanFrom o cs ≠ .error (.malformed o' (.unknownName name)) := by
  induction cs generalizing o with
  | nil => simp [scanFrom]
  | cons c cs ih =>
      rw [List.all_cons, Bool.and_eq_true] at hb
      rw [scanFrom]
      by_cases hs : isSeparator c = true
      · rw [if_pos hs]
        exact ih hb.2
      · simp [hs, tokensOf_of_isBlank hb.1]

theorem Breaks.parse_eq (h : Breaks n.text) :
    ∃ o, parse n.toText = .error (.malformed o (.unknownName infinityName)) := by
  obtain ⟨o, ho⟩ := h [] stops_nil 0
  rw [List.append_nil] at ho
  have hb : ¬ n.text.all isBlank = true := fun hb => scanFrom_blank_ne hb ho
  refine ⟨o, ?_⟩
  rw [parse, Node.toText, String.toList_ofList, parseChars, if_neg hb, scan, ho]
  rfl

/-! ## Trees with an infinite constant -/

namespace Node

mutual

/-- The constants of a tree, from left to right. -/
def constants : Node → List Float
  | constant v => [v]
  | operand _ => []
  | negate n => n.constants
  | chain _ ns _ => constantsOf ns
  | apply _ ns => constantsOf ns

def constantsOf : List Node → List Float
  | [] => []
  | n :: ns => n.constants ++ constantsOf ns

end

mutual

theorem WellFormed.isPlain : (n : Node) → n.WellFormed → ∀ v ∈ n.constants, IsPlain v
  | .constant _, h => List.forall_mem_singleton.2 h
  | .operand _, _ => List.forall_mem_nil _
  | .negate n, h => WellFormed.isPlain n h
  | .chain _ ns _, h => AllWellFormed.isPlain ns h.2.2.2
  | .apply _ ns, h => AllWellFormed.isPlain ns h.2

theorem AllWellFormed.isPlain :
    (ns : List Node) → AllWellFormed ns → ∀ v ∈ constantsOf ns, IsPlain v
  | [], _ => List.forall_mem_nil _
  | n :: ns, h =>
      List.forall_mem_append.2 ⟨WellFormed.isPlain n h.1, AllWellFormed.isPlain ns h.2⟩

end

theorem allWellFormed_iff {ns : List Node} : AllWellFormed ns ↔ ∀ n ∈ ns, n.WellFormed := by
  induction ns with
  | nil => simp [AllWellFormed]
  | cons n ns ih => simp [AllWellFormed, ih]

end Node

variable {vs ws : List Float} {r : Rank} {ns : List Node} {os : List Operator} {op : Operation}

/-- Some of the constants is not finite, and the text with them breaks. -/
def Unreadable (vs : List Float) (cs : List Char) : Prop := (∃ v ∈ vs, ¬ IsPlain v) ∧ Breaks cs

/-- The first piece of a text that cannot be read, and whatever comes after it. -/
theorem unreadable_append {A B : Prop} (hstop : ∀ rest, Stops rest → Stops (cs' ++ rest))
    (h : A ∧ (∃ ts, Spells cs ts) ∨ Unreadable vs cs) (h' : B ∨ Unreadable ws cs') :
    (A ∧ B) ∨ Unreadable (vs ++ ws) (cs ++ cs') := by
  rcases h with ⟨ha, ts, hts⟩ | ⟨⟨v, hv, hi⟩, hb⟩
  · rcases h' with hb | ⟨⟨v, hv, hi⟩, hb⟩
    · exact .inl ⟨ha, hb⟩
    · exact .inr ⟨⟨v, List.mem_append_right vs hv, hi⟩, hb.after hts hstop⟩
  · exact .inr ⟨⟨v, List.mem_append_left ws hv, hi⟩, hb.append hstop⟩

namespace Node

/-- A tree that is well-formed, or whose text cannot be read. -/
def Settled (n : Node) : Prop := n.WellFormed ∨ Unreadable n.constants n.text

theorem Settled.spells (h : n.Settled) :
    n.WellFormed ∧ (∃ ts, Spells n.text ts) ∨ Unreadable n.constants n.text := by
  refine h.imp_left fun hn => ⟨hn, ?_⟩
  obtain ⟨a, ha, -⟩ := (hn.printed n).sum
  exact ⟨a.tokens, ha⟩

theorem Settled.spells_operand (h : n.Settled) (r : Rank) :
    n.WellFormed ∧ (∃ ts, Spells (bracket (n.needsBrackets r) n.text) ts) ∨
      Unreadable n.constants (bracket (n.needsBrackets r) n.text) := by
  refine h.imp (fun hn => ⟨hn, ?_⟩) (And.imp_right (·.bracket _))
  cases r with
  | sum =>
      obtain ⟨m, hm, -⟩ := (hn.printed n).product
      exact ⟨m.tokens, hm⟩
  | product =>
      obtain ⟨u, hu, -⟩ := (hn.printed n).unary
      exact ⟨u.tokens, hu⟩

theorem settled_textLinks (r : Rank) (hlen : os.length = ns.length) (h : ∀ n ∈ ns, n.Settled) :
    (∀ n ∈ ns, n.WellFormed) ∨ Unreadable (constantsOf ns) (textLinks r ns os) := by
  induction ns generalizing os with
  | nil => exact .inl (List.forall_mem_nil _)
  | cons n ns ih =>
      obtain ⟨o, os, rfl⟩ := List.exists_cons_of_length_eq_add_one hlen
      rw [List.forall_mem_cons] at h
      have happend := unreadable_append (fun _ => stops_textLinks r ns os)
        (h.1.spells_operand r) (ih (Nat.succ.inj hlen) h.2)
      rw [textLinks, List.append_assoc]
      exact happend.imp List.forall_mem_cons.2 (And.imp_right .link)

theorem settled_textArguments (h : ∀ n ∈ ns, n.Settled) :
    (∀ n ∈ ns, n.WellFormed) ∨ Unreadable (constantsOf ns) (textArguments ns) := by
  induction ns with
  | nil => exact .inl (List.forall_mem_nil _)
  | cons n ns ih =>
      rw [List.forall_mem_cons] at h
      have happend := unreadable_append (fun _ => stops_textArguments ns) h.1.spells (ih h.2)
      exact happend.imp List.forall_mem_cons.2
        (And.imp_right fun hb => (hb.separator rfl).symbol rfl)

theorem Settled.negate (h : n.Settled) : n.negate.Settled :=
  h.imp_right (And.imp_right fun hb => (hb.bracket _).symbol rfl)

theorem Settled.chain (htwo : 2 ≤ ns.length) (hlen : os.length + 1 = ns.length)
    (hos : ∀ o ∈ os, Rank.of o = r) (h : ∀ n ∈ ns, n.Settled) : (chain r ns os).Settled := by
  obtain ⟨n, ns, rfl⟩ := List.exists_cons_of_length_pos (Nat.lt_of_lt_of_le Nat.zero_lt_two htwo)
  rw [List.forall_mem_cons] at h
  have hlinks := settled_textLinks r (Nat.succ.inj hlen) h.2
  have happend := unreadable_append (fun _ => stops_textLinks r ns os) (h.1.spells_operand r) hlinks
  rw [Settled, Node.text]
  refine happend.imp_left fun hall => ⟨htwo, hlen, hos, ?_⟩
  exact allWellFormed_iff.2 (List.forall_mem_cons.2 hall)

theorem Settled.suffix (hop : op.family = .shape) (h : n.Settled) : (apply op [n]).Settled := by
  rw [Settled, Node.text, if_pos hop]
  refine h.imp (fun hn => ⟨by simp [hop], hn, trivial⟩) ?_
  rintro ⟨hv, hb⟩
  refine ⟨by simpa [constants, constantsOf] using hv, ?_⟩
  exact (hb.bracket _).append fun rest _ => stops_dot_letters op rest

theorem Settled.call (hop : op.family ≠ .shape) (hne : ns ≠ []) (h : ∀ n ∈ ns, n.Settled) :
    (apply op ns).Settled := by
  obtain ⟨n, ns, rfl⟩ := List.exists_cons_of_ne_nil hne
  rw [List.forall_mem_cons] at h
  have happend := unreadable_append (fun _ => stops_textArguments ns) h.1.spells
    (settled_textArguments h.2)
  have htext : (apply op (n :: ns)).text =
      op.letters ++ '(' :: (n.text ++ textArguments ns ++ [')']) := by
    cases ns with
    | nil => simp [Node.text, textArguments, hop]
    | cons m ns => simp [Node.text]
  rw [Settled, htext]
  refine happend.imp (fun hall => ⟨by simp [hop], ?_⟩) (And.imp_right fun hb => ?_)
  · exact allWellFormed_iff.2 (List.forall_mem_cons.2 hall)
  · have hin : Breaks ('(' :: (n.text ++ textArguments ns ++ [')'])) := hb.close.symbol rfl
    exact hin.after (spells_letters op) fun rest _ => stops_cons (by decide) (by decide)

mutual

theorem Readable.settled : (n : Node) → n.Readable → n.Settled
  | .constant v, h => by
      rcases h with hv | hv
      · exact .inl hv
      · have ht : (constant v).text = infinityName := plainText_of_isInfinite hv
        exact .inr ⟨⟨v, List.mem_singleton_self v, hv.not_isPlain⟩, ht ▸ breaks_infinityName⟩
  | .operand _, h => .inl h
  | .negate n, h => (Readable.settled n h).negate
  | .chain _ ns _, ⟨htwo, hlen, hos, h⟩ => .chain htwo hlen hos (AllReadable.settled ns h)
  | .apply op ns, ⟨hns, h⟩ => by
      have hs := AllReadable.settled ns h
      by_cases hop : op.family = .shape
      · rw [if_pos hop] at hns
        obtain ⟨n, rfl⟩ := List.length_eq_one_iff.1 hns
        exact .suffix hop (hs n (List.mem_singleton_self n))
      · rw [if_neg hop] at hns
        exact .call hop hns hs

theorem AllReadable.settled : (ns : List Node) → AllReadable ns → ∀ n ∈ ns, n.Settled
  | [], _ => List.forall_mem_nil _
  | n :: ns, ⟨h, hs⟩ => List.forall_mem_cons.2 ⟨Readable.settled n h, AllReadable.settled ns hs⟩

end

end Node

/-! ## Reading back -/

/-- A text whose tokens are a sentence is accepted with its tree, unless it nests too deeply. -/
theorem parseChars_of_sentence {ps : List Placed} (a : Additive) (hs : scan cs = .ok ps)
    (ha : a.tokens = ps.map Placed.token) :
    (a.nesting ≤ nestingLimit → parseChars cs = .ok a.tree) ∧
    (nestingLimit < a.nesting →
      ∃ o, parseChars cs = .error (.malformed o .nestedTooDeep)) := by
  have hb : ¬ cs.all isBlank = true := by
    intro hb
    obtain rfl := eq_nil_of_scan_blank hb hs
    exact a.tokens_ne_nil ha
  have hp : parseChars cs = parseTokens ps (bytes cs) := by
    rw [parseChars, if_neg hb, hs]
    rfl
  rw [hp]
  exact parseTokens_of_sentence (bytes cs) a ha.symm

theorem Node.WellFormed.parse_toText (h : n.WellFormed) :
    (n.openLevels ≤ nestingLimit → parse n.toText = .ok n) ∧
    (nestingLimit < n.openLevels →
      ∃ o, parse n.toText = .error (.malformed o .nestedTooDeep)) := by
  obtain ⟨ps, hs, a, ha, rfl, hk⟩ := h.sentence
  rw [← hk, parse, Node.toText, String.toList_ofList]
  exact parseChars_of_sentence a hs ha

theorem Node.Readable.wellFormed (h : n.Readable) (hp : ∀ v ∈ n.constants, IsPlain v) :
    n.WellFormed := by
  rcases h.settled n with hn | ⟨⟨v, hv, hi⟩, -⟩
  · exact hn
  · exact absurd (hp v hv) hi

theorem Node.Readable.breaks (h : n.Readable) (hi : ∃ v ∈ n.constants, ¬ IsPlain v) :
    Breaks n.text := by
  rcases h.settled n with hn | ⟨-, hb⟩
  · obtain ⟨v, hv, hi⟩ := hi
    exact absurd (hn.isPlain n v hv) hi
  · exact hb

/-- The text of a readable tree is read back exactly if every constant is finite and the text keeps
the limit. -/
theorem Node.Readable.parse_toText_iff (h : n.Readable) : parse n.toText = .ok n ↔
    (∀ v ∈ n.constants, IsPlain v) ∧ n.openLevels ≤ nestingLimit := by
  refine ⟨fun hp => ?_, fun ⟨hplain, hle⟩ => (h.wellFormed hplain).parse_toText.1 hle⟩
  have hplain : ∀ v ∈ n.constants, IsPlain v := by
    by_contra hi
    push Not at hi
    obtain ⟨o, ho⟩ := (h.breaks hi).parse_eq
    cases ho.symm.trans hp
  refine ⟨hplain, ?_⟩
  by_contra hlt
  obtain ⟨o, ho⟩ := (h.wellFormed hplain).parse_toText.2 (Nat.lt_of_not_le hlt)
  cases ho.symm.trans hp

/-! ## Calls around a text -/

def wrapCalls (op : Operation) (cs : List Char) : Nat → List Char
  | 0 => cs
  | k + 1 => op.letters ++ '(' :: (wrapCalls op cs k ++ [')'])

def applyTimes (op : Operation) (n : Node) : Nat → Node
  | 0 => n
  | k + 1 => .apply op [applyTimes op n k]

variable {j : Nat}

theorem spellsSum_wrapCalls (hop : op.family ≠ .shape) (h : SpellsSum cs n j) (k : Nat) :
    SpellsSum (wrapCalls op cs k) (applyTimes op n k) (j + k) := by
  induction k with
  | zero => exact h
  | succ k ih =>
      have hnil : ∃ a : Arguments, Spells [] a.tokens ∧ a.trees = [] ∧ a.nesting = 0 :=
        ⟨.nil, fun _ _ => .nil, rfl, rfl⟩
      have hcall := ih.call hnil (fun _ hr => hr) hop
      rw [List.append_nil, Nat.max_zero] at hcall
      exact hcall.unary.product.sum

theorem openLevels_applyTimes (hop : op.family ≠ .shape) (n : Node) (k : Nat) :
    (applyTimes op n k).openLevels = n.openLevels + k := by
  induction k with
  | zero => rfl
  | succ k ih => rw [applyTimes, Node.openLevels, if_neg hop, ih, Nat.add_assoc]

theorem SpellsSum.parse_eq (h : SpellsSum cs n j) (hj : j ≤ nestingLimit) :
    parse (String.ofList cs) = .ok n := by
  obtain ⟨a, ha, rfl, rfl⟩ := h
  obtain ⟨ps, hp, hs⟩ := (ha [] stops_nil).scan_eq
  rw [parse, String.toList_ofList]
  exact (parseChars_of_sentence a hs hp.symm).1 hj

/-! ## Accepted formulas -/

variable {formula : String}

/-- The canonical text of an accepted formula is read back to its tree exactly if every constant is
finite and the text keeps the limit on open levels. An infinite constant is refused as an unknown
name. The limit is only ever exceeded by one level, in a tree with a suffix behind a constant. -/
theorem parse_toText_of_parse (h : parse formula = .ok n) :
    (parse n.toText = .ok n ↔
      (∀ v ∈ n.constants, IsPlain v) ∧ n.openLevels ≤ nestingLimit) ∧
    ((∃ v ∈ n.constants, ¬ IsPlain v) →
      ∃ o, parse n.toText = .error (.malformed o (.unknownName infinityName))) ∧
    ((∀ v ∈ n.constants, IsPlain v) → nestingLimit < n.openLevels →
      n.openLevels = nestingLimit + 1 ∧ n.SuffixesConstant ∧
        ∃ o, parse n.toText = .error (.malformed o .nestedTooDeep)) := by
  obtain ⟨hread, hlevels, hsuffix⟩ := readable_of_parse h
  refine ⟨hread.parse_toText_iff, fun hi => (hread.breaks hi).parse_eq, ?_⟩
  intro hplain hlt
  have hs : n.SuffixesConstant := by
    by_contra hs
    exact absurd (hsuffix hs) (Nat.not_le.2 hlt)
  exact ⟨Nat.le_antisymm hlevels hlt, hs, (hread.wellFormed hplain).parse_toText.2 hlt⟩

/-- A literal past the range of doubles. -/
def hugeLiteral : List Char := '1' :: Decimal.zeros 400

theorem parse_toText_of_parse_hugeLiteral :
    ∃ v, parse (String.ofList hugeLiteral) = .ok (.constant v) ∧ ¬ IsPlain v ∧
      ∃ o, parse (Node.constant v).toText = .error (.malformed o (.unknownName infinityName)) := by
  have hl : IsLiteral hugeLiteral :=
    .whole (List.cons_ne_nil _ _) (List.forall_mem_cons.2 ⟨rfl, fun _ => Decimal.isDigit_zeros⟩)
  have hp := (spellsTerm_literal hl).unary.product.sum.parse_eq (Nat.zero_le _)
  have hi : ¬ IsPlain ((Decimal.ofLiteral hugeLiteral).toDouble false) :=
    not_isPlain_toDouble (by decide +kernel)
  exact ⟨_, hp, hi, (parse_toText_of_parse hp).2.1 ⟨_, List.mem_singleton_self _, hi⟩⟩

/-- As many calls as may be nested, around a suffix behind a constant. -/
def deepText : List Char := wrapCalls .sqrt ['1', '.', 'T'] nestingLimit

theorem deepText_not_read_back :
    ∃ n, parse (String.ofList deepText) = .ok n ∧ parse n.toText ≠ .ok n := by
  have hl : IsLiteral ['1'] := .whole (by decide) (List.all_eq_true.1 (by decide))
  have ht : Operation.transpose.family = .shape := rfl
  have hop : Operation.sqrt.family ≠ .shape := by decide
  have hs := spellsSum_wrapCalls hop ((spellsTerm_literal hl).suffix ht).unary.product.sum
  have hp := (hs nestingLimit).parse_eq (Nat.zero_add _).le
  refine ⟨_, hp, fun hback => ?_⟩
  have hlevels := ((readable_of_parse hp).1.parse_toText_iff.1 hback).2
  rw [openLevels_applyTimes hop] at hlevels
  exact absurd hlevels (by decide)

end TensorFormula
