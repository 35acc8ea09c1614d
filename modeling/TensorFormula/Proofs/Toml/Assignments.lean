import TensorFormula.Toml.Document

/-!
# Documents of plain assignments

A line that sets a bare key to a single word adds the key with the value of the word, and a document
of such lines with different keys is the table of them all.
-/

namespace TensorFormula.Toml

/-- A key without quotes. -/
def IsBare (k : Key) : Prop := k ≠ [] ∧ ∀ c ∈ k, isBareKey c = true

/-- A word without quotes and brackets. -/
def IsWord (w : List Char) : Prop := w ≠ [] ∧ ∀ c ∈ w, isWordPart c = true

/-- A line that sets a key to a word. -/
structure Assignment where
  key : Key
  word : List Char
  value : Value
  isBare : IsBare key
  isWord : IsWord word
  meaning : scalar? word = some value

namespace Assignment

variable (a : Assignment)

def line : List Char := a.key ++ " = ".toList ++ a.word ++ ['\n']

def entry : Key × Value := (a.key, a.value)

end Assignment

/-! ## Characters of keys and words -/

/-- Characters of which only one is in a class are different. -/
theorem ne_of_class {p : Char → Bool} {c d : Char} (h : p c = true) (hd : p d = false) : c ≠ d := by
  rintro rfl
  exact Bool.false_ne_true (hd.symm.trans h)

theorem skipBlank_of_class {p : Char → Bool} {c : Char} (h : p c = true) (hspace : p ' ' = false)
    (htab : p '\t' = false) (cs : List Char) : skipBlank (c :: cs) = c :: cs := by
  have hblank : isBlank c = false := by
    simp [isBlank, ne_of_class h hspace, ne_of_class h htab]
  exact List.dropWhile_cons_of_neg (by simp [hblank])

/-! ## Keys -/

variable {k : Key} {rest : List Char}

theorem readKeyPart_bare (h : IsBare k) :
    readKeyPart (k ++ ' ' :: rest) = some (k, ' ' :: rest) := by
  obtain ⟨c, cs, hc⟩ := List.exists_cons_of_ne_nil h.1
  have hbare : isBareKey c = true := h.2 c (by simp [hc])
  have htake : (k ++ ' ' :: rest).takeWhile isBareKey = k := by
    rw [List.takeWhile_append_of_pos h.2, List.takeWhile_cons_of_neg (by decide), List.append_nil]
  have hdrop : (k ++ ' ' :: rest).dropWhile isBareKey = ' ' :: rest := by
    rw [List.dropWhile_append_of_pos h.2, List.dropWhile_cons_of_neg (by decide)]
  unfold readKeyPart
  split
  · next heq =>
      rw [hc] at heq
      exact absurd (List.cons.inj heq).1 (ne_of_class hbare rfl)
  · next heq =>
      rw [hc] at heq
      exact absurd (List.cons.inj heq).1 (ne_of_class hbare rfl)
  · rw [htake, hdrop]
    exact if_neg (by simpa using h.1)

/-- A bare key before an equals sign is a path of its own. -/
theorem readPath_bare (h : IsBare k) :
    readPath (k ++ ' ' :: '=' :: rest) = some (([], k), '=' :: rest) := by
  obtain ⟨c, cs, hc⟩ := List.exists_cons_of_ne_nil h.1
  have hbare : isBareKey c = true := h.2 c (by simp [hc])
  have hskip : skipBlank (k ++ ' ' :: '=' :: rest) = k ++ ' ' :: '=' :: rest := by
    rw [hc]
    exact skipBlank_of_class hbare rfl rfl _
  have hkey : readKey (depthLimit - 1) (k ++ ' ' :: '=' :: rest) = some ([k], '=' :: rest) := by
    change readKey (78 + 1) _ = _
    rw [readKey, hskip, readKeyPart_bare h]
    rfl
  rw [readPath, hkey]
  rfl

/-! ## Values -/

theorem readScalar_word {w : List Char} (h : IsWord w) :
    readScalar (w ++ '\n' :: rest) = (scalar? w).map fun v => (v, '\n' :: rest) := by
  have htake : (w ++ '\n' :: rest).takeWhile isWordPart = w := by
    rw [List.takeWhile_append_of_pos h.2, List.takeWhile_cons_of_neg (by decide), List.append_nil]
  have hdrop : (w ++ '\n' :: rest).dropWhile isWordPart = '\n' :: rest := by
    rw [List.dropWhile_append_of_pos h.2, List.dropWhile_cons_of_neg (by decide)]
  unfold readScalar
  rw [htake, hdrop]
  rfl

theorem readValue_word {w : List Char} (h : IsWord w) (limit : Nat) :
    readValue (limit + 1) (w ++ '\n' :: rest) = (scalar? w).map fun v => (v, '\n' :: rest) := by
  obtain ⟨c, cs, hc⟩ := List.exists_cons_of_ne_nil h.1
  have hpart : isWordPart c = true := h.2 c (by simp [hc])
  rw [← readScalar_word h, hc, List.cons_append]
  unfold readValue
  split
  · next heq => exact absurd (List.cons.inj heq).1 (ne_of_class hpart rfl)
  · next heq => exact absurd (List.cons.inj heq).1 (ne_of_class hpart rfl)
  · next heq => exact absurd (List.cons.inj heq).1 (ne_of_class hpart rfl)
  · next heq => exact absurd (List.cons.inj heq).1 (ne_of_class hpart rfl)
  · rfl

/-! ## Lines -/

variable (a : Assignment)

theorem readPair_line (rest : List Char) :
    readPair (readValue depthLimit) (a.line ++ rest) = some (([], a.key, a.value), '\n' :: rest) := by
  obtain ⟨c, cs, hc⟩ := List.exists_cons_of_ne_nil a.isWord.1
  have hpart : isWordPart c = true := a.isWord.2 c (by simp [hc])
  have hskip : skipBlank (' ' :: (a.word ++ '\n' :: rest)) = a.word ++ '\n' :: rest := by
    rw [hc]
    exact skipBlank_of_class hpart rfl rfl _
  have htext : a.line ++ rest = a.key ++ ' ' :: '=' :: (' ' :: (a.word ++ '\n' :: rest)) := by
    simp [Assignment.line]
  have hvalue : readValue depthLimit (a.word ++ '\n' :: rest) = some (a.value, '\n' :: rest) := by
    rw [depthLimit, readValue_word a.isWord, a.meaning, Option.map_some]
  rw [htext, readPair, readPath_bare a.isBare]
  change (readValue depthLimit (skipBlank (' ' :: (a.word ++ '\n' :: rest)))).bind _ = _
  rw [hskip, hvalue]
  rfl

theorem readLine_line (rest : List Char) :
    readLine (a.line ++ rest) = some (.pair [] a.key a.value, '\n' :: rest) := by
  obtain ⟨c, cs, hc⟩ := List.exists_cons_of_ne_nil a.isBare.1
  have hbare : isBareKey c = true := a.isBare.2 c (by simp [hc])
  have hpair := readPair_line a rest
  obtain ⟨ds, htext⟩ : ∃ ds, a.line ++ rest = c :: ds := by
    rw [Assignment.line, hc]
    exact ⟨_, rfl⟩
  rw [htext] at hpair ⊢
  have hcomment : skipComment (c :: ds) = c :: ds := by
    unfold skipComment
    split
    · next heq => exact absurd (List.cons.inj heq).1 (ne_of_class hbare rfl)
    · rfl
  have hbreak : lineBreak? (c :: ds) = none := by
    unfold lineBreak?
    split
    · next heq => exact absurd (List.cons.inj heq).1 (ne_of_class hbare rfl)
    · next heq => exact absurd (List.cons.inj heq).1 (ne_of_class hbare rfl)
    · rfl
  unfold readLine
  rw [skipBlank_of_class hbare rfl rfl]
  split
  · next heq => exact absurd (List.cons.inj heq).1 (ne_of_class hbare rfl)
  · next heq => exact absurd (List.cons.inj heq).1 (ne_of_class hbare rfl)
  · rw [hcomment, hbreak, if_neg (by simp), hpair]
    rfl

/-! ## Documents -/

theorem insert_new {es : Entries} {k : Key} (v : Value) (h : k ∉ es.map Prod.fst) :
    es.insert k v [] = some (es ++ [(k, v)]) := by
  have hnone : es.find? k = none := by
    rw [Entries.find?, List.lookup_eq_none_iff]
    intro e he
    have hne : k ≠ e.1 := fun heq => h (heq ▸ List.mem_map_of_mem he)
    simpa using hne
  rw [Entries.insert, hnone]
  rfl

/-- A line with a new key adds its entry. -/
theorem readLines_line (es : Entries) (h : a.key ∉ es.map Prod.fst) (limit : Nat)
    (rest : List Char) : Document.readLines (limit + 1) ⟨es, none⟩ (a.line ++ rest) =
      Document.readLines limit ⟨es ++ [a.entry], none⟩ rest := by
  have hadd : Document.add ⟨es, none⟩ (.pair [] a.key a.value) =
      some ⟨es ++ [a.entry], none⟩ := by
    rw [Document.add]
    dsimp only
    rw [insert_new a.value h]
    rfl
  rw [Document.readLines, readLine_line]
  dsimp only [bind, Option.bind]
  rw [hadd]
  rfl

/-- Lines with new keys add their entries one after another. -/
theorem readLines_lines (es : Entries) (as : List Assignment)
    (h : (es.map Prod.fst ++ as.map Assignment.key).Nodup) (limit : Nat) :
    Document.readLines (limit + as.length + 1) ⟨es, none⟩ (as.flatMap Assignment.line) =
      some ⟨es ++ as.map Assignment.entry, none⟩ := by
  induction as generalizing es with
  | nil =>
      rw [List.map_nil, List.append_nil]
      rfl
  | cons a as ih =>
      have hnew : a.key ∉ es.map Prod.fst := fun hmem =>
        (List.nodup_append.1 h).2.2 _ hmem _ List.mem_cons_self rfl
      have hrest : ((es ++ [a.entry]).map Prod.fst ++ as.map Assignment.key).Nodup := by
        simpa [Assignment.entry] using h
      rw [List.flatMap_cons, readLines_line a es hnew, List.length_cons, ← Nat.add_assoc,
        ih _ hrest, List.map_cons, List.append_assoc, List.singleton_append]

theorem length_le_flatMap (as : List Assignment) :
    as.length ≤ (as.flatMap Assignment.line).length := by
  induction as with
  | nil => exact Nat.le_refl _
  | cons a as ih =>
      simp only [List.flatMap_cons, List.length_cons, List.length_append, Assignment.line]
      omega

/-- A document of lines with different keys is the table of their entries. -/
theorem read_lines {as : List Assignment} (h : (as.map Assignment.key).Nodup) :
    read (as.flatMap Assignment.line) = some (as.map Assignment.entry) := by
  obtain ⟨limit, hlimit⟩ := Nat.exists_eq_add_of_le' (length_le_flatMap as)
  have hread := readLines_lines [] as h limit
  have hmark : ∀ rest, as.flatMap Assignment.line ≠ '\ufeff' :: rest := by
    intro rest heq
    cases as with
    | nil => cases heq
    | cons a as =>
        obtain ⟨c, cs, hc⟩ := List.exists_cons_of_ne_nil a.isBare.1
        rw [List.flatMap_cons, Assignment.line, hc] at heq
        exact ne_of_class (a.isBare.2 c (by simp [hc])) rfl (List.cons.inj heq).1
  unfold read
  split
  · next heq => exact absurd heq (hmark _)
  · dsimp only
    rw [hlimit, hread]
    rfl

end TensorFormula.Toml
