import TensorFormula.Proofs.Json.Documents
import TensorFormula.Proofs.Memory.Runs

/-!
# Tensors that are written and read back

The text of a tensor is read as an object of its sizes and its elements, in which what is no finite
number has become `null`. A text is read as a tensor exactly if its value holds sizes and content
that belong together, in whatever order and among whatever else.
-/

namespace TensorFormula.Json

/-! ## The two parts of a value -/

/-- The value holds the two others: one after the other in an array, or under their keys in an
object, in any order and among entries with other keys. -/
inductive HasParts : Value → Value → Value → Prop
  | array (s c : Value) : HasParts (.array [s, c]) s c
  | object {entries others : List (List Nat × Value)} {k k' : List Nat} {s c : Value}
      (hentries : entries.Perm ((k, s) :: (k', c) :: others))
      (hk : textOf? k = some "sizes".toList) (hk' : textOf? k' = some "content".toList)
      (hothers : ∀ e ∈ others, ∃ key, textOf? e.1 = some key ∧
        key ≠ "sizes".toList ∧ key ≠ "content".toList) :
      HasParts (.object entries) s c

section Entries

variable {β γ : Type}

theorem map_filter_eq_singleton_iff {p : β → Bool} {f : β → γ} {l : List β} {v : γ} :
    (l.filter p).map f = [v] ↔
      ∃ x others, l.Perm (x :: others) ∧ p x = true ∧ f x = v ∧ ∀ y ∈ others, p y = false := by
  constructor
  · intro h
    obtain ⟨x, hx, rfl⟩ := List.map_eq_singleton_iff.1 h
    have hmem : x ∈ l.filter p := hx ▸ List.mem_singleton_self x
    refine ⟨x, l.filter fun y => !p y, ?_, List.of_mem_filter hmem, rfl, fun y hy => ?_⟩
    · have hperm := List.filter_append_perm p l
      rw [hx] at hperm
      exact hperm.symm
    · simpa using List.of_mem_filter hy
  · rintro ⟨x, others, hperm, hx, rfl, hothers⟩
    have hnone : others.filter p = [] :=
      List.filter_eq_nil_iff.2 fun y hy => by simp [hothers y hy]
    have hfilter := hperm.filter p
    rw [List.filter_cons_of_pos hx, hnone, List.perm_singleton] at hfilter
    rw [hfilter, List.map_singleton]

/-- A key of an object, if it is a text at all. -/
def keyed (e : List Nat × Value) : List Char × Value := ((textOf? e.1).getD [], e.2)

theorem mapM_keys_eq_some_iff {entries : List (List Nat × Value)} {es : List (List Char × Value)} :
    (entries.mapM fun e => (textOf? e.1).map fun key => (key, e.2)) = some es ↔
      (∀ e ∈ entries, ∃ key, textOf? e.1 = some key) ∧ es = entries.map keyed := by
  induction entries generalizing es with
  | nil => simp [eq_comm]
  | cons e entries ih =>
      cases hk : textOf? e.1 with
      | none => simp [hk]
      | some key =>
          have hkeyed : keyed e = (key, e.2) := by rw [keyed, hk, Option.getD_some]
          simp only [List.mapM_cons, hk, Option.map_some, Option.pure_def, Option.bind_eq_bind,
            Option.bind_some, Option.bind_eq_some_iff, ih, List.forall_mem_cons, List.map_cons,
            hkeyed, Option.some.injEq, exists_eq', true_and]
          constructor
          · rintro ⟨es', ⟨hall, rfl⟩, rfl⟩
            exact ⟨hall, rfl⟩
          · rintro ⟨hall, rfl⟩
            exact ⟨_, ⟨hall, rfl⟩, rfl⟩

theorem only?_keyed_eq_some_iff {entries : List (List Nat × Value)}
    (hall : ∀ e ∈ entries, ∃ key, textOf? e.1 = some key) {key : List Char} {v : Value} :
    only? key (entries.map keyed) = some v ↔
      (entries.filter fun e => textOf? e.1 == some key).map Prod.snd = [v] := by
  have hfilter : (entries.map keyed).filter (fun e => e.1 == key) =
      (entries.filter fun e => textOf? e.1 == some key).map keyed := by
    rw [List.filter_map]
    refine congrArg _ (List.filter_congr fun e he => ?_)
    obtain ⟨k, hk⟩ := hall e he
    simp [keyed, hk]
  rw [only?, hfilter]
  generalize entries.filter (fun e => textOf? e.1 == some key) = found
  match found with
  | [] => simp
  | [e] => simp [keyed]
  | e :: e' :: es => simp

theorem hasParts_of_parts? {entries : List (List Nat × Value)} {s c : Value}
    (h : parts? (.object entries) = some (s, c)) : HasParts (.object entries) s c := by
  rw [parts?] at h
  obtain ⟨es, hes, h⟩ := Option.bind_eq_some_iff.1 h
  obtain ⟨s', hs, h⟩ := Option.bind_eq_some_iff.1 h
  obtain ⟨c', hc, h⟩ := Option.bind_eq_some_iff.1 h
  obtain ⟨rfl, rfl⟩ := Prod.mk.inj (Option.some.inj h)
  obtain ⟨hall, rfl⟩ := mapM_keys_eq_some_iff.1 hes
  rw [only?_keyed_eq_some_iff hall] at hs hc
  obtain ⟨⟨k, s⟩, rest, hrest, hk, rfl, hne⟩ := map_filter_eq_singleton_iff.1 hs
  rw [beq_iff_eq] at hk
  -- the entry of the sizes is none of the content, which is therefore in the rest
  have hfilter := hrest.filter fun e => textOf? e.1 == some "content".toList
  rw [List.filter_cons_of_neg (by rw [hk]; decide)] at hfilter
  have hc := List.singleton_perm.1 (hc ▸ hfilter.map Prod.snd)
  obtain ⟨⟨k', c⟩, others, hothers, hk', rfl, hne'⟩ := map_filter_eq_singleton_iff.1 hc.symm
  refine .object (hrest.trans (hothers.cons _)) hk (beq_iff_eq.1 hk') fun e he => ?_
  have hmem : e ∈ rest := hothers.mem_iff.2 (List.mem_cons_of_mem _ he)
  obtain ⟨key, hkey⟩ := hall e (hrest.mem_iff.2 (List.mem_cons_of_mem _ hmem))
  have hsizes := hne e hmem
  have hcontent := hne' e he
  simp only [hkey, beq_eq_false_iff_ne, ne_eq, Option.some.injEq] at hsizes hcontent
  exact ⟨key, hkey, hsizes, hcontent⟩

theorem only?_of_perm {entries others : List (List Nat × Value)}
    (hall : ∀ e ∈ entries, ∃ key, textOf? e.1 = some key) {k : List Nat} {v : Value}
    (hentries : entries.Perm ((k, v) :: others)) {key : List Char} (hk : textOf? k = some key)
    (hothers : ∀ e ∈ others, textOf? e.1 ≠ some key) : only? key (entries.map keyed) = some v := by
  rw [only?_keyed_eq_some_iff hall, map_filter_eq_singleton_iff]
  exact ⟨(k, v), others, hentries, beq_iff_eq.2 hk, rfl, fun e he => beq_false_of_ne (hothers e he)⟩

theorem HasParts.parts? {v s c : Value} (h : HasParts v s c) : parts? v = some (s, c) := by
  cases h with
  | array => rfl
  | @object entries others k k' _ _ hentries hk hk' hothers =>
      have hall : ∀ e ∈ entries, ∃ key, textOf? e.1 = some key := by
        intro e he
        obtain rfl | he := List.mem_cons.1 (hentries.mem_iff.1 he)
        · exact ⟨_, hk⟩
        obtain rfl | he := List.mem_cons.1 he
        · exact ⟨_, hk'⟩
        obtain ⟨key, hkey, -⟩ := hothers e he
        exact ⟨key, hkey⟩
      have hsizes : only? "sizes".toList (entries.map keyed) = some s := by
        refine only?_of_perm hall hentries hk (List.forall_mem_cons.2 ⟨?_, fun e he => ?_⟩)
        · rw [hk']
          decide
        · obtain ⟨key, hkey, hne, -⟩ := hothers e he
          simpa [hkey] using hne
      have hcontent : only? "content".toList (entries.map keyed) = some c := by
        refine only?_of_perm hall (hentries.trans (.swap ..)) hk'
          (List.forall_mem_cons.2 ⟨?_, fun e he => ?_⟩)
        · rw [hk]
          decide
        · obtain ⟨key, hkey, -, hne⟩ := hothers e he
          simpa [hkey] using hne
      rw [Json.parts?, mapM_keys_eq_some_iff.2 ⟨hall, rfl⟩]
      simp only [Option.bind_eq_bind, Option.bind_some, hsizes, hcontent]

theorem parts?_eq_some_iff {v s c : Value} : parts? v = some (s, c) ↔ HasParts v s c := by
  refine ⟨fun h => ?_, HasParts.parts?⟩
  cases v with
  | null | boolean _ | number _ | string _ => cases h
  | array items =>
      match items with
      | [s', c'] =>
          obtain ⟨rfl, rfl⟩ := Prod.mk.inj (Option.some.inj h)
          exact .array _ _
      | [] | [_] | _ :: _ :: _ :: _ => cases h
  | object entries => exact hasParts_of_parts? h

end Entries

/-! ## Texts that make a tensor -/

section Reading

variable {α : Type}

theorem orMalformed_bind_eq_ok_iff {β γ : Type} {o : Option β} {f : β → Except Fault γ} {x : γ} :
    (orMalformed o >>= f) = .ok x ↔ ∃ b, o = some b ∧ f b = .ok x := by
  cases o with
  | none => simp [orMalformed, bind, Except.bind]
  | some b => simp [orMalformed, bind, Except.bind]

theorem requireEnd_bind_eq_ok_iff {r : Except Fault (Tensor α)} {rest : List Char} {t : Tensor α} :
    (r >>= fun u => requireEnd rest >>= fun _ => .ok u) = .ok t ↔ r = .ok t ∧ skip rest = [] := by
  cases r with
  | error f => simp [bind, Except.bind]
  | ok u =>
      by_cases h : skip rest = []
      · simp [bind, Except.bind, requireEnd, h]
      · simp [bind, Except.bind, requireEnd, h]

theorem makeTensor_eq_ok_iff {sizes : List Nat} {content : List α} {t : Tensor α} :
    makeTensor sizes content = .ok t ↔ t.shape.dims = sizes ∧ t.content.toList = content := by
  rw [makeTensor, Tensor.ofArray]
  constructor
  · intro h
    split at h
    · next u hu =>
        obtain rfl := Except.ok.inj h
        split at hu
        · split at hu
          · obtain rfl := Except.ok.inj hu
            exact ⟨rfl, rfl⟩
          · cases hu
        · cases hu
    · cases h
  · rintro ⟨rfl, rfl⟩
    rw [dif_pos t.valid, dif_pos t.size_content]

variable [Element α]

/-- A value with nothing but blanks after it that holds these sizes and these elements. -/
def Describes (cs : List Char) (sizes : List Nat) (content : List α) : Prop :=
  ∃ v rest s c, read cs = some (v, rest) ∧ skip rest = [] ∧ HasParts v s c ∧
    sizesOf? s = some sizes ∧ contentOf? c = some content

/-- A text is read as a tensor exactly if it describes its sizes and elements. -/
theorem readTensor_eq_ok_iff {cs : List Char} {t : Tensor α} :
    readTensor cs = .ok t ↔ Describes cs t.shape.dims t.content.toList := by
  rw [readTensor]
  simp only [orMalformed_bind_eq_ok_iff, requireEnd_bind_eq_ok_iff, makeTensor_eq_ok_iff,
    Prod.exists, parts?_eq_some_iff]
  constructor
  · rintro ⟨v, rest, hread, s, c, hparts, sizes, hs, content, hc, ⟨rfl, rfl⟩, hend⟩
    exact ⟨v, rest, s, c, hread, hend, hparts, hs, hc⟩
  · rintro ⟨v, rest, s, c, hread, hend, hparts, hs, hc⟩
    exact ⟨v, rest, hread, s, c, hparts, _, hs, _, hc, ⟨rfl, rfl⟩, hend⟩

theorem readBlock_of_describes {cs : List Char} {sizes : List Nat} {content : List α}
    (h : Describes cs sizes content) :
    Memory.readBlock cs = (Block.ofArray sizes content.toArray).mapError (Stop.map .tensor) := by
  obtain ⟨v, rest, s, c, hread, hend, hparts, hs, hc⟩ := h
  have hrequire : requireEnd rest = .ok () := if_pos hend
  simp only [Memory.readBlock, hread, hparts.parts?, hs, hc, hrequire, orMalformed, Block.told_ok,
    id, bind, Except.bind]
  cases Block.ofArray sizes content.toArray <;> rfl

/-- A text is read into memory exactly if it describes a block that is sound and whose product of
sizes fits. -/
theorem readBlock_eq_ok_iff {cs : List Char} {b : Block α} :
    Memory.readBlock cs = .ok b ↔
      Describes cs b.sizes b.buffer.toList ∧ b.Sound ∧ Shape.volume b.sizes < Nat.pow 2 64 := by
  constructor
  · intro h
    obtain hoversize | htold := Memory.readBlock_follows cs (α := α)
    · cases h.symm.trans hoversize
    cases ht : readTensor (α := α) cs with
    | error f => cases (h.symm.trans htold).trans (congrArg _ ht)
    | ok t =>
        rw [ht, Block.told_ok] at htold
        obtain rfl : b = t.block := Except.ok.inj (h.symm.trans htold)
        have hdescribes := readTensor_eq_ok_iff.1 ht
        have hmake := (readBlock_of_describes hdescribes).symm.trans h
        refine ⟨hdescribes, (Block.sound_iff _).2 ⟨t, rfl⟩, ?_⟩
        cases hb : Block.ofArray t.shape.dims t.content with
        | error e =>
            rw [Array.toArray_toList, hb] at hmake
            cases hmake
        | ok b => exact (Block.ofArray_eq_ok_iff.1 hb).2.2
  · rintro ⟨hdescribes, hsound, hlt⟩
    rw [readBlock_of_describes hdescribes, Block.ofArray_eq_ok_iff.2 ⟨rfl, hsound, hlt⟩]
    rfl

end Reading

/-! ## Written elements -/

section Writing

variable {α : Type} [Element α]

/-- The text of an element, read as a number, stands for the same element. -/
def ReadsBack (x : α) : Prop :=
  ∃ l, readNumber (elementText x) = some (.number l, []) ∧ l.toElement? = some x

/-- The value that the text of an element is read as. -/
def elementValue (x : α) : Value := (readNumber (elementText x)).elim .null Prod.fst

def elementOf? : Value → Option α
  | .number l => l.toElement?
  | _ => none

theorem readsAs_elementText (limit : Nat) (x : α) :
    ReadsAs (limit + 1) (elementText x) (elementValue x) := by
  by_cases h : Element.IsFinite x
  · obtain ⟨l, hl, ht⟩ := exists_literal h
    have hread := hl.spells.readNumber_append ends_nil
    rw [List.append_nil] at hread
    rw [elementValue, ht, hread]
    exact hl.spells.readsAs limit
  · rw [elementValue, elementText_of_not_isFinite h]
    exact readsAs_null limit

theorem elementOf?_elementValue {x : α} (h : ReadsBack x) :
    elementOf? (elementValue x) = some x := by
  obtain ⟨l, hread, hl⟩ := h
  rw [elementValue, hread]
  exact hl

theorem readsBack_of_elementOf? {x : α} (hx : Element.IsFinite x)
    (h : elementOf? (elementValue x) = some x) : ReadsBack x := by
  obtain ⟨l, hl, ht⟩ := exists_literal hx
  have hread := hl.spells.readNumber_append ends_nil
  rw [List.append_nil, ← ht] at hread
  rw [elementValue, hread] at h
  exact ⟨l, hread, h⟩

theorem elementOf?_of_not_isFinite {x : α} (h : ¬ Element.IsFinite x) :
    elementOf? (elementValue x) = (none : Option α) := by
  rw [elementValue, elementText_of_not_isFinite h]
  rfl

theorem mapM_map_eq_some {β : Type} {f : β → Value} {g : Value → Option β} {xs : List β}
    (h : ∀ x ∈ xs, g (f x) = some x) : (xs.map f).mapM g = some xs := by
  induction xs with
  | nil => rfl
  | cons x xs ih =>
      rw [List.forall_mem_cons] at h
      rw [List.map_cons, List.mapM_cons, h.1, ih h.2]
      rfl

theorem contentOf?_elementValues {xs : List α} (h : ∀ x ∈ xs, ReadsBack x) :
    contentOf? (.array (xs.map elementValue)) = some xs :=
  mapM_map_eq_some fun x hx => elementOf?_elementValue (h x hx)

/-- An array with a `null` in it has no content. -/
theorem isFinite_of_contentOf? {xs ys : List α}
    (h : contentOf? (.array (xs.map elementValue)) = some ys) : ∀ x ∈ xs, Element.IsFinite x := by
  change (xs.map elementValue).mapM elementOf? = some ys at h
  induction xs generalizing ys with
  | nil => nofun
  | cons x xs ih =>
      rw [List.map_cons, List.mapM_cons] at h
      obtain ⟨y, hy, h⟩ := Option.bind_eq_some_iff.1 h
      obtain ⟨ys', hys, -⟩ := Option.bind_eq_some_iff.1 h
      refine List.forall_mem_cons.2 ⟨?_, ih hys⟩
      by_contra hx
      rw [elementOf?_of_not_isFinite hx] at hy
      cases hy

theorem sizesOf?_ofNat {ds : List Nat} (h : ∀ d ∈ ds, d < Nat.pow 2 64) :
    sizesOf? (.array (ds.map fun d => .number (.ofNat d))) = some ds :=
  mapM_map_eq_some fun d hd => Literal.toSize?_ofNat (h d hd)

/-! ## Written tensors -/

theorem length_le_separated (gap : List Char) (texts : List (List Char)) :
    texts.length ≤ (separated (',' :: gap) texts).length + 1 := by
  fun_induction separated (',' :: gap) texts with
  | case1 | case2 => simp
  | case3 text texts _ ih =>
      simp only [List.length_cons, List.length_append]
      omega

variable (t : Tensor α)

def sizesValue : Value := .array (t.shape.dims.map fun d => .number (.ofNat d))

def contentValue : Value := .array (t.content.toList.map elementValue)

/-- The value that the texts of a tensor are read as. -/
def document : Value :=
  .object [(units "sizes".toList, sizesValue t), (units "content".toList, contentValue t)]

theorem hasParts_document : HasParts (document t) (sizesValue t) (contentValue t) :=
  .object (.refl _) (by decide) (by decide) nofun

omit [Element α] in
theorem readsAs_sizes (b : Spacing) {limit : Nat} (h : (sizeTexts t).length ≤ limit + 1) :
    ReadsAs (limit + 2) (b.array (sizeTexts t)) (sizesValue t) := by
  refine .array b ?_ (by simpa [sizeTexts] using t.valid.1) h
  rw [sizeTexts, List.forall₂_map_left_iff, List.forall₂_map_right_iff, List.forall₂_same]
  intro d _
  rw [← Literal.spelling_ofNat]
  exact (Literal.wellFormed_ofNat d).spells.readsAs limit

theorem readsAs_content (b : Spacing) {limit : Nat} (h : (contentTexts t).length ≤ limit + 1) :
    ReadsAs (limit + 2) (b.array (contentTexts t)) (contentValue t) := by
  have hne : contentTexts t ≠ [] := by
    have hpos := t.content_pos
    simpa [contentTexts] using Nat.ne_of_gt hpos
  refine .array b ?_ hne h
  rw [contentTexts, List.forall₂_map_left_iff, List.forall₂_map_right_iff, List.forall₂_same]
  exact fun x _ => readsAs_elementText limit x

theorem read_pair (outer inner : Spacing) (gap : List Char) (hgap : IsBlank gap)
    {rest : List Char} (hr : Ends rest) :
    read (outer.pair (entryText "sizes".toList gap (inner.array (sizeTexts t)))
      (entryText "content".toList gap (inner.array (contentTexts t))) ++ rest) =
      some (document t, rest) := by
  set text := outer.pair (entryText "sizes".toList gap (inner.array (sizeTexts t)))
    (entryText "content".toList gap (inner.array (contentTexts t))) with htext
  -- a text is longer than its parts are many, so the limit is never reached
  have hlength : (sizeTexts t).length + (contentTexts t).length + 2 ≤ (text ++ rest).length := by
    have hs := length_le_separated inner.gap (sizeTexts t)
    have hc := length_le_separated inner.gap (contentTexts t)
    simp only [htext, Spacing.pair, entryText, Spacing.array, List.length_cons, List.length_append]
    omega
  obtain ⟨limit, hlimit⟩ : ∃ limit, (text ++ rest).length = limit + 2 :=
    ⟨(text ++ rest).length - 2, by omega⟩
  have hsizes : ReadsAs (limit + 2) _ (sizesValue t) := readsAs_sizes t inner (by omega)
  have hcontent : ReadsAs (limit + 2) _ (contentValue t) := readsAs_content t inner (by omega)
  have hverbatim : (∀ c ∈ "sizes".toList, IsVerbatim c) ∧ ∀ c ∈ "content".toList, IsVerbatim c := by
    simp [IsVerbatim]
  rw [read, hlimit]
  exact ReadsAs.object outer hgap hverbatim.1 hverbatim.2 hsizes hcontent rest hr

/-- A written tensor is read as its document, whatever follows it. -/
theorem read_compact {rest : List Char} (hr : Ends rest) :
    read (compact t ++ rest) = some (document t, rest) := by
  have htext : compact t = Spacing.none.pair
      (entryText "sizes".toList [] (Spacing.none.array (sizeTexts t)))
      (entryText "content".toList [] (Spacing.none.array (contentTexts t))) := by
    unfold compact
    simp [compactArray, Spacing.pair, Spacing.array, Spacing.none, entryText]
  rw [htext, read_pair t .none .none [] (List.forall_mem_nil _) hr]

theorem read_pretty {rest : List Char} (hr : Ends rest) :
    read (pretty t ++ rest) = some (document t, rest) := by
  have htext : pretty t = (Spacing.lines 1).pair
      (entryText "sizes".toList [' '] ((Spacing.lines 2).array (sizeTexts t)))
      (entryText "content".toList [' '] ((Spacing.lines 2).array (contentTexts t))) := by
    unfold pretty prettyArray
    simp [Spacing.pair, Spacing.array, Spacing.lines, entryText, List.replicate_succ]
  rw [htext, read_pair t (.lines 1) (.lines 2) [' '] (List.forall_mem_singleton.2 rfl) hr]

variable {t}

theorem describes_iff_of_read {text rest : List Char} (h : read text = some (document t, rest))
    (hrest : skip rest = []) {sizes : List Nat} {content : List α} :
    Describes text sizes content ↔
      sizesOf? (sizesValue t) = some sizes ∧ contentOf? (contentValue t) = some content := by
  constructor
  · rintro ⟨v, rest, s, c, hread, -, hparts, hs, hc⟩
    obtain ⟨rfl, rfl⟩ := Prod.mk.inj (Option.some.inj (h.symm.trans hread))
    obtain ⟨rfl, rfl⟩ :=
      Prod.mk.inj (Option.some.inj ((hasParts_document t).parts?.symm.trans hparts.parts?))
    exact ⟨hs, hc⟩
  · rintro ⟨hs, hc⟩
    exact ⟨_, _, _, _, h, hrest, hasParts_document t, hs, hc⟩

/-- A text that is read as the document of a tensor is read as that tensor if it has a `null`
nowhere, and as none otherwise. -/
theorem readTensor_document {text rest : List Char} (h : read text = some (document t, rest))
    (hrest : skip rest = []) (hsizes : ∀ d ∈ t.shape.dims, d < Nat.pow 2 64)
    (hback : ∀ x ∈ t.content, Element.IsFinite x → ReadsBack x) :
    ((∃ u : Tensor α, readTensor text = .ok u) ↔ ∀ x ∈ t.content, Element.IsFinite x) ∧
      ∀ u : Tensor α, readTensor text = .ok u → u = t := by
  have hfinite : ∀ {u : Tensor α}, readTensor text = .ok u →
      ∀ x ∈ t.content, Element.IsFinite x := by
    intro u hu x hx
    rw [readTensor_eq_ok_iff, describes_iff_of_read h hrest] at hu
    exact isFinite_of_contentOf? hu.2 x (Array.mem_toList_iff.2 hx)
  have hself : (∀ x ∈ t.content, Element.IsFinite x) → readTensor text = .ok t := by
    intro hall
    rw [readTensor_eq_ok_iff, describes_iff_of_read h hrest]
    refine ⟨sizesOf?_ofNat hsizes, contentOf?_elementValues fun x hx => ?_⟩
    have hmem := Array.mem_toList_iff.1 hx
    exact hback x hmem (hall x hmem)
  refine ⟨⟨fun ⟨u, hu⟩ => hfinite hu, fun hall => ⟨t, hself hall⟩⟩, fun u hu => ?_⟩
  exact Except.ok.inj (hu.symm.trans (hself (hfinite hu)))

/-- Where finite numbers are read back from their texts, exactly the tensors of finite elements are
read back from theirs, each as it was. A text that is read holds sizes and elements that belong
together, in whatever order and among whatever else. -/
theorem written_tensors_read_back (t : Tensor α) (hsizes : ∀ d ∈ t.shape.dims, d < Nat.pow 2 64)
    (hback : ∀ x ∈ t.content, Element.IsFinite x → ReadsBack x) :
    (∀ text ∈ [compact t, pretty t],
      ((∃ u : Tensor α, readTensor text = .ok u) ↔ ∀ x ∈ t.content, Element.IsFinite x) ∧
        ∀ u : Tensor α, readTensor text = .ok u → u = t) ∧
    (∀ x : α, ¬ Element.IsFinite x → elementText x = "null".toList) ∧
    ∀ (cs : List Char) (b : Block α), Memory.readBlock cs = .ok b ↔
      Describes cs b.sizes b.buffer.toList ∧ b.Sound ∧
        Shape.volume b.sizes < Nat.pow 2 64 := by
  refine ⟨fun text htext => ?_, fun _ => elementText_of_not_isFinite, fun _ _ =>
    readBlock_eq_ok_iff⟩
  have hread : read text = some (document t, []) := by
    rw [← List.append_nil text]
    obtain rfl | rfl := by simpa using htext
    · exact read_compact t ends_nil
    · exact read_pretty t ends_nil
  exact readTensor_document hread rfl hsizes hback

end Writing

/-- Two doubles that a text holds exactly. -/
def finiteRow : Tensor Float := ⟨.vector 2, #[0.1, -2.5], by decide, rfl⟩

/-- A single and an infinity. -/
def infiniteRow : Tensor Float32 := ⟨.vector 2, #[0.1, Arithmetic.infinity], by decide, rfl⟩

theorem written_tensors_read_back_rows :
    ((∀ x ∈ finiteRow.content, Element.IsFinite x → ReadsBack x) ∧
      readTensor (compact finiteRow) = .ok finiteRow) ∧
    (∀ x ∈ infiniteRow.content, Element.IsFinite x → ReadsBack x) ∧
      ∀ u : Tensor Float32, readTensor (pretty infiniteRow) ≠ .ok u := by
  have hfinite : ∀ x ∈ finiteRow.content, Element.IsFinite x → ReadsBack x := by
    have h : ∀ x ∈ finiteRow.content.toList, elementOf? (elementValue x) = some x := by
      decide +kernel
    exact fun x hx hx' => readsBack_of_elementOf? hx' (h x (Array.mem_toList_iff.2 hx))
  have hinfinite : ∀ x ∈ infiniteRow.content, Element.IsFinite x → ReadsBack x := by
    have h : ∀ x ∈ infiniteRow.content.toList, Element.IsFinite x →
        elementOf? (elementValue x) = some x := by
      decide +kernel
    exact fun x hx hx' => readsBack_of_elementOf? hx' (h x (Array.mem_toList_iff.2 hx) hx')
  refine ⟨⟨hfinite, ?_⟩, hinfinite, fun u hu => ?_⟩
  · obtain ⟨hiff, hsame⟩ :=
      (written_tensors_read_back finiteRow (by decide) hfinite).1 (compact finiteRow) (by simp)
    have hall : ∀ x ∈ finiteRow.content.toList, Element.IsFinite x := by decide +kernel
    obtain ⟨u, hu⟩ := hiff.2 fun x hx => hall x (Array.mem_toList_iff.2 hx)
    rw [hu, hsame u hu]
  · obtain ⟨hiff, -⟩ :=
      (written_tensors_read_back infiniteRow (by decide) hinfinite).1 (pretty infiniteRow) (by simp)
    have hnot : ¬ Element.IsFinite (Arithmetic.infinity : Float32) := by decide +kernel
    exact hnot (hiff.1 ⟨u, hu⟩ _ (by simp [infiniteRow]))

end TensorFormula.Json
