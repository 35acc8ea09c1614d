import TensorFormula.Command.Run
import TensorFormula.Proofs.Json.WrittenTensors
import TensorFormula.Proofs.Steps

/-!
# Texts that give a tensor

A tensor is loaded from its text alone, whether an argument is the text or names the file with the
text. A text that is an array of numbers is loaded as the vector of them: the bracket that tells
arrays from other texts is found behind the blanks that a reader skips. Any other text is loaded as
the tensor whose sizes and elements it describes.
-/

namespace TensorFormula

namespace Json

/-! ## Arrays of numbers -/

variable {α : Type} [Element α]

/-- A number that is read as the element. -/
def IsNumberOf (text : List Char) (x : α) : Prop :=
  ∃ l : Literal, l.Spells text ∧ l.toElement? = some x

/-- A whole number of 64 bits is the element nearest to it. -/
theorem isNumberOf_toDigits {n : Nat} (h : n < Nat.pow 2 64) :
    IsNumberOf (Nat.toDigits 10 n) (Element.ofInt n : α) := by
  refine ⟨.ofNat n, ?_, ?_⟩
  · have hspells := (Literal.wellFormed_ofNat n).spells
    rwa [Literal.spelling_ofNat] at hspells
  · have hn : (Literal.ofNat n).integer? = some n := by
      simp [Literal.integer?, Literal.ofNat, Nat.ofDigitChars_ten_toDigits]
    have hpositive : ¬ (Literal.ofNat n).negative = true := Bool.false_ne_true
    rw [Literal.toElement?, hn]
    exact if_pos ⟨hpositive, h⟩

/-- An array of numbers that are read as the elements, at least one, with blanks wherever a text may
have them. -/
def IsArrayOf (text : List Char) (xs : List α) : Prop :=
  ∃ before items after, IsBlank before ∧ Items IsNumberOf items xs ∧ IsBlank after ∧
    text = before ++ '[' :: (items ++ ']' :: after)

theorem Items.exists_values {items : List Char} {xs : List α} (h : Items IsNumberOf items xs)
    (limit : Nat) : ∃ vs : List Value,
      Items (ReadsAs (limit + 1)) items vs ∧ vs.mapM elementOf? = some xs := by
  induction h with
  | @last before text after x hb hx ha =>
      obtain ⟨l, hl, hx⟩ := hx
      refine ⟨[.number l], .last hb (hl.readsAs limit) ha, ?_⟩
      rw [List.mapM_cons, elementOf?, hx]
      rfl
  | @more before text after cs x xs hb hx ha _ ih =>
      obtain ⟨l, hl, hx⟩ := hx
      obtain ⟨vs, hvs, hxs⟩ := ih
      refine ⟨.number l :: vs, .more hb (hl.readsAs limit) ha hvs, ?_⟩
      rw [List.mapM_cons, elementOf?, hx, hxs]
      rfl

theorem IsArrayOf.ne_nil {text : List Char} {xs : List α} (h : IsArrayOf text xs) : xs ≠ [] := by
  obtain ⟨_, _, _, -, hitems, -⟩ := h
  cases hitems <;> exact List.cons_ne_nil _ _

theorem IsArrayOf.exists_read {text : List Char} {xs : List α} (h : IsArrayOf text xs) :
    ∃ vs rest, read text = some (.array vs, rest) ∧ vs.mapM elementOf? = some xs ∧
      IsBlank rest := by
  obtain ⟨before, items, after, hb, hitems, ha, rfl⟩ := h
  obtain ⟨vs, hvs, hxs⟩ := hitems.exists_values (before.length + items.length + after.length + 1)
  have hlength : (before ++ '[' :: (items ++ ']' :: after)).length =
      before.length + items.length + after.length + 2 := by
    simp only [List.length_append, List.length_cons]
    omega
  -- a text is longer than its items are many, so the limit is never reached
  have hlimit : vs.length ≤ before.length + items.length + after.length + 2 := by
    have := hvs.length_le
    omega
  have hends : Ends after := by
    rw [← List.append_nil after]
    exact ends_append ha ends_nil
  have harray := hvs.readsAs hlimit after hends
  refine ⟨vs, after, ?_, hxs, ha⟩
  rw [read, hlength, readValue_append hb]
  simpa using harray

theorem requireEnd_of_isBlank {rest : List Char} (h : IsBlank rest) : requireEnd rest = .ok () := by
  have hskip := skip_append h []
  rw [List.append_nil] at hskip
  exact if_pos hskip

theorem IsArrayOf.readNumbers {text : List Char} {xs : List α} (h : IsArrayOf text xs) :
    readNumbers text = .ok xs := by
  obtain ⟨vs, rest, hread, hxs, hrest⟩ := h.exists_read
  rw [Json.readNumbers, hread]
  change (orMalformed (vs.mapM elementOf?)).bind _ = _
  rw [hxs]
  change (requireEnd rest).bind _ = _
  rw [requireEnd_of_isBlank hrest]
  rfl

/-- What a reader skips is blank. -/
theorem isBlank_of_isSpace {c : Char} (h : isSpace c = true) : Text.isBlank c = true := by
  simp only [isSpace, Bool.or_eq_true, beq_iff_eq] at h
  obtain ((rfl | rfl) | rfl) | rfl := h <;> decide

theorem IsArrayOf.head? {text : List Char} {xs : List α} (h : IsArrayOf text xs) :
    (text.dropWhile Text.isBlank).head? = some '[' := by
  obtain ⟨before, items, after, hb, -, -, rfl⟩ := h
  rw [List.dropWhile_append_of_pos fun c hc => isBlank_of_isSpace (hb c hc),
    List.dropWhile_cons_of_neg (by decide)]
  rfl

end Json

namespace Command

variable {α : Type} [Element α]

/-- The text of an array gives the vector of its numbers. -/
theorem exists_readTensor_array {text : List Char} {xs : List α} (h : Json.IsArrayOf text xs) :
    ∃ t : Tensor α, readTensor text = .ok t ∧ t.shape.dims = [xs.length] ∧
      t.content.toList = xs := by
  have hvalid : (Shape.vector xs.length).Valid :=
    Shape.valid_vector_iff.2 (List.length_pos_iff.2 h.ne_nil)
  have hsize : xs.toArray.size = (Shape.vector xs.length).count := by
    rw [Shape.count_vector, List.size_toArray]
  refine ⟨⟨.vector xs.length, xs.toArray, hvalid, hsize⟩, ?_, rfl, rfl⟩
  rw [readTensor, if_pos h.head?, h.readNumbers]
  dsimp only
  rw [Tensor.ofArray, dif_pos hvalid, dif_pos hsize]
  rfl

/-- Any other text gives the tensor that it describes. -/
theorem readTensor_eq_ok_iff {text : List Char} {t : Tensor α}
    (h : (text.dropWhile Text.isBlank).head? ≠ some '[') :
    readTensor text = .ok t ↔ Json.Describes text t.shape.dims t.content.toList := by
  rw [readTensor, if_neg h, mapError_eq_ok_iff, Json.readTensor_eq_ok_iff]

/-! ## Arguments -/

/-- The argument gives the text of a tensor: it is the text itself, which does not start with an at
sign, or an at sign and the path of a file with the text. -/
inductive Gives (files : Files) : String → String → Prop
  | inline {text : String} (h : text.toList.head? ≠ some '@') : Gives files text text
  | file {path text : String} (h : files path = .ok text) : Gives files ("@" ++ path) text

/-- What loading an argument comes to: what its text is read as, or that there is no text. -/
inductive Loads (files : Files) : String → Except LoadFault (Tensor α) → Prop
  | text {argument text : String} (h : Gives files argument text) :
      Loads files argument (readTensor text.toList)
  | unreadable {path reason : String} (h : files path = .error reason) :
      Loads files ("@" ++ path) (.error (.unreadable path reason))

theorem path?_of_head?_ne {text : String} (h : text.toList.head? ≠ some '@') :
    path? text = none := by
  unfold path?
  split
  · next heq =>
      rw [heq] at h
      exact absurd rfl h
  · rfl

theorem path?_at (path : String) : path? ("@" ++ path) = some path := by
  have htext : ("@" ++ path).toList = '@' :: path.toList := by simp
  unfold path?
  rw [htext]
  simp

theorem exists_path {argument : String} (h : argument.toList.head? = some '@') :
    ∃ path, argument = "@" ++ path := by
  cases hcs : argument.toList with
  | nil =>
      rw [hcs] at h
      cases h
  | cons c cs =>
      rw [hcs] at h
      obtain rfl := Option.some.inj h
      refine ⟨String.ofList cs, String.toList_injective ?_⟩
      rw [hcs]
      simp

variable {files : Files} {argument : String} {r : Except LoadFault (Tensor α)}

/-- A tensor is loaded from its text, however it is given. -/
theorem Gives.loadTensor_eq {text : String} (h : Gives files argument text) :
    (loadTensor files argument : Except LoadFault (Tensor α)) = readTensor text.toList := by
  cases h with
  | inline h => rw [loadTensor, path?_of_head?_ne h]
  | file h =>
      rw [loadTensor, path?_at]
      dsimp only
      rw [h]

theorem Loads.loadTensor_eq (h : Loads files argument r) : loadTensor files argument = r := by
  cases h with
  | text h => exact h.loadTensor_eq
  | unreadable h =>
      rw [loadTensor, path?_at]
      dsimp only
      rw [h]

theorem loads_loadTensor (files : Files) (argument : String) :
    Loads files argument (loadTensor files argument : Except LoadFault (Tensor α)) := by
  by_cases h : argument.toList.head? = some '@'
  · obtain ⟨path, rfl⟩ := exists_path h
    cases hfile : files path with
    | ok text =>
        rw [Gives.loadTensor_eq (.file hfile)]
        exact .text (.file hfile)
    | error reason =>
        rw [Loads.loadTensor_eq (.unreadable hfile)]
        exact .unreadable hfile
  · rw [Gives.loadTensor_eq (.inline h)]
    exact .text (.inline h)

theorem loads_iff : Loads files argument r ↔ loadTensor files argument = r :=
  ⟨Loads.loadTensor_eq, fun h => h ▸ loads_loadTensor files argument⟩

end Command

end TensorFormula
