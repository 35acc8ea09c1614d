import TensorFormula.Proofs.Toml.Numerals

/-!
# Settings that are written and read back

Settings are written as three lines, each of which is read as the value of its field. All valid
settings are therefore read back as they were, unless the capacity is past the integers of TOML, in
which case they are not written at all. Read settings are valid, and what a document does not name
has its standard value.
-/

namespace TensorFormula.Settings

open Toml

/-- The slope is a finite number other than zero. -/
def Valid (s : Settings) : Prop := s.leakySlope.isFinite = true ∧ (s.leakySlope != 0) = true

theorem validate_eq_ok_iff {s t : Settings} : s.validate = .ok t ↔ s.Valid ∧ t = s := by
  unfold validate
  split
  · next h => simp [Valid, h, eq_comm]
  · next h => simp [Valid, h]

/-! ## What a document says -/

/-- The value of a field: a value that stands for it under its key, or the standard one without such
a key. -/
def Sets {α : Type} (es : Entries) (key : String) (Means : Value → α → Prop) (standard x : α) :
    Prop :=
  (es.find? key.toList = none ∧ x = standard) ∨ ∃ v, es.find? key.toList = some v ∧ Means v x

theorem field_eq_some_iff {α : Type} {es : Entries} {key : String} {read? : Value → Option α}
    {Means : Value → α → Prop} (h : ∀ v x, read? v = some x ↔ Means v x) {missing x : α} :
    field es key read? missing = some x ↔ Sets es key Means missing x := by
  unfold field Sets
  cases es.find? key.toList with
  | none => simp [eq_comm]
  | some v => simp [h]

/-- A flag is written as a truth value. -/
inductive MeansFlag : Value → Bool → Prop
  | boolean (b : Bool) : MeansFlag (.boolean b) b

/-- A capacity is written as an integer that is not negative. -/
inductive MeansCapacity : Value → Nat → Prop
  | integer (n : Nat) : MeansCapacity (.integer n) n

/-- A slope is written as a float, or as an integer for the double nearest to it. -/
inductive MeansSlope : Value → Float → Prop
  | float (x : Float) : MeansSlope (.float x) x
  | integer (n : Int) : MeansSlope (.integer n) (Element.ofInt n)

theorem flag?_eq_some_iff (v : Value) (b : Bool) : flag? v = some b ↔ MeansFlag v b := by
  constructor
  · intro h
    cases v with
    | boolean c =>
        obtain rfl := Option.some.inj h
        exact .boolean c
    | _ => cases h
  · rintro ⟨⟩
    rfl

theorem capacity?_eq_some_iff (v : Value) (n : Nat) :
    capacity? v = some n ↔ MeansCapacity v n := by
  constructor
  · intro h
    cases v with
    | integer m =>
        rw [capacity?] at h
        split at h
        · next hm =>
            obtain rfl := Option.some.inj h
            rw [← Int.toNat_of_nonneg hm]
            exact .integer _
        · cases h
    | _ => cases h
  · rintro ⟨⟩
    rw [capacity?, if_pos (Int.natCast_nonneg n), Int.toNat_natCast]

theorem slope?_eq_some_iff (v : Value) (x : Float) : slope? v = some x ↔ MeansSlope v x := by
  constructor
  · intro h
    cases v with
    | float y =>
        obtain rfl := Option.some.inj h
        exact .float y
    | integer n =>
        obtain rfl := Option.some.inj h
        exact .integer n
    | _ => cases h
  · rintro (_ | _) <;> rfl

/-- The three fields as the entries of a document set them. -/
structure DescribedBy (s : Settings) (es : Entries) : Prop where
  cacheFormulas : Sets es "cache_formulas" MeansFlag true s.cacheFormulas
  cacheCapacity : Sets es "cache_capacity" MeansCapacity 256 s.cacheCapacity
  leakySlope : Sets es "leaky_slope" MeansSlope 0.1 s.leakySlope

theorem ofEntries?_eq_some_iff {es : Entries} {s : Settings} :
    ofEntries? es = some s ↔ s.DescribedBy es := by
  unfold ofEntries?
  simp only [Option.bind_eq_bind, Option.bind_eq_some_iff, field_eq_some_iff flag?_eq_some_iff,
    field_eq_some_iff capacity?_eq_some_iff, field_eq_some_iff slope?_eq_some_iff]
  constructor
  · rintro ⟨b, hb, n, hn, x, hx, h⟩
    obtain rfl := Option.some.inj h
    exact ⟨hb, hn, hx⟩
  · rintro ⟨hb, hn, hx⟩
    exact ⟨_, hb, _, hn, _, hx, rfl⟩

/-- Settings are read from a text exactly if they are valid and its table describes them. -/
theorem ofToml_eq_ok_iff {text : List Char} {s : Settings} :
    ofToml text = .ok s ↔ s.Valid ∧ ∃ es, Toml.read text = some es ∧ s.DescribedBy es := by
  unfold ofToml
  cases h : (Toml.read text).bind ofEntries? with
  | none =>
      refine iff_of_false nofun ?_
      rintro ⟨-, es, hread, hes⟩
      rw [hread, Option.bind_some, ofEntries?_eq_some_iff.2 hes] at h
      cases h
  | some t =>
      obtain ⟨es, hread, ht⟩ := Option.bind_eq_some_iff.1 h
      simp only [validate_eq_ok_iff]
      constructor
      · rintro ⟨hvalid, rfl⟩
        exact ⟨hvalid, es, hread, ofEntries?_eq_some_iff.1 ht⟩
      · rintro ⟨hvalid, es', hread', hes'⟩
        obtain rfl := Option.some.inj (hread.symm.trans hread')
        obtain rfl := Option.some.inj (ht.symm.trans (ofEntries?_eq_some_iff.2 hes'))
        exact ⟨hvalid, rfl⟩

/-! ## The written lines -/

variable {s : Settings}

theorem isBare_names : IsBare "cache_formulas".toList ∧ IsBare "cache_capacity".toList ∧
    IsBare "leaky_slope".toList := by
  simp [IsBare, isBareKey]

theorem isWord_flagText (b : Bool) : IsWord (flagText b) := by
  cases b <;> simp [IsWord, isWordPart, flagText]

theorem scalar?_flagText (b : Bool) : scalar? (flagText b) = some (.boolean b) := by
  cases b <;> simp [flagText, scalar?]

theorem isWord_natText (n : Nat) : IsWord (natText n) :=
  ⟨Nat.toDigits_ne_nil, fun c hc => by simp [isWordPart, Char.isAlphanum, isDigit_toDigits hc]⟩

theorem scalar?_natText {n : Nat} (h : n < Nat.pow 2 63) :
    scalar? (natText n) = some (.integer n) := by
  have hn : Nat.ofDigitChars 10 (Nat.toDigits 10 n) 0 = n := Nat.ofDigitChars_ten_toDigits
  have hword := scalar?_whole (isWhole_toDigits n) (hn.symm ▸ h)
  rwa [hn] at hword

theorem isWord_slopeText {x : Float} (h : Element.IsFinite x) :
    IsWord (Layout.toml.text .double (Element.bits x)) := by
  obtain ⟨negative, ds, fs, hds, hfs, htext, -⟩ := exists_digits_text h
  rw [htext]
  refine ⟨by simp, fun c hc => ?_⟩
  obtain hc | hc := List.mem_append.1 hc
  · cases negative <;> simp [Layout.signText] at hc
    rw [hc]
    rfl
  · obtain hc | hc := List.mem_append.1 hc
    · simp [isWordPart, Char.isAlphanum, hds.isDigit c hc]
    · obtain rfl | hc := List.mem_cons.1 hc
      · rfl
      · simp [isWordPart, Char.isAlphanum, hfs.2 c hc]

/-- The three lines of settings that can be written. -/
def assignments (s : Settings) (hc : s.cacheCapacity < Nat.pow 2 63)
    (hs : Element.IsFinite s.leakySlope) : List Assignment :=
  [⟨_, _, .boolean s.cacheFormulas, isBare_names.1, isWord_flagText _, scalar?_flagText _⟩,
    ⟨_, _, .integer s.cacheCapacity, isBare_names.2.1, isWord_natText _, scalar?_natText hc⟩,
    ⟨_, _, .float s.leakySlope, isBare_names.2.2, isWord_slopeText hs, scalar?_text hs⟩]

/-- The table of written settings. -/
def entries (s : Settings) : Entries :=
  [("cache_formulas".toList, .boolean s.cacheFormulas),
    ("cache_capacity".toList, .integer s.cacheCapacity),
    ("leaky_slope".toList, .float s.leakySlope)]

theorem read_toToml (hc : s.cacheCapacity < Nat.pow 2 63) (hs : Element.IsFinite s.leakySlope) :
    ∃ text, s.toToml = .ok text ∧ Toml.read text = some s.entries := by
  have hnodup : ((s.assignments hc hs).map Assignment.key).Nodup := by
    simp [assignments]
  refine ⟨(s.assignments hc hs).flatMap Assignment.line, ?_, read_lines hnodup⟩
  rw [toToml, if_pos hc]
  simp [assignments, Assignment.line, line]

theorem describedBy_entries (s : Settings) : s.DescribedBy s.entries where
  cacheFormulas := .inr ⟨_, by simp [entries, Entries.find?], .boolean _⟩
  cacheCapacity := .inr ⟨_, by simp [entries, Entries.find?, List.lookup], .integer _⟩
  leakySlope := .inr ⟨_, by simp [entries, Entries.find?, List.lookup], .float _⟩

/-- Valid settings are written and read back as they were, unless the capacity is no integer of
TOML. What is read from any text is valid and described by its table, in which a missing key stands
for its standard value. -/
theorem survive_text :
    (∀ s : Settings, s.validate = .ok s →
      (s.cacheCapacity ≤ 2 ^ 63 - 1 → ∃ text, s.toToml = .ok text ∧ ofToml text = .ok s) ∧
      (2 ^ 63 - 1 < s.cacheCapacity → s.toToml = .error .unwritable)) ∧
    ∀ (text : List Char) (s : Settings), ofToml text = .ok s ↔
      (s.leakySlope.isFinite = true ∧ (s.leakySlope != 0) = true) ∧
        ∃ es, Toml.read text = some es ∧ s.DescribedBy es := by
  refine ⟨fun s h => ⟨fun hc => ?_, fun hc => ?_⟩, fun text s => ofToml_eq_ok_iff⟩
  · obtain ⟨hvalid, -⟩ := validate_eq_ok_iff.1 h
    obtain ⟨text, htext, hread⟩ :=
      read_toToml (by simp; omega) ((double_isFinite_iff _).1 hvalid.1)
    exact ⟨text, htext, ofToml_eq_ok_iff.2 ⟨hvalid, _, hread, describedBy_entries s⟩⟩
  · exact if_neg (by simp; omega)

/-- The least negative slope and the greatest capacity that can be written. -/
def leastSettings : Settings := ⟨false, 2 ^ 63 - 1, -5e-324⟩

/-- The greatest slope and the least capacity that cannot be written. -/
def greatestSettings : Settings := ⟨true, 2 ^ 63, 1.7976931348623157e308⟩

theorem survive_text_extremes :
    (leastSettings.validate = .ok leastSettings ∧
      ∃ text, leastSettings.toToml = .ok text ∧ ofToml text = .ok leastSettings) ∧
    (greatestSettings.validate = .ok greatestSettings ∧
      greatestSettings.toToml = .error .unwritable) ∧
    ofToml "cache_capacity = 4".toList = .ok ⟨true, 4, 0.1⟩ := by
  have hleast : leastSettings.validate = .ok leastSettings := by
    refine validate_eq_ok_iff.2 ⟨⟨?_, ?_⟩, rfl⟩ <;> decide +kernel
  have hgreatest : greatestSettings.validate = .ok greatestSettings := by
    refine validate_eq_ok_iff.2 ⟨⟨?_, ?_⟩, rfl⟩ <;> decide +kernel
  have hread : Toml.read "cache_capacity = 4".toList =
      some [("cache_capacity".toList, .integer 4)] := by
    simp
    rfl
  refine ⟨⟨hleast, (survive_text.1 _ hleast).1 (by decide)⟩,
    ⟨hgreatest, (survive_text.1 _ hgreatest).2 (by decide)⟩, ?_⟩
  refine (survive_text.2 _ _).2 ⟨⟨by decide +kernel, by decide +kernel⟩, _, hread, ?_, ?_, ?_⟩
  · exact .inl ⟨by simp [Entries.find?, List.lookup], rfl⟩
  · exact .inr ⟨_, by simp [Entries.find?], .integer 4⟩
  · exact .inl ⟨by simp [Entries.find?, List.lookup], rfl⟩

end TensorFormula.Settings
