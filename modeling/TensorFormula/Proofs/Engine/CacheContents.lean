import Mathlib.Data.List.DropRight
import TensorFormula.Proofs.Engine.CachedReplies

/-!
# What the cache holds

The kept texts are a function of the calls so far: the distinct texts that were parsed since the
last clearing, cut off at the capacity. Nothing is kept twice, replaced or given up before a
clearing, and a mark that is not kept at once never comes back. Hence two compilations share a tree
exactly if the first has kept it and the second asks for it before the next clearing.
-/

namespace TensorFormula

variable {α : Type}

namespace Call

def isClear : Call α → Bool
  | .clear => true
  | _ => false

/-- The text that a call compiles. -/
def formula? : Call α → Option String
  | .compile formula | .evaluate formula _ | .calculate _ formula _ => some formula
  | .clear => none

theorem isClear_eq_false {call : Call α} {formula : String} (h : call.formula? = some formula) :
    call.isClear = false := by
  cases call with
  | clear => cases h
  | _ => rfl

theorem eq_clear {call : Call α} (h : call.formula? = none) : call = .clear := by
  cases call with
  | clear => rfl
  | _ => cases h

end Call

namespace Engine

/-! ## Texts of a history -/

def parses (formula : String) : Bool := (parse formula).isOk

/-- The distinct texts that were parsed since the last clearing, in the order in which they first
were. -/
def parsedTexts (calls : List (Call α)) : List String :=
  (((calls.rtakeWhile fun c => !c.isClear).filterMap Call.formula?).filter parses).eraseDups

/-- The texts that an engine with settings `s` keeps. -/
def keptTexts (s : Settings) (calls : List (Call α)) : List String :=
  if s.cacheFormulas then (parsedTexts calls).take s.cacheCapacity else []

@[simp] theorem parsedTexts_nil : parsedTexts ([] : List (Call α)) = [] := by simp [parsedTexts]

theorem parsedTexts_clear (calls : List (Call α)) : parsedTexts (calls ++ [.clear]) = [] := by
  simp [parsedTexts, Call.isClear]

theorem parsedTexts_snoc (calls : List (Call α)) {call : Call α} {formula : String}
    (h : call.formula? = some formula) :
    parsedTexts (calls ++ [call]) = if parses formula ∧ formula ∉ parsedTexts calls
      then parsedTexts calls ++ [formula] else parsedTexts calls := by
  simp only [parsedTexts, List.rtakeWhile_concat, Call.isClear_eq_false h, Bool.not_false,
    if_true, List.filterMap_append, List.filterMap_cons, h, List.filterMap_nil, List.filter_append,
    List.mem_eraseDups]
  generalize ((calls.rtakeWhile fun c => !c.isClear).filterMap Call.formula?).filter parses = texts
  by_cases hp : parses formula = true
  · by_cases hm : formula ∈ texts <;>
      simp [hp, hm, List.eraseDups_append, List.removeAll, List.eraseDups_cons]
  · simp [hp]

theorem length_keptTexts (s : Settings) (calls : List (Call α)) :
    (keptTexts s calls).length =
      if s.cacheFormulas then min s.cacheCapacity (parsedTexts calls).length else 0 := by
  rw [keptTexts]
  split
  · exact List.length_take
  · rfl

@[simp] theorem keptTexts_nil (s : Settings) : keptTexts s ([] : List (Call α)) = [] := by
  simp [keptTexts]

theorem keptTexts_clear (s : Settings) (calls : List (Call α)) :
    keptTexts s (calls ++ [.clear]) = [] := by
  simp [keptTexts, parsedTexts_clear]

/-- A text that parsed before and is not kept was left out of a full cache. -/
theorem keptTexts_snoc (s : Settings) (calls : List (Call α)) {call : Call α} {formula : String}
    (h : call.formula? = some formula) :
    keptTexts s (calls ++ [call]) =
      if (parses formula ∧ formula ∉ keptTexts s calls) ∧
          s.cacheFormulas ∧ (keptTexts s calls).length < s.cacheCapacity
      then keptTexts s calls ++ [formula] else keptTexts s calls := by
  rw [length_keptTexts]
  simp only [keptTexts, parsedTexts_snoc calls h]
  by_cases hon : s.cacheFormulas = true
  · simp only [hon, if_true, true_and]
    generalize parsedTexts calls = texts
    by_cases hp : parses formula = true
    · by_cases hroom : texts.length < s.cacheCapacity
      · rw [List.take_of_length_le hroom.le]
        have hmin : min s.cacheCapacity texts.length < s.cacheCapacity := by omega
        simp only [hp, true_and, hmin, and_true]
        split
        · rw [List.take_of_length_le (by rw [List.length_append]; exact hroom)]
        · exact List.take_of_length_le hroom.le
      · have hmin : ¬ min s.cacheCapacity texts.length < s.cacheCapacity := by omega
        simp only [hmin, and_false, if_false]
        split
        · exact List.take_append_of_le_length (not_lt.1 hroom)
        · rfl
    · simp [hp]
  · simp [hon]

/-! ## Texts of an engine -/

def texts (e : Engine α) : List String := e.cache.map Prod.fst

theorem length_texts (e : Engine α) : e.texts.length = e.cacheSize := List.length_map _

theorem mem_texts {e : Engine α} {formula : String} :
    formula ∈ e.texts ↔ ∃ c, e.cached? formula = some c := by
  rw [← not_iff_not, ← Option.isSome_iff_exists, Option.not_isSome_iff_eq_none, cached?,
    List.lookup_eq_none_iff, texts]
  constructor
  · intro h p hp
    exact bne_iff_ne.2 fun hf => h (List.mem_map.2 ⟨p, hp, hf.symm⟩)
  · intro h hm
    obtain ⟨p, hp, rfl⟩ := List.mem_map.1 hm
    exact bne_iff_ne.1 (h p hp) rfl

theorem cached?_eq_none {e : Engine α} {formula : String} (h : formula ∉ e.texts) :
    e.cached? formula = none := by
  cases hc : e.cached? formula with
  | none => rfl
  | some c => exact absurd (mem_texts.2 ⟨c, hc⟩) h

theorem compile_of_cached {e : Engine α} {formula : String} {c : Compiled}
    (h : e.cached? formula = some c) : e.compile formula = (.ok c, e) := by
  rw [compile, h]

theorem compile_of_not_mem {e : Engine α} {formula : String} (h : formula ∉ e.texts) :
    e.compile formula = e.compileAnew formula := by
  rw [compile, cached?_eq_none h]

theorem compileAnew_error {e : Engine α} {formula : String} {f : FormulaFault}
    (h : parse formula = .error f) : e.compileAnew formula = (.error f, e) := by
  rw [compileAnew, h]

theorem compileAnew_ok {e : Engine α} {formula : String} {tree : Node}
    (h : parse formula = .ok tree) :
    e.compileAnew formula = (.ok ⟨tree, e.made⟩, e.remember formula ⟨tree, e.made⟩) := by
  rw [compileAnew, h]

/-- A compilation finds the text kept, or fails, or makes a tree with a new mark. -/
theorem compile_cases (e : Engine α) (formula : String) :
    (∃ c, e.cached? formula = some c ∧ e.compile formula = (.ok c, e)) ∨
    (formula ∉ e.texts ∧ ∃ f, parse formula = .error f ∧ e.compile formula = (.error f, e)) ∨
    (formula ∉ e.texts ∧ ∃ tree, parse formula = .ok tree ∧
      e.compile formula = (.ok ⟨tree, e.made⟩, e.remember formula ⟨tree, e.made⟩)) := by
  by_cases hm : formula ∈ e.texts
  · obtain ⟨c, hc⟩ := mem_texts.1 hm
    exact .inl ⟨c, hc, compile_of_cached hc⟩
  · rw [compile_of_not_mem hm]
    cases hp : parse formula with
    | error f => exact .inr (.inl ⟨hm, f, rfl, compileAnew_error hp⟩)
    | ok tree => exact .inr (.inr ⟨hm, tree, rfl, compileAnew_ok hp⟩)

theorem texts_remember (e : Engine α) (formula : String) (c : Compiled) :
    (e.remember formula c).texts =
      if e.settings.cacheFormulas ∧ e.texts.length < e.settings.cacheCapacity
      then e.texts ++ [formula] else e.texts := by
  rw [length_texts, remember, cacheSize]
  split
  · exact List.map_append
  · rfl

theorem texts_compile (e : Engine α) (formula : String) :
    (e.compile formula).2.texts =
      if (parses formula ∧ formula ∉ e.texts) ∧
          e.settings.cacheFormulas ∧ e.texts.length < e.settings.cacheCapacity
      then e.texts ++ [formula] else e.texts := by
  obtain ⟨c, hc, h⟩ | ⟨-, f, hp, h⟩ | ⟨hm, tree, hp, h⟩ := e.compile_cases formula
  · have hm : formula ∈ e.texts := mem_texts.2 ⟨c, hc⟩
    simp [h, hm]
  · have hp' : parses formula = false := by rw [parses, hp]; rfl
    simp [h, hp']
  · have hp' : parses formula = true := by rw [parses, hp]; rfl
    rw [h, texts_remember]
    simp only [hp', hm, not_false_eq_true, and_self, true_and]

/-! ## Marks -/

/-- No mark in the cache is still to be given out, and no two entries share one. -/
structure Marked (e : Engine α) : Prop where
  given : ∀ entry ∈ e.cache, entry.2.mark < e.made
  apart : ∀ entry ∈ e.cache, ∀ entry' ∈ e.cache, entry.2.mark = entry'.2.mark → entry = entry'

/-- A mark that was given out and stands in the cache at texts with `P` only. -/
structure Confined (mark : Nat) (P : String → Prop) (e : Engine α) : Prop where
  given : mark < e.made
  stands : ∀ entry ∈ e.cache, entry.2.mark = mark → P entry.1

theorem made_remember (e : Engine α) (formula : String) (c : Compiled) :
    (e.remember formula c).made = e.made + 1 := by
  rw [remember]
  split <;> rfl

theorem cache_remember (e : Engine α) (formula : String) (c : Compiled) :
    (e.remember formula c).cache = e.cache ++ [(formula, c)] ∨
      (e.remember formula c).cache = e.cache := by
  rw [remember]
  split
  · exact .inl rfl
  · exact .inr rfl

theorem mem_cache_remember {e : Engine α} {formula : String} {c : Compiled}
    {entry : String × Compiled} (h : entry ∈ (e.remember formula c).cache) :
    entry ∈ e.cache ∨ entry = (formula, c) := by
  obtain hc | hc := e.cache_remember formula c
  · rw [hc, List.mem_append, List.mem_singleton] at h
    exact h
  · exact .inl (hc ▸ h)

theorem mem_cache {e : Engine α} {formula : String} {c : Compiled}
    (h : e.cached? formula = some c) : (formula, c) ∈ e.cache := by
  obtain ⟨before, later, hc, -⟩ := List.lookup_eq_some_iff.1 h
  simp [hc]

theorem Marked.compile {e : Engine α} (h : e.Marked) (formula : String) :
    (e.compile formula).2.Marked := by
  obtain ⟨c, -, hc⟩ | ⟨-, f, -, hc⟩ | ⟨-, tree, -, hc⟩ := e.compile_cases formula
  · exact hc ▸ h
  · exact hc ▸ h
  · rw [hc]
    constructor
    · intro entry he
      rw [made_remember]
      obtain he | rfl := mem_cache_remember he
      · exact Nat.lt_succ_of_lt (h.given entry he)
      · exact Nat.lt_succ_self _
    · intro entry he entry' he' hm
      obtain he | rfl := mem_cache_remember he
      · obtain he' | rfl := mem_cache_remember he'
        · exact h.apart entry he entry' he' hm
        · exact absurd hm (h.given entry he).ne
      · obtain he' | rfl := mem_cache_remember he'
        · exact absurd hm (h.given entry' he').ne'
        · rfl

theorem Confined.compile {e : Engine α} {mark : Nat} {P : String → Prop} (h : e.Confined mark P)
    (formula : String) : (e.compile formula).2.Confined mark P := by
  obtain ⟨c, -, hc⟩ | ⟨-, f, -, hc⟩ | ⟨-, tree, -, hc⟩ := e.compile_cases formula
  · exact hc ▸ h
  · exact hc ▸ h
  · rw [hc]
    constructor
    · rw [made_remember]
      exact Nat.lt_succ_of_lt h.given
    · intro entry he hm
      obtain he | rfl := mem_cache_remember he
      · exact h.stands entry he hm
      · exact absurd hm h.given.ne'

/-- A confined mark is met again at a text with `P` only. -/
theorem Confined.of_compile {e : Engine α} {mark : Nat} {P : String → Prop}
    (h : e.Confined mark P) {formula : String} {c : Compiled}
    (hc : (e.compile formula).1 = .ok c) (hm : c.mark = mark) : P formula := by
  obtain ⟨c', hk, he⟩ | ⟨-, f, -, he⟩ | ⟨-, tree, -, he⟩ := e.compile_cases formula
  · rw [he] at hc
    obtain rfl := Except.ok.inj hc
    exact h.stands (formula, c') (mem_cache hk) hm
  · rw [he] at hc
    cases hc
  · rw [he] at hc
    obtain rfl := Except.ok.inj hc
    exact absurd hm h.given.ne'

theorem cached?_compile {e : Engine α} {formula : String} {c : Compiled}
    (h : e.cached? formula = some c) (formula' : String) :
    (e.compile formula').2.cached? formula = some c := by
  obtain ⟨c', -, he⟩ | ⟨-, f, -, he⟩ | ⟨-, tree, -, he⟩ := e.compile_cases formula'
  · exact he ▸ h
  · exact he ▸ h
  · rw [he, cached?]
    obtain hr | hr := e.cache_remember formula' ⟨tree, e.made⟩
    · rw [hr, List.lookup_append, ← cached?, h, Option.some_or]
    · rw [hr, ← cached?, h]

/-- A successful compilation confines the mark of its tree to its text, if the text is kept then,
and loses it otherwise. -/
theorem confined_of_compile {e : Engine α} (h : e.Marked) {formula : String} {c : Compiled}
    (hc : (e.compile formula).1 = .ok c) :
    (e.compile formula).2.Confined c.mark fun text =>
      text = formula ∧ formula ∈ (e.compile formula).2.texts := by
  have hm := h.compile formula
  obtain ⟨c', hk, he⟩ | ⟨-, f, -, he⟩ | ⟨-, tree, -, he⟩ := e.compile_cases formula
  · rw [he] at hc ⊢
    obtain rfl := Except.ok.inj hc
    refine ⟨h.given _ (mem_cache hk), fun entry hentry hmark => ?_⟩
    obtain rfl := h.apart entry hentry _ (mem_cache hk) hmark
    exact ⟨rfl, mem_texts.2 ⟨c', hk⟩⟩
  · rw [he] at hc
    cases hc
  · rw [he] at hc ⊢
    obtain rfl := Except.ok.inj hc
    refine ⟨by rw [made_remember]; exact Nat.lt_succ_self _, fun entry hentry hmark => ?_⟩
    have hmem : entry.1 ∈ (e.remember formula ⟨tree, e.made⟩).texts := List.mem_map_of_mem hentry
    obtain hold | rfl := mem_cache_remember hentry
    · exact absurd hmark (h.given entry hold).ne
    · exact ⟨rfl, hmem⟩

/-- A compilation that keeps its text keeps the tree that it returns. -/
theorem cached?_of_compile {e : Engine α} {formula : String} {c : Compiled}
    (hc : (e.compile formula).1 = .ok c) (hk : formula ∈ (e.compile formula).2.texts) :
    (e.compile formula).2.cached? formula = some c := by
  obtain ⟨c', hk', he⟩ | ⟨-, f, -, he⟩ | ⟨hm, tree, -, he⟩ := e.compile_cases formula
  · rw [he] at hc ⊢
    obtain rfl := Except.ok.inj hc
    exact hk'
  · rw [he] at hc
    cases hc
  · rw [he] at hc hk ⊢
    obtain rfl := Except.ok.inj hc
    obtain hr | hr := e.cache_remember formula ⟨tree, e.made⟩
    · rw [cached?, hr, List.lookup_append, ← cached?, cached?_eq_none hm]
      simp
    · rw [texts, hr, ← texts] at hk
      exact absurd hk hm

/-! ## Calls -/

variable [Element α]

theorem answer_snd (e : Engine α) (call : Call α) :
    (e.answer call).2 = match call.formula? with
      | some formula => (e.compile formula).2
      | none => e.clearCache := by
  cases call with
  | compile formula => rfl
  | evaluate formula operands => exact evaluate_snd e formula operands
  | calculate receiver formula operands => exact evaluate_snd e formula (receiver :: operands)
  | clear => rfl

theorem answer_snd_some (e : Engine α) {call : Call α} {formula : String}
    (h : call.formula? = some formula) : (e.answer call).2 = (e.compile formula).2 := by
  rw [answer_snd, h]

/-- The engine after some calls. -/
def after (e : Engine α) (calls : List (Call α)) : Engine α := (e.replies calls).2

@[simp] theorem after_nil (e : Engine α) : e.after [] = e := rfl

@[simp] theorem after_cons (e : Engine α) (call : Call α) (calls : List (Call α)) :
    e.after (call :: calls) = (e.answer call).2.after calls := rfl

theorem after_append (e : Engine α) (calls calls' : List (Call α)) :
    e.after (calls ++ calls') = (e.after calls).after calls' := by
  induction calls generalizing e with
  | nil => rfl
  | cons call calls ih => exact ih (e.answer call).2

/-- What compilations and clearings keep, all calls keep. -/
theorem after_induction {p : Engine α → Prop}
    (hcompile : ∀ e formula, p e → p (e.compile formula).2)
    (hclear : ∀ e, p e → p e.clearCache) {e : Engine α} (h : p e) (calls : List (Call α)) :
    p (e.after calls) := by
  induction calls generalizing e with
  | nil => exact h
  | cons call calls ih =>
      have hone : p (e.answer call).2 := by
        rw [answer_snd]
        cases call.formula? with
        | none => exact hclear e h
        | some formula => exact hcompile e formula h
      exact ih hone

theorem settings_after (e : Engine α) (calls : List (Call α)) :
    (e.after calls).settings = e.settings :=
  after_induction (p := fun e' => e'.settings = e.settings)
    (fun e' formula h => (settings_compile e' formula).trans h) (fun _ h => h) rfl calls

theorem sound_after {e : Engine α} (h : e.Sound) (calls : List (Call α)) : (e.after calls).Sound :=
  after_induction (p := Sound) (fun _ formula h => sound_compile h formula)
    (fun e _ => sound_clearCache e) h calls

/-- After any calls the kept texts are those that the calls determine. -/
theorem texts_after (s : Settings) (calls : List (Call α)) :
    ((ofSettings s).after calls).texts = keptTexts s calls := by
  induction calls using List.reverseRecOn with
  | nil => exact (keptTexts_nil s).symm
  | append_singleton calls call ih =>
      rw [after_append, after_cons, after_nil]
      cases h : call.formula? with
      | none =>
          obtain rfl := Call.eq_clear h
          exact (keptTexts_clear s calls).symm
      | some formula =>
          rw [answer_snd_some _ h, texts_compile, settings_after, ih, keptTexts_snoc s calls h]
          rfl

theorem marked_after (s : Settings) (calls : List (Call α)) :
    ((ofSettings s).after calls).Marked := by
  refine after_induction (p := Marked) (fun _ formula h => h.compile formula) ?_ ?_ calls
  · exact fun e _ => ⟨nofun, nofun⟩
  · exact ⟨nofun, nofun⟩

theorem Confined.after {e : Engine α} {mark : Nat} {P : String → Prop} (h : e.Confined mark P)
    (calls : List (Call α)) : (e.after calls).Confined mark P :=
  after_induction (p := Confined mark P) (fun _ formula h => h.compile formula)
    (fun _ h => ⟨h.given, nofun⟩) h calls

/-- What is kept stays as it is until the next clearing. -/
theorem cached?_after {e : Engine α} {formula : String} {c : Compiled}
    (h : e.cached? formula = some c) {calls : List (Call α)} (hc : Call.clear ∉ calls) :
    (e.after calls).cached? formula = some c := by
  induction calls generalizing e with
  | nil => exact h
  | cons call calls ih =>
      rw [List.mem_cons, not_or] at hc
      have hone : (e.answer call).2.cached? formula = some c := by
        rw [answer_snd]
        cases hf : call.formula? with
        | none => exact absurd (Call.eq_clear hf).symm hc.1
        | some formula' => exact cached?_compile h formula'
      exact ih hone hc.2

/-- A clearing loses all marks that were given out before. -/
theorem Confined.lost {e : Engine α} {mark : Nat} {P : String → Prop} (h : e.Confined mark P)
    {calls : List (Call α)} (hc : Call.clear ∈ calls) :
    (e.after calls).Confined mark fun _ => False := by
  obtain ⟨before, later, rfl⟩ := List.append_of_mem hc
  rw [after_append, after_cons]
  have hcleared : ((e.after before).answer .clear).2.Confined mark fun _ => False :=
    ⟨(h.after before).given, nofun⟩
  exact hcleared.after later

theorem after_of_failed {s : Settings} {calls : List (Call α)} {call : Call α} {formula : String}
    {f : FormulaFault} (hf : call.formula? = some formula) (hp : parse formula = .error f) :
    (ofSettings s).after (calls ++ [call]) = (ofSettings s).after calls := by
  rw [after_append, after_cons, after_nil, answer_snd_some _ hf]
  obtain ⟨c, hk, -⟩ | ⟨-, f', -, he⟩ | ⟨-, tree, hp', -⟩ :=
    ((ofSettings s).after calls).compile_cases formula
  · cases hp.symm.trans (parse_of_cached (sound_after (sound_ofSettings s) calls) hk)
  · rw [he]
  · cases hp.symm.trans hp'

/-- Two compilations have one tree exactly if the first keeps it and the second asks for it before
the next clearing. -/
theorem shared_after {s : Settings} {calls between : List (Call α)} {formula formula' : String}
    {c c' : Compiled} (hc : (((ofSettings s).after calls).compile formula).1 = .ok c)
    (hc' : (((ofSettings s).after (calls ++ .compile formula :: between)).compile formula').1 =
      .ok c') :
    (c.mark = c'.mark ↔ formula' = formula ∧ Call.clear ∉ between ∧
      formula ∈ keptTexts s (calls ++ [.compile formula])) ∧ (c.mark = c'.mark → c = c') := by
  have hkept : (((ofSettings s).after calls).compile formula).2.texts =
      keptTexts s (calls ++ [.compile formula]) := by
    rw [← texts_after, after_append]
    rfl
  have hrun : (ofSettings s).after (calls ++ .compile formula :: between) =
      (((ofSettings s).after calls).compile formula).2.after between := by
    rw [after_append]
    rfl
  rw [hrun] at hc'
  have hconf := confined_of_compile (marked_after s calls) hc
  rw [hkept] at hconf
  have hback : c.mark = c'.mark → formula' = formula ∧ Call.clear ∉ between ∧
      formula ∈ keptTexts s (calls ++ [.compile formula]) := by
    intro hm
    obtain ⟨hf, hk⟩ := (hconf.after between).of_compile hc' hm.symm
    exact ⟨hf, fun hclear => (hconf.lost hclear).of_compile hc' hm.symm, hk⟩
  have hforth : formula' = formula ∧ Call.clear ∉ between ∧
      formula ∈ keptTexts s (calls ++ [.compile formula]) → c = c' := by
    rintro ⟨rfl, hclear, hk⟩
    rw [← hkept] at hk
    have hcached := cached?_after (cached?_of_compile hc hk) hclear
    rw [compile_of_cached hcached] at hc'
    exact Except.ok.inj hc'
  exact ⟨⟨hback, fun hs => congrArg Compiled.mark (hforth hs)⟩, fun hm => hforth (hback hm)⟩

/-! ## Main statement -/

/-- What the calls of an engine with settings `s` say about its cache: which texts it keeps and how
many, that a call whose text does not parse changes nothing, and which compilations share a tree. -/
structure Determined (s : Settings) (e : Engine α) (calls : List (Call α)) : Prop where
  texts : (e.after calls).texts = keptTexts s calls
  size : (e.after calls).cacheSize =
    if s.cacheFormulas then min s.cacheCapacity (parsedTexts calls).length else 0
  failed : ∀ call formula f, call.formula? = some formula → parse formula = .error f →
    (e.after (calls ++ [call])) = e.after calls
  shared : ∀ formula between formula' c c',
    ((e.after calls).compile formula).1 = .ok c →
    ((e.after (calls ++ .compile formula :: between)).compile formula').1 = .ok c' →
      (c.mark = c'.mark ↔ formula' = formula ∧ Call.clear ∉ between ∧
        formula ∈ keptTexts s (calls ++ [.compile formula])) ∧
      (c.mark = c'.mark → c = c')

/-- The calls alone determine what the cache keeps. With the cache on, the kept texts are the first
that parsed since the last clearing, as many as there is room for, and with the cache off there are
none. Calls whose texts do not parse change nothing. Two compilations have the very same tree
exactly if they are of one text, which the first keeps, and no clearing lies between them. -/
theorem cache_determined_by_calls {s : Settings} {e : Engine α} (h : create s = .ok e)
    (calls : List (Call α)) : Determined s e calls := by
  obtain ⟨-, rfl⟩ := create_eq_ok_iff.1 h
  constructor
  case texts => exact texts_after s calls
  case size => rw [← length_texts, texts_after, length_keptTexts]
  case failed => exact fun _ _ _ hf hp => after_of_failed hf hp
  case shared => exact fun _ _ _ _ _ hc hc' => shared_after hc hc'

/-- A capacity of one, which the text after the clearing uses up. -/
def fullCache : Settings := ⟨true, 1, 0.5⟩

def callsToFullCache : List (Call Float) :=
  [.compile "%0 x %1", .clear, .evaluate "%0 + 1" [], .compile "(", .compile "%0 * 2"]

theorem cache_determined_by_calls_fullCache :
    ∃ e : Engine Float, create fullCache = .ok e ∧
      (e.after callsToFullCache).texts = ["%0 + 1"] ∧ (e.after callsToFullCache).cacheSize = 1 ∧
      parsedTexts callsToFullCache = ["%0 + 1", "%0 * 2"] ∧
      Determined fullCache e callsToFullCache := by
  have hcreate : create fullCache = .ok (ofSettings fullCache : Engine Float) := rfl
  have h := cache_determined_by_calls hcreate callsToFullCache
  have hkept : keptTexts fullCache callsToFullCache = ["%0 + 1"] := by decide +kernel
  refine ⟨_, hcreate, h.texts.trans hkept, ?_, by decide +kernel, h⟩
  rw [← length_texts, h.texts, hkept]
  rfl

end Engine

end TensorFormula
