import Mathlib.Data.List.Forall2
import TensorFormula.Engine.History

/-!
# Replies do not depend on the cache

The invariant is that every kept tree is the parse of the text it is kept under. It holds of a new
engine and after every call, whether the cache is on, off or full, and it makes a compilation answer
as the parser does. An evaluation then depends on the text, the operands and the slope only.
-/

namespace TensorFormula.Engine

variable {α : Type}

def Sound (e : Engine α) : Prop := ∀ entry ∈ e.cache, parse entry.1 = .ok entry.2.tree

theorem sound_ofSettings (s : Settings) : (ofSettings s : Engine α).Sound := by
  intro entry h
  cases h

theorem sound_clearCache (e : Engine α) : e.clearCache.Sound := by
  intro entry h
  cases h

theorem parse_of_cached {e : Engine α} (h : e.Sound) {formula : String} {c : Compiled}
    (hc : e.cached? formula = some c) : parse formula = .ok c.tree := by
  obtain ⟨before, later, he, -⟩ := List.lookup_eq_some_iff.1 hc
  exact h (formula, c) (by simp [he])

theorem sound_remember {e : Engine α} (h : e.Sound) {formula : String} {c : Compiled}
    (hc : parse formula = .ok c.tree) : (e.remember formula c).Sound := by
  unfold remember
  split
  · intro entry he
    rcases List.mem_append.1 he with he | he
    · exact h entry he
    · obtain rfl := List.mem_singleton.1 he
      exact hc
  · exact h

/-- A compilation answers with the parse of the text or with the fault of the parser. -/
theorem compile_fst {e : Engine α} (h : e.Sound) (formula : String) :
    (e.compile formula).1.map Compiled.tree = parse formula := by
  unfold compile
  split
  · next c hc => exact (parse_of_cached h hc).symm
  · unfold compileAnew
    split <;> next hp => exact hp.symm

theorem sound_compile {e : Engine α} (h : e.Sound) (formula : String) :
    (e.compile formula).2.Sound := by
  unfold compile
  split
  · exact h
  · unfold compileAnew
    split
    · exact h
    · next tree hp => exact sound_remember h hp

theorem settings_compile (e : Engine α) (formula : String) :
    (e.compile formula).2.settings = e.settings := by
  unfold compile
  split
  · rfl
  · unfold compileAnew
    split
    · rfl
    · unfold remember
      split <;> rfl

theorem create_eq_ok_iff {s : Settings} {e : Engine α} : create s = .ok e ↔
    (s.leakySlope.isFinite = true ∧ (s.leakySlope != 0) = true) ∧ e = ofSettings s := by
  unfold create Settings.validate
  split
  · next hv => simp only [Except.map, Except.ok.injEq, hv, and_self, true_and, eq_comm]
  · next hv => simp only [Except.map, reduceCtorEq, hv, false_and]

variable [Element α]

/-- An evaluation depends on the text, the operands and the slope only. -/
theorem evaluate_fst {e : Engine α} (h : e.Sound) (formula : String)
    (operands : List (Tensor α)) :
    (e.evaluate formula operands).1 =
      (parse formula).bind fun tree => tree.evaluate operands e.slope := by
  rw [← compile_fst h formula]
  unfold evaluate
  split <;> next hc => simp [hc, Except.map, Except.bind]

theorem evaluate_snd (e : Engine α) (formula : String) (operands : List (Tensor α)) :
    (e.evaluate formula operands).2 = (e.compile formula).2 := by
  unfold evaluate
  split <;> next hc => rw [hc]

/-- The settings of an engine that keeps no trees and has the slope of `s`. -/
def uncached (s : Settings) (capacity : Nat) : Settings :=
  { s with cacheFormulas := false, cacheCapacity := capacity }

/-- The reply of a new engine without a cache, if it can be made at all. -/
def freshReply (s : Settings) (capacity : Nat) (formula : String) (operands : List (Tensor α)) :
    Except SettingsFault (Except FormulaFault (Tensor α)) :=
  (create (uncached s capacity)).map fun fresh => (fresh.evaluate formula operands).1

/-- What each call has to be answered: a compilation with the parse of its text, an evaluation as a
new engine without a cache answers it. -/
def Faithful (s : Settings) : Call α → Reply α → Prop
  | .compile formula, .compiled r => r.map Compiled.tree = parse formula
  | .evaluate formula operands, .evaluated r =>
      ∀ capacity, freshReply s capacity formula operands = .ok r
  | .calculate receiver formula operands, .evaluated r =>
      ∀ capacity, freshReply s capacity formula (receiver :: operands) = .ok r
  | .clear, .cleared => True
  | _, _ => False

theorem freshReply_eq {s : Settings} {e₀ e : Engine α} (hs : create s = .ok e₀) (h : e.Sound)
    (he : e.settings = s) (capacity : Nat) (formula : String) (operands : List (Tensor α)) :
    freshReply s capacity formula operands = .ok (e.evaluate formula operands).1 := by
  have hslope : (ofSettings (uncached s capacity) : Engine α).slope = e.slope := by
    rw [slope, slope, he]
    rfl
  have hc : create (uncached s capacity) = .ok (ofSettings (uncached s capacity) : Engine α) :=
    create_eq_ok_iff.2 ⟨(create_eq_ok_iff.1 hs).1, rfl⟩
  rw [freshReply, hc, evaluate_fst h, ← hslope, ← evaluate_fst (sound_ofSettings _)]
  rfl

/-- One call is answered faithfully and leaves a sound engine with the same settings. -/
theorem answer_faithful {s : Settings} {e₀ e : Engine α} (hs : create s = .ok e₀) (h : e.Sound)
    (he : e.settings = s) (call : Call α) :
    Faithful s call (e.answer call).1 ∧ (e.answer call).2.Sound ∧
      (e.answer call).2.settings = s := by
  cases call with
  | compile formula =>
      exact ⟨compile_fst h formula, sound_compile h formula,
        (settings_compile e formula).trans he⟩
  | evaluate formula operands =>
      have hn := evaluate_snd e formula operands
      refine ⟨fun capacity => freshReply_eq hs h he capacity formula operands, ?_, ?_⟩
      · exact hn ▸ sound_compile h formula
      · exact hn ▸ (settings_compile e formula).trans he
  | calculate receiver formula operands =>
      have hn := evaluate_snd e formula (receiver :: operands)
      refine ⟨fun capacity => freshReply_eq hs h he capacity formula (receiver :: operands), ?_, ?_⟩
      · exact hn ▸ sound_compile h formula
      · exact hn ▸ (settings_compile e formula).trans he
  | clear => exact ⟨trivial, sound_clearCache e, he⟩

theorem replies_faithful {s : Settings} {e₀ e : Engine α} (hs : create s = .ok e₀) (h : e.Sound)
    (he : e.settings = s) (calls : List (Call α)) :
    List.Forall₂ (Faithful s) calls (e.replies calls).1 := by
  induction calls generalizing e with
  | nil => exact .nil
  | cons call calls ih =>
      obtain ⟨hf, hn, hset⟩ := answer_faithful hs h he call
      exact .cons hf (ih hn hset)

/-- Whatever is asked of an engine in whatever order, each compilation is answered with the parse
of its text and each evaluation as a new engine without a cache answers it. -/
theorem replies_unchanged_by_cache {s : Settings} {e : Engine α} (h : create s = .ok e)
    (calls : List (Call α)) : List.Forall₂ (Faithful s) calls (e.replies calls).1 := by
  obtain ⟨-, rfl⟩ := create_eq_ok_iff.1 h
  exact replies_faithful h (sound_ofSettings s) rfl calls

/-- A capacity of one, which the second formula exceeds, and a formula that is malformed. -/
theorem replies_unchanged_by_cache_full :
    ∃ e : Engine Float, create ⟨true, 1, 0.5⟩ = .ok e ∧
      List.Forall₂ (Faithful ⟨true, 1, 0.5⟩)
        [.compile "%0 + 1", .calculate (.scalar 2) "leakyReLu(-%0)" [], .compile "(",
          .evaluate "%0 + 1" [.scalar 3], .clear]
        (e.replies [.compile "%0 + 1", .calculate (.scalar 2) "leakyReLu(-%0)" [], .compile "(",
          .evaluate "%0 + 1" [.scalar 3], .clear]).1 :=
  ⟨ofSettings _, rfl, replies_unchanged_by_cache rfl _⟩

end TensorFormula.Engine
