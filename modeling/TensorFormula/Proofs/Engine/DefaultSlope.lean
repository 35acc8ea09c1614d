import TensorFormula.Proofs.Engine.CacheContents
import TensorFormula.Proofs.Formula.Derivatives
import TensorFormula.Proofs.Number.Narrowing

/-!
# The slope of an engine

Settings are accepted by the slope that they give as a double. An engine with double elements works
with that very number. An engine with single elements works with the nearest single number, which is
another kind of number at both ends of the range: a slope below the least single number may become
zero, and one beyond the greatest single number infinite.
-/

namespace TensorFormula

open Binary

/-- The distance of the slope from zero. -/
def Settings.slopeSize (s : Settings) : ℚ :=
  (Format.double.decode (Element.bits s.leakySlope)).size

namespace Engine

variable {α : Type} {s : Settings}

theorem isFinite_of_create {e : Engine α} (h : create s = .ok e) : Element.IsFinite s.leakySlope :=
  (double_isFinite_iff _).1 (create_eq_ok_iff.1 h).1.1

variable [Element α] {e : Engine α}

/-- The leaky functions without a parameter scale by `v` in every evaluation. -/
structure ScalesBy (e : Engine α) (v : α) : Prop where
  leakyRelu : ∀ {formula : String} {n : Node}, parse formula = .ok (.apply .leakyRelu [n]) →
    ∀ operands, (e.evaluate formula operands).1 =
      (n.evaluate operands e.slope).map fun t => t.map (Arithmetic.leaky v)
  dLeakyRelu : ∀ {formula : String} {n : Node}, parse formula = .ok (.apply .dLeakyRelu [n]) →
    ∀ operands, (e.evaluate formula operands).1 =
      (n.evaluate operands e.slope).map fun t => t.map (Arithmetic.leakySlope v)

theorem scalesBy_slope (h : e.Sound) : e.ScalesBy e.slope where
  leakyRelu hp operands := by
    rw [evaluate_fst h, hp]
    exact Node.evaluate_apply_one (fun _ => rfl) operands _
  dLeakyRelu hp operands := by
    rw [evaluate_fst h, hp]
    exact Node.evaluate_apply_one (fun _ => rfl) operands _

/-- After any calls an engine scales by the slope of its settings in the width of its elements. -/
theorem scalesBy_after (h : create s = .ok e) (calls : List (Call α)) :
    (e.after calls).ScalesBy (Element.ofDouble s.leakySlope) := by
  obtain ⟨-, rfl⟩ := create_eq_ok_iff.1 h
  have hslope : ((ofSettings s : Engine α).after calls).slope = Element.ofDouble s.leakySlope := by
    rw [slope, settings_after]
    rfl
  exact hslope ▸ scalesBy_slope (sound_after (sound_ofSettings s) calls)

/-- The slope of accepted settings is a finite number other than zero for an engine with double
elements. For one with single elements it is finite below the middle between the greatest single
number and `2 ^ 128`, and other than zero above the middle between zero and the least single
number. -/
theorem default_slope_in_width (s : Settings) :
    (∀ e : Engine Float, create s = .ok e →
      (∀ calls, (e.after calls).ScalesBy s.leakySlope) ∧
      s.leakySlope.isFinite = true ∧ (s.leakySlope != 0) = true) ∧
    ∀ e : Engine Float32, create s = .ok e →
      (∀ calls, (e.after calls).ScalesBy (Element.ofDouble s.leakySlope)) ∧
      ((Element.ofDouble s.leakySlope : Float32).isFinite = true ↔
        s.slopeSize < 2 ^ 128 - 2 ^ 103) ∧
      (((Element.ofDouble s.leakySlope : Float32) != 0) = true ↔
        2 ^ (-150 : Int) < s.slopeSize) := by
  refine ⟨fun e h => ⟨scalesBy_after h, (create_eq_ok_iff.1 h).1⟩, fun e h => ?_⟩
  have hfinite := isFinite_of_create h
  refine ⟨scalesBy_after h, single_isFinite_ofDouble_iff hfinite, ?_⟩
  rw [bne, Bool.not_eq_true', Bool.eq_false_iff, Ne, single_beq_zero_ofDouble_iff hfinite, not_le,
    Settings.slopeSize]

/-- The standard slope can be used in both widths. -/
theorem default_slope_in_width_standard :
    ∃ (e : Engine Float) (e' : Engine Float32),
      create .standard = .ok e ∧ create .standard = .ok e' ∧
      (∀ calls, (e.after calls).ScalesBy 0.1) ∧
      (∀ calls, (e'.after calls).ScalesBy (Element.ofDouble 0.1)) ∧
      2 ^ (-150 : Int) < Settings.standard.slopeSize ∧
      Settings.standard.slopeSize < 2 ^ 128 - 2 ^ 103 := by
  obtain ⟨hdouble, hsingle⟩ := default_slope_in_width .standard
  obtain ⟨hscales, hfinite, hnonzero⟩ := hsingle _ rfl
  refine ⟨_, _, rfl, rfl, (hdouble _ rfl).1, hscales, hnonzero.1 ?_, hfinite.1 ?_⟩ <;>
    decide +kernel

/-- Accepted slopes of which one becomes zero and the other infinite. -/
theorem single_slope_vanishes_or_overflows :
    (∃ e : Engine Float32, create ⟨true, 256, 1e-46⟩ = .ok e ∧ (e.slope == 0) = true) ∧
    ∃ e : Engine Float32, create ⟨true, 256, 1e39⟩ = .ok e ∧ e.slope.isFinite = false := by
  refine ⟨⟨_, create_eq_ok_iff.2 ⟨?_, rfl⟩, ?_⟩, ⟨_, create_eq_ok_iff.2 ⟨?_, rfl⟩, ?_⟩⟩ <;>
    decide +kernel

end Engine

end TensorFormula
