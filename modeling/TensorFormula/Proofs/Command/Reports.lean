import TensorFormula.Command.Failure
import TensorFormula.Proofs.Json.NumberText

/-!
# Reports of failures

A report begins with the stage that failed, in words from which no other stage could be read: the
number of an operand ends with its line.
-/

namespace TensorFormula.Command

/-- The stages of an evaluation; the operand with the index zero is the receiver. -/
inductive Stage
  | settings
  | operand (index : Nat)
  | evaluation

/-- How a report of a stage begins. -/
def Stage.heading : Stage → String
  | settings => "Error: configuration error: "
  | operand index =>
      if index = 0 then "Error: receiver (%0)\n" else "Error: operand %" ++ toString index ++ "\n"
  | evaluation => "Error: failed to evaluate '"

def Failure.stage? : Failure → Option Stage
  | settings _ => some .settings
  | operand i _ => some (.operand i)
  | evaluation .. => some .evaluation
  | formula _ => none

/-! ## Headings -/

theorem takeWhile_toDigits (n : Nat) (rest : List Char) :
    (Nat.toDigits 10 n ++ '\n' :: rest).takeWhile (· != '\n') = Nat.toDigits 10 n := by
  have hdigits : ∀ c ∈ Nat.toDigits 10 n, (c != '\n') = true := by
    intro c hc
    have hdigit := isDigit_toDigits hc
    rw [bne_iff_ne]
    rintro rfl
    cases hdigit
  rw [List.takeWhile_append_of_pos hdigits, List.takeWhile_cons_of_neg (by decide),
    List.append_nil]

/-- A number is told by its digits up to the end of the line. -/
theorem eq_of_line_begins {m n : Nat}
    (h : Nat.toDigits 10 m ++ ['\n'] <+: Nat.toDigits 10 n ++ ['\n']) : m = n := by
  obtain ⟨rest, hrest⟩ := h
  rw [List.append_assoc] at hrest
  have hdigits : Nat.toDigits 10 m = Nat.toDigits 10 n := by
    rw [← takeWhile_toDigits m rest, ← takeWhile_toDigits n []]
    exact congrArg _ hrest
  calc
    m = Nat.ofDigitChars 10 (Nat.toDigits 10 m) 0 := Nat.ofDigitChars_ten_toDigits.symm
    _ = Nat.ofDigitChars 10 (Nat.toDigits 10 n) 0 := by rw [hdigits]
    _ = n := Nat.ofDigitChars_ten_toDigits

namespace Stage

theorem eq_of_operand_begins {i j : Nat}
    (h : (operand i).heading.toList <+: (operand j).heading.toList) : i = j := by
  by_cases hi : i = 0
  · by_cases hj : j = 0
    · rw [hi, hj]
    · simp [heading, hi, hj] at h
  · by_cases hj : j = 0
    · simp [heading, hi, hj] at h
    · refine eq_of_line_begins ?_
      simpa [heading, hi, hj, Nat.toString_eq_ofList_toDigits] using h

/-- Headings of different stages differ in their first letter. -/
theorem eq_of_heading_begins {s s' : Stage} (h : s.heading.toList <+: s'.heading.toList) :
    s = s' := by
  cases s with
  | settings =>
      cases s' with
      | settings => rfl
      | operand j => by_cases hj : j = 0 <;> simp [heading, hj] at h
      | evaluation => simp [heading] at h
  | operand i =>
      cases s' with
      | operand j => rw [eq_of_operand_begins h]
      | settings | evaluation => by_cases hi : i = 0 <;> simp [heading, hi] at h
  | evaluation =>
      cases s' with
      | settings => simp [heading] at h
      | operand j => by_cases hj : j = 0 <;> simp [heading, hj] at h
      | evaluation => rfl

/-- No text begins with the headings of two stages. -/
theorem eq_of_begins {s s' : Stage} {cs : List Char} (h : s.heading.toList <+: cs)
    (h' : s'.heading.toList <+: cs) : s = s' := by
  obtain h | h := List.prefix_or_prefix_of_prefix h h'
  · exact eq_of_heading_begins h
  · exact (eq_of_heading_begins h).symm

end Stage

/-! ## Reports -/

/-- A tensor that cannot be loaded has a cause. -/
theorem LoadFault.causes_ne_nil (f : LoadFault) : f.causes ≠ [] := by
  cases f with
  | notTensor f => cases f <;> simp [causes]
  | _ => simp [causes]

/-- What is reported of a failure. -/
def Failure.reported (f : Failure) : String := report f.outline (f.causes.map Cause.text)

theorem report_nil (outline : String) : report outline [] = "Error: " ++ outline := by
  simp [report]

/-- The outline is a line of its own if there are causes. -/
theorem exists_report_eq {causes : List String} (h : causes ≠ []) (outline : String) :
    ∃ rest, report outline causes = "Error: " ++ outline ++ "\n" ++ rest := by
  refine ⟨"\nCaused by:\n" ++ String.intercalate "\n" (causeLines causes), ?_⟩
  have hline : "\n\nCaused by:\n" = "\n" ++ "\nCaused by:\n" := by simp
  have hsome : causes.isEmpty = false := by simpa using h
  rw [report, hsome, if_neg Bool.false_ne_true, hline]
  simp only [String.append_assoc]

theorem Failure.exists_reported_eq {f : Failure} {s : Stage} (h : f.stage? = some s) :
    ∃ rest, f.reported = s.heading ++ rest := by
  cases f with
  | settings fault =>
      obtain rfl := Option.some.inj h
      refine ⟨fault.reason, ?_⟩
      have hreport : (Failure.settings fault).reported =
          "Error: " ++ ("configuration error: " ++ fault.reason) := report_nil _
      have hheading : "Error: " ++ "configuration error: " = Stage.settings.heading := by
        simp [Stage.heading]
      rw [hreport, ← String.append_assoc, hheading]
  | operand i fault =>
      obtain rfl := Option.some.inj h
      have hcauses : fault.causes.map Cause.text ≠ [] := by simpa using fault.causes_ne_nil
      obtain ⟨rest, hrest⟩ := exists_report_eq hcauses (operandName i)
      refine ⟨rest, hrest.trans (congrArg (· ++ rest) ?_)⟩
      cases i with
      | zero => simp [operandName, Stage.heading]
      | succ i =>
          have hheading : "Error: " ++ "operand %" = "Error: operand %" := by simp
          rw [operandName, if_neg (Nat.succ_ne_zero i), Stage.heading,
            if_neg (Nat.succ_ne_zero i), ← hheading]
          simp only [String.append_assoc]
  | evaluation text fault =>
      obtain rfl := Option.some.inj h
      obtain ⟨rest, hrest⟩ := exists_report_eq (List.cons_ne_nil fault.message [])
        ("failed to evaluate '" ++ text ++ "'")
      have hheading : "Error: " ++ "failed to evaluate '" = Stage.evaluation.heading := by
        simp [Stage.heading]
      refine ⟨text ++ "'" ++ "\n" ++ rest, hrest.trans ?_⟩
      rw [← hheading]
      simp only [String.append_assoc]
  | formula fault => cases h

/-- A report, whatever follows it, names the stage that failed and no other. -/
theorem Failure.heading_begins_iff {f : Failure} {s : Stage} (h : f.stage? = some s)
    (later : String) (s' : Stage) :
    s'.heading.toList <+: (f.reported ++ later).toList ↔ s' = s := by
  have hprefix : s.heading.toList <+: (f.reported ++ later).toList := by
    obtain ⟨rest, hrest⟩ := exists_reported_eq h
    rw [hrest, String.append_assoc, String.toList_append]
    exact List.prefix_append _ _
  constructor
  · intro h'
    exact Stage.eq_of_begins h' hprefix
  · rintro rfl
    exact hprefix

end TensorFormula.Command
