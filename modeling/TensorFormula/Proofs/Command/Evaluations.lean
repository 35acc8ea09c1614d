import TensorFormula.Proofs.Command.CommandLines
import TensorFormula.Proofs.Command.Reports
import TensorFormula.Proofs.Command.TensorTexts
import TensorFormula.Proofs.Engine.CachedReplies
import TensorFormula.Proofs.Engine.WrittenSettings
import TensorFormula.Proofs.Formula.CanonicalText
import TensorFormula.Proofs.Steps

/-!
# Evaluations from the command line

An evaluation runs in stages: the configuration, the receiver and the operands from left to right
are loaded, and then an engine calculates. Each stage is described by itself here, and the first
that fails decides how the whole ends. A command line for an evaluation prints the value exactly if
no stage fails, and names the stage otherwise.
-/

namespace TensorFormula.Command

/-! ## Configurations -/

/-- What loading a configuration comes to. -/
inductive Configures (files : Files) : Option String → Except SettingsFault Settings → Prop
  | standard : Configures files none (.ok .standard)
  | file {path text : String} (h : files path = .ok text) :
      Configures files (some path) (Settings.ofToml text.toList)
  | unreadable {path reason : String} (h : files path = .error reason) :
      Configures files (some path) (.error (.unreadable path reason))

variable {files : Files} {config : Option String} {e : Evaluation}

theorem Configures.loadSettings_eq {r : Except SettingsFault Settings}
    (h : Configures files config r) : loadSettings files config = r.mapError .settings := by
  cases h with
  | standard => rfl
  | file h => rw [loadSettings, h]
  | unreadable h =>
      rw [loadSettings, h]
      rfl

theorem exists_configures (files : Files) (config : Option String) :
    ∃ r, Configures files config r := by
  cases config with
  | none => exact ⟨_, .standard⟩
  | some path =>
      cases h : files path with
      | ok text => exact ⟨_, .file h⟩
      | error reason => exact ⟨_, .unreadable h⟩

theorem loadSettings_eq_ok_iff {s : Settings} :
    loadSettings files config = .ok s ↔ Configures files config (.ok s) := by
  constructor
  · intro h
    obtain ⟨r, hr⟩ := exists_configures files config
    rw [hr.loadSettings_eq, mapError_eq_ok_iff] at h
    rwa [h] at hr
  · intro h
    exact h.loadSettings_eq

theorem loadSettings_eq_error_iff {f : Failure} : loadSettings files config = .error f ↔
    ∃ fault, Configures files config (.error fault) ∧ f = .settings fault := by
  constructor
  · intro h
    obtain ⟨r, hr⟩ := exists_configures files config
    rw [hr.loadSettings_eq, mapError_eq_error_iff] at h
    obtain ⟨fault, rfl, rfl⟩ := h
    exact ⟨fault, hr, rfl⟩
  · rintro ⟨fault, h, rfl⟩
    exact h.loadSettings_eq

variable {α : Type} [Element α]

omit [Element α] in
/-- There is an engine for every configuration that can be loaded. -/
theorem create_of_configures {s : Settings} (h : Configures files config (.ok s)) :
    Engine.create s = .ok (Engine.ofSettings s : Engine α) := by
  have hvalid : s.Valid := by
    generalize hr : (.ok s : Except SettingsFault Settings) = r at h
    cases h with
    | standard =>
        cases hr
        exact ⟨by decide +kernel, by decide +kernel⟩
    | file => exact (Settings.ofToml_eq_ok_iff.1 hr.symm).1
    | unreadable => cases hr
  exact Engine.create_eq_ok_iff.2 ⟨hvalid, rfl⟩

/-! ## Operands -/

variable (α) in
/-- The first of the arguments that cannot be loaded, by its index. -/
inductive FirstUnloadable (files : Files) : List String → Nat → LoadFault → Prop
  | here {argument : String} {rest : List String} {fault : LoadFault}
      (h : Loads files argument (.error fault : Except LoadFault (Tensor α))) :
      FirstUnloadable files (argument :: rest) 0 fault
  | later {argument : String} {rest : List String} {t : Tensor α} {i : Nat} {fault : LoadFault}
      (h : Loads files argument (.ok t)) (hr : FirstUnloadable files rest i fault) :
      FirstUnloadable files (argument :: rest) (i + 1) fault

/-- Every argument is loaded, each as one of the tensors. -/
def AllLoad (files : Files) : List String → List (Tensor α) → Prop :=
  List.Forall₂ fun argument t => Loads files argument (.ok t)

variable {arguments : List String} {ts : List (Tensor α)} {i : Nat} {f : Failure}

theorem loadOperand_eq_ok_iff {argument : String} {t : Tensor α} :
    loadOperand files i argument = .ok t ↔ Loads files argument (.ok t) := by
  rw [loadOperand, mapError_eq_ok_iff, loads_iff]

theorem loadOperand_eq_error_iff {argument : String} :
    loadOperand files i argument = (.error f : Except Failure (Tensor α)) ↔
      ∃ fault, Loads files argument (.error fault : Except LoadFault (Tensor α)) ∧
        f = .operand i fault := by
  simp only [loadOperand, mapError_eq_error_iff, loads_iff, eq_comm (a := f)]

theorem loadOperands_eq_ok_iff :
    loadOperands files i arguments = .ok ts ↔ AllLoad files arguments ts := by
  induction arguments generalizing i ts with
  | nil => simp [loadOperands, AllLoad, eq_comm]
  | cons argument arguments ih =>
      simp only [loadOperands, bind_eq_ok_iff, loadOperand_eq_ok_iff, ih, AllLoad,
        List.forall₂_cons_left_iff, Except.ok.injEq]
      constructor
      · rintro ⟨t, ht, ts, hts, rfl⟩
        exact ⟨t, ts, ht, hts, rfl⟩
      · rintro ⟨t, ts, ht, hts, rfl⟩
        exact ⟨t, ht, ts, hts, rfl⟩

theorem loadOperands_eq_error_iff :
    loadOperands files i arguments = (.error f : Except Failure (List (Tensor α))) ↔
      ∃ k fault, FirstUnloadable α files arguments k fault ∧ f = .operand (i + k) fault := by
  induction arguments generalizing i with
  | nil =>
      refine iff_of_false (fun h => by cases h) ?_
      rintro ⟨k, fault, h, -⟩
      cases h
  | cons argument arguments ih =>
      simp only [loadOperands, bind_eq_error_iff, loadOperand_eq_error_iff, loadOperand_eq_ok_iff,
        ih, reduceCtorEq, and_false, exists_false, or_false]
      constructor
      · rintro (⟨fault, h, rfl⟩ | ⟨t, ht, k, fault, hk, rfl⟩)
        · exact ⟨0, fault, .here h, rfl⟩
        · exact ⟨k + 1, fault, .later ht hk, by rw [Nat.add_assoc, Nat.add_comm 1 k]⟩
      · rintro ⟨k, fault, hk, rfl⟩
        cases hk with
        | here h => exact .inl ⟨fault, h, rfl⟩
        | @later _ _ t k _ ht hk =>
            exact .inr ⟨t, ht, k, fault, hk, by rw [Nat.add_assoc, Nat.add_comm 1 k]⟩

/-! ## Evaluations -/

/-- All that an evaluation needs is loaded. -/
structure Ready (files : Files) (config : Option String) (e : Evaluation) (engine : Engine α)
    (receiver : Tensor α) (operands : List (Tensor α)) : Prop where
  engine : ∃ s, Configures files config (.ok s) ∧ Engine.create s = .ok engine
  receiver : Loads files e.receiver (.ok receiver)
  operands : AllLoad files e.operands operands

/-- The value that the engine calculates from what is loaded. -/
def Calculates (files : Files) (config : Option String) (e : Evaluation) (t : Tensor α) : Prop :=
  ∃ engine receiver operands, Ready files config e engine receiver operands ∧
    (engine.calculate receiver e.formula operands).1 = .ok t

variable (α) in
/-- The failure of the first stage that fails; each stage before it has succeeded. -/
inductive FailsFirst (files : Files) (config : Option String) (e : Evaluation) : Failure → Prop
  | settings {fault : SettingsFault} (h : Configures files config (.error fault)) :
      FailsFirst files config e (.settings fault)
  | operand {s : Settings} {i : Nat} {fault : LoadFault} (hs : Configures files config (.ok s))
      (h : FirstUnloadable α files (e.receiver :: e.operands) i fault) :
      FailsFirst files config e (.operand i fault)
  | evaluation {engine : Engine α} {receiver : Tensor α} {operands : List (Tensor α)}
      {fault : FormulaFault} (hr : Ready files config e engine receiver operands)
      (h : (engine.calculate receiver e.formula operands).1 = .error fault) :
      FailsFirst files config e (.evaluation e.formula fault)

variable (α) in
/-- The output is the value as JSON, laid out on lines if the evaluation asks for that, and the end
of the line. -/
def Prints (files : Files) (config : Option String) (e : Evaluation) (output : String) : Prop :=
  ∃ t : Tensor α, Calculates files config e t ∧
    output = String.ofList (if e.pretty then Json.pretty t else Json.compact t) ++ "\n"

/-- The line that is printed of a tensor is read as its document. -/
theorem read_line (t : Tensor α) (pretty : Bool) :
    Json.read (String.ofList (if pretty then Json.pretty t else Json.compact t) ++ "\n").toList =
      some (Json.document t, ['\n']) := by
  have hends : Json.Ends ['\n'] := Json.ends_cons (by decide)
  rw [String.toList_append, String.toList_ofList]
  cases pretty with
  | false => exact Json.read_compact t hends
  | true => exact Json.read_pretty t hends

theorem evaluationText_eq_ok_iff {output : String} :
    evaluationText α files config e = .ok output ↔ Prints α files config e output := by
  simp only [evaluationText, resultText, bind_eq_ok_iff, mapError_eq_ok_iff,
    loadSettings_eq_ok_iff, loadOperand_eq_ok_iff, loadOperands_eq_ok_iff, Except.ok.injEq]
  constructor
  · rintro ⟨s, hs, engine, hc, receiver, hr, operands, ho, t, ht, rfl⟩
    exact ⟨t, ⟨engine, receiver, operands, ⟨⟨s, hs, hc⟩, hr, ho⟩, ht⟩, rfl⟩
  · rintro ⟨t, ⟨engine, receiver, operands, ⟨⟨s, hs, hc⟩, hr, ho⟩, ht⟩, rfl⟩
    exact ⟨s, hs, engine, hc, receiver, hr, operands, ho, t, ht, rfl⟩

theorem evaluationText_eq_error_iff :
    evaluationText α files config e = .error f ↔ FailsFirst α files config e f := by
  simp only [evaluationText, bind_eq_error_iff, mapError_eq_ok_iff, mapError_eq_error_iff,
    loadSettings_eq_ok_iff, loadSettings_eq_error_iff, loadOperand_eq_ok_iff,
    loadOperand_eq_error_iff, loadOperands_eq_ok_iff, loadOperands_eq_error_iff, reduceCtorEq,
    and_false, exists_false, or_false]
  constructor
  · rintro (⟨fault, h, rfl⟩ | ⟨s, hs, ⟨fault, hc, -⟩ | ⟨engine, hc, ⟨fault, h, rfl⟩ |
      ⟨receiver, hr, ⟨k, fault, h, rfl⟩ | ⟨operands, ho, fault, h, rfl⟩⟩⟩⟩)
    · exact .settings h
    · -- loaded settings are valid, so there is an engine for them
      rw [create_of_configures hs] at hc
      cases hc
    · exact .operand hs (.here h)
    · rw [Nat.add_comm]
      exact .operand hs (.later hr h)
    · exact .evaluation ⟨⟨s, hs, hc⟩, hr, ho⟩ h
  · intro h
    cases h with
    | settings h => exact .inl ⟨_, h, rfl⟩
    | operand hs h =>
        refine .inr ⟨_, hs, .inr ⟨_, create_of_configures hs, ?_⟩⟩
        cases h with
        | here h => exact .inl ⟨_, h, rfl⟩
        | @later _ _ t k _ ht h =>
            exact .inr ⟨t, ht, .inl ⟨k, _, h, by rw [Nat.add_comm]⟩⟩
    | evaluation hr h =>
        obtain ⟨⟨s, hs, hc⟩, hr, ho⟩ := hr
        exact .inr ⟨s, hs, .inr ⟨_, hc, .inr ⟨_, hr, .inr ⟨_, ho, _, h, rfl⟩⟩⟩⟩

theorem FailsFirst.exists_stage (h : FailsFirst α files config e f) :
    ∃ s, f.stage? = some s := by
  cases h <;> exact ⟨_, rfl⟩

/-! ## Arguments with the same text -/

/-- The arguments are the same, or give the same text. -/
def Alike (files : Files) (argument argument' : String) : Prop :=
  argument = argument' ∨ ∃ text, Gives files argument text ∧ Gives files argument' text

theorem Alike.loadTensor_eq {argument argument' : String} (h : Alike files argument argument') :
    (loadTensor files argument : Except LoadFault (Tensor α)) = loadTensor files argument' := by
  obtain rfl | ⟨text, h, h'⟩ := h
  · rfl
  · rw [h.loadTensor_eq, h'.loadTensor_eq]

theorem Alike.loadOperand_eq {argument argument' : String} (h : Alike files argument argument')
    (i : Nat) :
    (loadOperand files i argument : Except Failure (Tensor α)) = loadOperand files i argument' := by
  rw [loadOperand, loadOperand, h.loadTensor_eq]

theorem loadOperands_eq_of_alike {arguments' : List String}
    (h : List.Forall₂ (Alike files) arguments arguments') (i : Nat) :
    (loadOperands files i arguments : Except Failure (List (Tensor α))) =
      loadOperands files i arguments' := by
  induction h generalizing i with
  | nil => rfl
  | cons ha _ ih => rw [loadOperands, loadOperands, ha.loadOperand_eq, ih]

/-- The same formula of the same tensors, of which some may be given in another way. -/
structure Evaluation.Alike (files : Files) (e e' : Evaluation) : Prop where
  formula : e.formula = e'.formula
  receiver : Command.Alike files e.receiver e'.receiver
  operands : List.Forall₂ (Command.Alike files) e.operands e'.operands
  width : e.width = e'.width
  pretty : e.pretty = e'.pretty

theorem Evaluation.Alike.evaluationText_eq {e' : Evaluation} (h : e.Alike files e')
    (config : Option String) :
    evaluationText α files config e = evaluationText α files config e' := by
  simp only [evaluationText, h.formula, h.pretty, h.receiver.loadOperand_eq,
    loadOperands_eq_of_alike h.operands]

theorem Evaluation.Alike.runEvaluation_eq {e' : Evaluation} (h : e.Alike files e')
    (config : Option String) : runEvaluation files config e = runEvaluation files config e' := by
  simp only [runEvaluation, h.width, h.evaluationText_eq]

/-! ## Outcomes -/

/-- What an evaluation prints, with the elements it asks for. -/
def Evaluation.Prints (files : Files) (config : Option String) (e : Evaluation) (output : String) :
    Prop :=
  match e.width with
  | .single => Command.Prints Float32 files config e output
  | .double => Command.Prints Float files config e output

/-- How an evaluation fails, with the elements it asks for. -/
def Evaluation.FailsFirst (files : Files) (config : Option String) (e : Evaluation) (f : Failure) :
    Prop :=
  match e.width with
  | .single => Command.FailsFirst Float32 files config e f
  | .double => Command.FailsFirst Float files config e f

theorem Evaluation.FailsFirst.exists_stage (h : e.FailsFirst files config f) :
    ∃ s, f.stage? = some s := by
  unfold Evaluation.FailsFirst at h
  split at h <;> exact h.exists_stage

theorem runEvaluation_of_prints {output : String} (h : e.Prints files config output) :
    runEvaluation files config e = .success output := by
  unfold Evaluation.Prints at h
  unfold runEvaluation
  cases hw : e.width with
  | single | double =>
      rw [hw] at h
      dsimp only at h ⊢
      rw [evaluationText_eq_ok_iff.2 h]

theorem runEvaluation_of_failsFirst (h : e.FailsFirst files config f) :
    runEvaluation files config e = .failure "" f := by
  unfold Evaluation.FailsFirst at h
  unfold runEvaluation
  cases hw : e.width with
  | single | double =>
      rw [hw] at h
      dsimp only at h ⊢
      rw [evaluationText_eq_error_iff.2 h]

/-- An evaluation comes to a value or fails at some stage. -/
theorem Evaluation.prints_or_failsFirst (files : Files) (config : Option String)
    (e : Evaluation) :
    (∃ output, e.Prints files config output) ∨ ∃ f, e.FailsFirst files config f := by
  have hsettled : ∀ {α : Type} [Element α],
      (∃ output, Command.Prints α files config e output) ∨
        ∃ f, Command.FailsFirst α files config e f := by
    intro α _
    cases h : evaluationText α files config e with
    | ok output => exact .inl ⟨output, evaluationText_eq_ok_iff.1 h⟩
    | error f => exact .inr ⟨f, evaluationText_eq_error_iff.1 h⟩
  unfold Evaluation.Prints Evaluation.FailsFirst
  cases e.width with
  | single | double => exact hsettled

/-- The outcome is a failure that is reported with the stage at which it happened. -/
structure Outcome.Reports (o : Outcome) (f : Failure) : Prop where
  exitCode : o.exitCode = 1
  output : o.output = ""
  complaint : o.complaint = f.reported ++ "\n"
  stage : ∃ s, f.stage? = some s ∧ ∀ s' : Stage, s'.heading.toList <+: o.complaint.toList ↔ s' = s

theorem reports_of_failsFirst (h : e.FailsFirst files config f) :
    (runEvaluation files config e).Reports f := by
  rw [runEvaluation_of_failsFirst h]
  obtain ⟨s, hs⟩ := h.exists_stage
  exact ⟨rfl, rfl, rfl, s, hs, fun s' => f.heading_begins_iff hs "\n" s'⟩

theorem run_of_request {words : List String} (h : request? words = some (.evaluate config e)) :
    run files words = runEvaluation files config e := by
  rw [run, h]
  rfl

/-- Every evaluation has a command line. A command line for an evaluation succeeds exactly if the
engine of the configuration calculates a value from the tensors that are loaded, and prints that
value as JSON, which is read as its document; otherwise it reports the first stage that fails. It
makes no difference whether a tensor is given by its text or by a file. The text of an array is
loaded as a vector, any other text as the tensor that it describes. -/
theorem command_line_calculates (files : Files) :
    (∀ (config : Option String) (e : Evaluation), config ≠ some "" →
      request? (e.words config) = some (.evaluate config e)) ∧
    (∀ (words : List String) (config : Option String) (e : Evaluation),
      request? words = some (.evaluate config e) →
      ((run files words).exitCode = 0 ↔ ∃ output, e.Prints files config output) ∧
      (∀ output, e.Prints files config output → (run files words).output = output) ∧
      ((run files words).exitCode ≠ 0 → ∃ f, e.FailsFirst files config f) ∧
      ∀ f, e.FailsFirst files config f → (run files words).Reports f) ∧
    (∀ (words words' : List String) (config : Option String) (e e' : Evaluation),
      request? words = some (.evaluate config e) → request? words' = some (.evaluate config e') →
      e.Alike files e' → run files words = run files words') ∧
    ∀ {α : Type} [Element α],
      (∀ (t : Tensor α) (pretty : Bool),
        Json.read
            (String.ofList (if pretty then Json.pretty t else Json.compact t) ++ "\n").toList =
          some (Json.document t, ['\n'])) ∧
      ∀ argument text : String, Gives files argument text →
        (∀ xs : List α, Json.IsArrayOf text.toList xs →
          ∃ t : Tensor α, Loads files argument (.ok t) ∧ t.shape.dims = [xs.length] ∧
            t.content.toList = xs) ∧
        ((text.toList.dropWhile Text.isBlank).head? ≠ some '[' → ∀ t : Tensor α,
          Loads files argument (.ok t) ↔
            Json.Describes text.toList t.shape.dims t.content.toList) := by
  refine ⟨fun config e h => request?_words config e h, fun words config e h => ?_,
    fun words words' config e e' h h' halike => ?_,
    fun {α} _ => ⟨fun t pretty => read_line t pretty, fun argument text hgives => ?_⟩⟩
  · rw [run_of_request h]
    refine ⟨⟨fun hexit => ?_, ?_⟩, fun output hprints => ?_, fun hexit => ?_,
      fun f hf => reports_of_failsFirst hf⟩
    · refine (e.prints_or_failsFirst files config).resolve_right ?_
      rintro ⟨f, hf⟩
      rw [runEvaluation_of_failsFirst hf] at hexit
      cases hexit
    · rintro ⟨output, hprints⟩
      rw [runEvaluation_of_prints hprints]
      rfl
    · rw [runEvaluation_of_prints hprints]
      rfl
    · refine (e.prints_or_failsFirst files config).resolve_left ?_
      rintro ⟨output, hprints⟩
      rw [runEvaluation_of_prints hprints] at hexit
      exact hexit rfl
  · rw [run_of_request h, run_of_request h', halike.runEvaluation_eq]
  · refine ⟨fun xs harray => ?_, fun hfirst t => ?_⟩
    · obtain ⟨t, ht, hdims, hcontent⟩ := exists_readTensor_array harray
      exact ⟨t, loads_iff.2 (hgives.loadTensor_eq.trans ht), hdims, hcontent⟩
    · rw [loads_iff, hgives.loadTensor_eq, readTensor_eq_ok_iff hfirst]

/-- There is a single file, with two numbers. -/
def sampleFiles : Files := fun path =>
  if path = "row.json" then .ok "[1, 2]" else .error "No such file or directory (os error 2)"

/-- Asks for the first operand. -/
def sampleEvaluation (operands : List String) (pretty : Bool) : Evaluation where
  formula := "%1"
  receiver := "[1, 2]"
  operands := operands
  width := .double
  pretty := pretty

def sampleRun (operands : List String) (pretty : Bool) : Outcome :=
  run sampleFiles ((sampleEvaluation operands pretty).words none)

theorem gives_row : Gives sampleFiles "[1, 2]" "[1, 2]" ∧
    Gives sampleFiles "@row.json" "[1, 2]" := by
  have hfile : sampleFiles "row.json" = .ok "[1, 2]" := if_pos rfl
  have hpath : "@row.json" = "@" ++ "row.json" := by simp
  refine ⟨.inline (by simp), ?_⟩
  rw [hpath]
  exact .file hfile

theorem isArrayOf_row : Json.IsArrayOf "[1, 2]".toList [(1 : Float), 2] := by
  have hone : Json.IsNumberOf ['1'] (1 : Float) := Json.isNumberOf_toDigits (n := 1) (by decide)
  have htwo : Json.IsNumberOf ['2'] (2 : Float) := Json.isNumberOf_toDigits (n := 2) (by decide)
  have hnil : Json.IsBlank [] := List.forall_mem_nil _
  have hblank : Json.IsBlank [' '] := List.forall_mem_singleton.2 rfl
  refine ⟨[], _, [], hnil, .more hnil hone hnil (.last hblank htwo hnil), hnil, ?_⟩
  simp

theorem loads_gone : Loads sampleFiles "@gone.json" (.error (.unreadable "gone.json"
    "No such file or directory (os error 2)") : Except LoadFault (Tensor Float)) := by
  have hfile : sampleFiles "gone.json" = .error "No such file or directory (os error 2)" :=
    if_neg (by simp)
  have hpath : "@gone.json" = "@" ++ "gone.json" := by simp
  rw [hpath]
  exact .unreadable hfile

theorem parse_firstOperand : parse "%1" = .ok (.operand 1) := by
  have htext : (Node.operand 1).toText = "%1" := rfl
  have hw : (Node.operand 1).WellFormed := by simp [Node.WellFormed]
  rw [← htext]
  exact hw.parse_toText.1 (by decide)

theorem calculates_firstOperand {operand : String} {r t : Tensor Float} (pretty : Bool)
    (hr : Loads sampleFiles "[1, 2]" (.ok r)) (ht : Loads sampleFiles operand (.ok t)) :
    Calculates sampleFiles none (sampleEvaluation [operand] pretty) t := by
  have hs : Configures sampleFiles none (.ok .standard) := .standard
  refine ⟨_, r, [t], ⟨⟨_, hs, create_of_configures hs⟩, hr, .cons ht .nil⟩, ?_⟩
  rw [Engine.calculate, Engine.evaluate_fst (Engine.sound_ofSettings _)]
  change (parse "%1").bind _ = _
  rw [parse_firstOperand]
  rfl

/-- The row as it is printed on one line. -/
def rowLine : String := "\x7b\"sizes\":[2],\"content\":[1.0,2.0]\x7d\n"

/-- The row as it is printed with one item to a line. -/
def rowLines : String :=
  "\x7b\n  \"sizes\": [\n    2\n  ],\n  \"content\": [\n    1.0,\n    2.0\n  ]\n\x7d\n"

section Row

variable {t : Tensor Float} (hdims : t.shape.dims = [2]) (hcontent : t.content.toList = [1, 2])

include hdims hcontent

theorem texts_row : String.ofList (Json.compact t) ++ "\n" = rowLine ∧
    String.ofList (Json.pretty t) ++ "\n" = rowLines := by
  have hsizes : Json.sizeTexts t = [['2']] := by
    rw [Json.sizeTexts, hdims]
    rfl
  have hone : Json.elementText (1 : Float) = ['1', '.', '0'] := by decide +kernel
  have htwo : Json.elementText (2 : Float) = ['2', '.', '0'] := by decide +kernel
  have hcontents : Json.contentTexts t = [['1', '.', '0'], ['2', '.', '0']] := by
    rw [Json.contentTexts, hcontent, List.map_cons, List.map_singleton, hone, htwo]
  constructor
  · unfold Json.compact
    rw [hsizes, hcontents]
    rfl
  · unfold Json.pretty
    rw [hsizes, hcontents]
    rfl

/-- What is printed of the row describes it. -/
theorem describes_row : Json.Describes rowLine.toList t.shape.dims t.content.toList := by
  have hread := read_line t false
  rw [if_neg Bool.false_ne_true, (texts_row hdims hcontent).1] at hread
  rw [Json.describes_iff_of_read hread rfl]
  have hsmall : ∀ d ∈ t.shape.dims, d < Nat.pow 2 64 := by
    rw [hdims]
    decide
  have hback : ∀ x ∈ t.content.toList, Json.ReadsBack x := by
    have hone : Json.ReadsBack (1 : Float) :=
      Json.readsBack_of_elementOf? (by decide +kernel) (by decide +kernel)
    have htwo : Json.ReadsBack (2 : Float) :=
      Json.readsBack_of_elementOf? (by decide +kernel) (by decide +kernel)
    simp [hcontent, hone, htwo]
  exact ⟨Json.sizesOf?_ofNat hsmall, Json.contentOf?_elementValues hback⟩

end Row

/-- The first operand is loaded and the second is not; without it the first is printed, as it is if
its text is given at once, on one line or on several. What is printed can be given for a tensor
again. -/
theorem command_line_calculates_row :
    ((sampleRun ["@row.json", "@gone.json"] false).exitCode = 1 ∧
      ∀ s : Stage, s.heading.toList <+:
        (sampleRun ["@row.json", "@gone.json"] false).complaint.toList ↔ s = .operand 2) ∧
    ((sampleRun ["@row.json"] false).exitCode = 0 ∧
      (sampleRun ["@row.json"] false).output = rowLine ∧
      (sampleRun ["@row.json"] true).output = rowLines) ∧
    sampleRun ["@row.json"] false = sampleRun ["[1, 2]"] false ∧
    ∃ t : Tensor Float, Loads sampleFiles "@row.json" (.ok t) ∧ t.shape.dims = [2] ∧
      t.content.toList = [1, 2] ∧ Loads sampleFiles rowLine (.ok t) := by
  obtain ⟨hwords, hrun, hsame, hload⟩ := command_line_calculates sampleFiles
  have hrequest : ∀ operands pretty, request? ((sampleEvaluation operands pretty).words none) =
      some (.evaluate none (sampleEvaluation operands pretty)) := fun operands pretty =>
    hwords none (sampleEvaluation operands pretty) (by simp)
  obtain ⟨t, ht, hdims, hcontent⟩ :=
    (hload.2 "@row.json" "[1, 2]" gives_row.2).1 [1, 2] isArrayOf_row
  obtain ⟨r, hr, -, -⟩ := (hload.2 "[1, 2]" "[1, 2]" gives_row.1).1 [1, 2] isArrayOf_row
  have hfails : (sampleEvaluation ["@row.json", "@gone.json"] false).FailsFirst sampleFiles none
      (.operand 2 (.unreadable "gone.json" "No such file or directory (os error 2)")) :=
    .operand .standard (.later hr (.later ht (.here loads_gone)))
  obtain ⟨hline, hlines⟩ := texts_row hdims hcontent
  have hcompact : (sampleEvaluation ["@row.json"] false).Prints sampleFiles none rowLine :=
    ⟨t, calculates_firstOperand false hr ht, hline.symm⟩
  have hpretty : (sampleEvaluation ["@row.json"] true).Prints sampleFiles none rowLines :=
    ⟨t, calculates_firstOperand true hr ht, hlines.symm⟩
  have halike : (sampleEvaluation ["@row.json"] false).Alike sampleFiles
      (sampleEvaluation ["[1, 2]"] false) :=
    ⟨rfl, .inl rfl, .cons (.inr ⟨_, gives_row.2, gives_row.1⟩) .nil, rfl, rfl⟩
  refine ⟨?_, ⟨?_, ?_, ?_⟩, ?_, t, ht, hdims, hcontent, ?_⟩
  · obtain ⟨-, -, -, hreports⟩ := hrun _ none _ (hrequest ["@row.json", "@gone.json"] false)
    obtain ⟨hexit, -, -, s, hs, hnames⟩ := hreports _ hfails
    obtain rfl := Option.some.inj hs
    exact ⟨hexit, hnames⟩
  · exact (hrun _ none _ (hrequest ["@row.json"] false)).1.2 ⟨_, hcompact⟩
  · exact (hrun _ none _ (hrequest ["@row.json"] false)).2.1 _ hcompact
  · exact (hrun _ none _ (hrequest ["@row.json"] true)).2.1 _ hpretty
  · exact hsame _ _ none _ _ (hrequest _ _) (hrequest _ _) halike
  · have hgives : Gives sampleFiles rowLine rowLine := .inline (by decide)
    exact ((hload.2 _ _ hgives).2 (by decide) t).2 (describes_row hdims hcontent)

end TensorFormula.Command
