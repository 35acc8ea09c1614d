import TensorFormula.Command.Arguments

/-!
# Written command lines

An option can be written as a single word, with its value behind an equals sign, and such words are
read back as the options that they were. So there is a command line for each evaluation, whatever its
texts begin with; only the path of a configuration may not be empty.
-/

namespace TensorFormula.Command

/-! ## Words of options -/

/-- An option as a single word. -/
def Given.word (g : Given) : String :=
  "--" ++ g.choice.name ++ if g.choice.takesValue then "=" ++ g.value else ""

/-- What a command may be given: one of its options, and a value only if the option has one. -/
structure Given.Allowed (allowed : List Choice) (g : Given) : Prop where
  mem : g.choice ∈ allowed
  ne_version : g.choice ≠ .version
  value : g.choice.takesValue = true ∨ g.value = ""

theorem Choice.name_injective {c d : Choice} (h : c.name.toList = d.name.toList) : c = d := by
  cases c <;> cases d <;> simp [name] at h ⊢

theorem Choice.name_bne (choice : Choice) : ∀ c ∈ choice.name.toList, (c != '=') = true := by
  cases choice <;> simp [name]

theorem Choice.find?_name {allowed : List Choice} {choice : Choice} (h : choice ∈ allowed) :
    (allowed.find? fun c => c.name.toList == choice.name.toList) = some choice := by
  obtain ⟨c, hc⟩ : ∃ c, (allowed.find? fun c => c.name.toList == choice.name.toList) = some c := by
    rw [← Option.isSome_iff_exists, List.find?_isSome]
    exact ⟨choice, h, beq_self_eq_true _⟩
  have hname := List.find?_some hc
  rw [hc, Choice.name_injective (beq_iff_eq.1 hname)]

theorem readLong_word {allowed : List Choice} {g : Given} (h : g.Allowed allowed) :
    readLong allowed (g.choice.name.toList ++
      if g.choice.takesValue then '=' :: g.value.toList else []) = some (.options [g]) := by
  obtain ⟨choice, value⟩ := g
  have hname := choice.name_bne
  have hfind := Choice.find?_name h.mem
  have hvalue := h.value
  have hversion : choice ≠ .version := h.ne_version
  dsimp only at hfind hvalue ⊢
  unfold readLong
  rw [List.takeWhile_append_of_pos hname, List.dropWhile_append_of_pos hname]
  cases ht : choice.takesValue with
  | true =>
      rw [if_pos rfl, List.takeWhile_cons_of_neg (by decide), List.append_nil, hfind,
        List.dropWhile_cons_of_neg (by decide)]
      simp [ht]
  | false =>
      obtain rfl : value = "" := by simpa [ht] using hvalue
      rw [if_neg Bool.false_ne_true, List.takeWhile_nil, List.append_nil, hfind]
      simp [ht, hversion]

theorem readWord_word {allowed : List Choice} {g : Given} (h : g.Allowed allowed) :
    readWord allowed g.word = some (.options [g]) := by
  have htext : g.word.toList = '-' :: '-' :: (g.choice.name.toList ++
      if g.choice.takesValue then '=' :: g.value.toList else []) := by
    rw [Given.word]
    split <;> simp
  have hname : g.choice.name.toList ≠ [] := by
    cases g.choice <;> simp [Choice.name]
  have hlong := readLong_word h
  obtain ⟨c, cs, hc⟩ := List.exists_cons_of_ne_nil (List.append_ne_nil_of_left_ne_nil hname
    (if g.choice.takesValue then '=' :: g.value.toList else []))
  rw [hc] at htext hlong
  unfold readWord
  rw [htext]
  exact hlong

/-- Options that are written out are read back. -/
theorem readOptions_words {allowed : List Choice} {given : List Given}
    (h : ∀ g ∈ given, g.Allowed allowed) :
    readOptions allowed (given.map Given.word) = some (given, .finished) := by
  induction given with
  | nil => rfl
  | cons g given ih =>
      rw [List.forall_mem_cons] at h
      rw [List.map_cons, readOptions, readWord_word h.1]
      dsimp only
      rw [ih h.2]
      rfl

/-! ## Command lines of evaluations -/

/-- An option once for each of its values. -/
def options (choice : Choice) (values : List String) : List Given := values.map (Given.mk choice)

/-- The options that ask for an evaluation. -/
def Evaluation.options (config : Option String) (e : Evaluation) : List Given :=
  Command.options .config config.toList ++ Command.options .formula [e.formula] ++
    Command.options .receiver [e.receiver] ++ Command.options .operand e.operands ++
    Command.options .double (if e.width = .double then [""] else []) ++
    Command.options .pretty (if e.pretty then [""] else [])

/-- A command line that asks for an evaluation. -/
def Evaluation.words (config : Option String) (e : Evaluation) : List String :=
  "eval" :: (e.options config).map Given.word

theorem values_append (given more : List Given) (c : Choice) :
    Given.values (given ++ more) c = Given.values given c ++ Given.values more c := by
  rw [Given.values, List.filter_append, List.map_append]
  rfl

theorem values_options (choice : Choice) (values : List String) (c : Choice) :
    Given.values (options choice values) c = if choice = c then values else [] := by
  by_cases h : choice = c
  · simp [Given.values, options, List.filter_map, Function.comp_def, h]
  · simp [Given.values, options, List.filter_map, Function.comp_def, h]

variable (config : Option String) (e : Evaluation)

theorem Evaluation.values_options (c : Choice) : Given.values (e.options config) c =
    match c with
    | .config => config.toList
    | .formula => [e.formula]
    | .receiver => [e.receiver]
    | .operand => e.operands
    | .double => if e.width = .double then [""] else []
    | .pretty => if e.pretty then [""] else []
    | _ => [] := by
  rw [options]
  simp only [values_append, Command.values_options]
  cases c <;> simp

/-- What an option of an evaluation has as its value. -/
theorem Evaluation.mem_of_mem_options {choice : Choice} {value : String}
    (h : ⟨choice, value⟩ ∈ e.options config) : value ∈ Given.values (e.options config) choice := by
  have hmem : ⟨choice, value⟩ ∈ (e.options config).filter fun g => g.choice == choice :=
    List.mem_filter.2 ⟨h, beq_self_eq_true _⟩
  exact List.mem_map_of_mem (f := Given.value) hmem

theorem Evaluation.allowed_of_mem_options {g : Given} (h : g ∈ e.options config) :
    g.Allowed Choice.ofEvaluation := by
  obtain ⟨choice, value⟩ := g
  have hvalue := e.mem_of_mem_options config h
  rw [values_options] at hvalue
  cases choice with
  | verbose | version => cases hvalue
  | config | formula | receiver | operand => exact ⟨by simp [Choice.ofEvaluation], by simp, .inl rfl⟩
  | double | pretty =>
      dsimp only at hvalue
      split at hvalue
      · exact ⟨by simp [Choice.ofEvaluation], by simp, .inr (List.mem_singleton.1 hvalue)⟩
      · cases hvalue

theorem Evaluation.areValid_options (h : config ≠ some "") :
    Given.areValid (e.options config) = true := by
  rw [Given.areValid, List.all_eq_true]
  rintro ⟨choice, value⟩ hg
  have hvalue := e.mem_of_mem_options config hg
  dsimp only
  rw [values_options] at hvalue ⊢
  cases choice with
  | verbose | version => cases hvalue
  | formula | receiver | operand => rfl
  | config =>
      obtain rfl : config = some value := by simpa using hvalue
      have hne : value ≠ "" := fun heq => h (congrArg some heq)
      simpa [Choice.isRepeatable] using hne
  | double | pretty =>
      dsimp only at hvalue ⊢
      split at hvalue
      · next hset =>
          rw [if_pos hset]
          rfl
      · cases hvalue

theorem evaluation?_options : evaluation? (e.options config) = some e := by
  unfold evaluation? Given.has Given.value?
  simp only [Evaluation.values_options]
  obtain ⟨formula, receiver, operands, width, pretty⟩ := e
  cases width <;> cases pretty <;> rfl

/-- There is a command line for each evaluation. -/
theorem request?_words (h : config ≠ some "") :
    request? (e.words config) = some (.evaluate config e) := by
  have hread : readOptions Choice.general (e.words config) =
      some ([], .command "eval" ((e.options config).map Given.word)) := rfl
  have hown : commandOptions? Choice.ofEvaluation ((e.options config).map Given.word) =
      some (e.options config) := by
    rw [commandOptions?, readOptions_words fun _ hg => e.allowed_of_mem_options config hg]
    exact if_pos (e.areValid_options config h)
  have hconfig : (Given.value? (e.options config) .config).or (Given.value? [] .config) = config := by
    rw [Given.value?, Evaluation.values_options]
    cases config <;> rfl
  unfold request?
  rw [hread]
  change (commandOptions? _ _).bind _ = _
  rw [hown, Option.bind_some, evaluation?_options, hconfig]
  rfl

end TensorFormula.Command
