import TensorFormula.Proofs.Memory.Workspaces

/-!
# Runs keep every tensor sound

One step of a memory is the step of the workspace whose blocks it holds, and so is a run.
-/

namespace TensorFormula.Memory

open Block Workspace

variable {α β γ : Type}

/-! ## Names -/

theorem get_blocks (w : Workspace α) (name : String) :
    w.blocks.get name = told Tensor.block (w.get name) := by
  rw [get, blocks, Workspace.get]
  cases w.find? name <;> rfl

theorem find?_of_get {w : Workspace α} {name : String} {t : Tensor α}
    (h : w.get name = .ok t) : w.find? name = some t := by
  rw [Workspace.get] at h
  split at h
  · next hf => exact Except.ok.inj h ▸ hf
  · cases h

theorem mapM_get_blocks (w : Workspace α) (names : List String) :
    names.mapM w.blocks.get = told (List.map Tensor.block) (names.mapM w.get) := by
  induction names with
  | nil => rfl
  | cons name names ih =>
      rw [List.mapM_cons, List.mapM_cons, get_blocks, ih]
      cases w.get name with
      | error f => rfl
      | ok t => cases names.mapM w.get <;> rfl

theorem put_blocks (w : Workspace α) (name : String) (t : Tensor α) :
    w.blocks.put name t.block = (w.put name t).blocks := by
  funext other
  by_cases h : other = name
  · rw [h, put, Function.update_self, blocks, find?_put_self]
    rfl
  · rw [put, Function.update_of_ne h, blocks, blocks, find?_put_of_ne w t h]

theorem put_blocks_same {w : Workspace α} {name : String} {t : Tensor α}
    (h : w.find? name = some t) : w.blocks.put name t.block = w.blocks := by
  rw [put, Function.update_eq_self_iff, blocks, h]
  rfl

theorem sound_of_blocks {w : Workspace α} {name : String} {b : Block α}
    (h : w.blocks name = some b) : b.Sound := by
  obtain ⟨t, -, ht⟩ := Option.map_eq_some_iff.1 h
  exact (sound_iff b).2 ⟨t, ht⟩

/-! ## Recipes -/

theorem follows_inStep {p : Except (Stop TensorFault) γ} {f : β → γ} {r : Except TensorFault β}
    (h : Follows p f r) : Follows (inStep p) f (ofTensor r) :=
  h.mapError Fault.tensor

/-- What changing the tensor `t` leaves: the answer, and the tensor or its new state. -/
def Alters (p : Except (Stop Fault) (Answer α) × Block α) (t : Tensor α)
    (r : Except Fault (Answer α × Tensor α)) : Prop :=
  p.1 = .error (.trap .oversize) ∨ p = match r with
    | .ok (a, u) => (.ok a, u.block)
    | .error f => (.error (.fault f), t.block)

theorem alters_inPlace {p : InPlace α β} {t : Tensor α} {r : Except TensorFault (β × Tensor α)}
    (f : β → Answer α) (h : Performs p t r) :
    Alters (inPlace p t.block f) t ((ofTensor r).map fun x => (f x.1, x.2)) := by
  rw [inPlace]
  obtain h | h := h
  · rw [h]
    exact .inl rfl
  · rw [h]
    cases r with
    | error f => exact .inr rfl
    | ok u => exact .inr rfl

theorem alters_unit {p : InPlace α Unit} {t : Tensor α} {r : Except TensorFault (Tensor α)}
    (h : Performs p t (r.map fun u => ((), u))) :
    Alters (inPlace p t.block fun _ => .done) t ((ofTensor r).map fun u => (.done, u)) := by
  have ha := alters_inPlace (fun _ => .done) h
  cases r with
  | error f => exact ha
  | ok u => exact ha

variable [Element α]

theorem readBlock_follows (cs : List Char) :
    Follows (readBlock cs : Except _ (Block α)) Tensor.block (Json.readTensor cs) := by
  refine Follows.bind (.inr rfl) fun ⟨v, rest⟩ => ?_
  refine Follows.bind (.inr rfl) fun ⟨s, c⟩ => ?_
  refine Follows.bind (.inr rfl) fun sizes => ?_
  refine Follows.bind (.inr rfl) fun content => ?_
  have hmake : Json.makeTensor sizes content =
      (Tensor.ofArray ⟨sizes⟩ content.toArray).mapError Json.Fault.tensor := by
    rw [Json.makeTensor]
    cases Tensor.ofArray ⟨sizes⟩ content.toArray <;> rfl
  rw [hmake]
  refine ((ofArray_follows sizes content.toArray).mapError Json.Fault.tensor).bind fun t => ?_
  refine Follows.bind (.inr rfl) fun _ => ?_
  exact .inr rfl

theorem follow_follows (w : Workspace α) (r : Recipe α) :
    Follows (w.blocks.follow r) Tensor.block (w.follow r) := by
  cases r with
  | zeros s => exact follows_inStep (full_follows s.dims 0)
  | full s v => exact follows_inStep (full_follows s.dims v)
  | scalar v => exact .inr rfl
  | content s vs => exact follows_inStep (ofArray_follows s.dims vs.toArray)
  | rows rows => exact follows_inStep (ofRows_follows rows)
  | json text => exact (readBlock_follows text.toList).mapError Fault.json
  | copy name => exact .inr (get_blocks w name)
  | product left right =>
      refine Follows.bind (.inr (get_blocks w left)) fun l => ?_
      refine Follows.bind (.inr (get_blocks w right)) fun r => ?_
      exact follows_inStep (matmul_follows l r)
  | combination op left right =>
      refine Follows.bind (.inr (get_blocks w left)) fun l => ?_
      refine Follows.bind (.inr (get_blocks w right)) fun r => ?_
      exact follows_inStep (finish_follows (apply_performs op l r))
  | formula text receiver operands =>
      refine Follows.bind (.inr (get_blocks w receiver)) fun t => ?_
      refine Follows.bind (.inr (mapM_get_blocks w operands)) fun us => ?_
      exact (calculate_follows t text us).mapError Fault.formula

/-! ## Changes and answers -/

theorem alter_alters (w : Workspace α) (t : Tensor α) (c : Change α) :
    Alters (w.blocks.alter t.block c) t (w.alter t c) := by
  cases c with
  | set index v => exact alters_unit (.inr (setElement_eq t index v))
  | write pattern source => exact alters_inPlace .count (.inr (writeSlice_eq t pattern source))
  | fill pattern v => exact alters_inPlace .count (.inr (fill_eq t pattern v))
  | put k v => exact .inr rfl
  | map f => exact .inr rfl
  | applyScalar op v => exact .inr rfl
  | rearrange r => exact alters_unit (rearrange_performs r t)
  | softmax =>
      have h : Performs softmax t ((Except.ok t.softmax).map fun u => ((), u)) :=
        Performs.ok (run_softmax t)
      exact alters_unit h
  | apply op right =>
      rw [alter, Workspace.alter, get_blocks]
      cases w.get right with
      | error f => exact .inr rfl
      | ok r => exact alters_unit (apply_performs op t r)
  | assign text operands =>
      rw [alter, Workspace.alter, mapM_get_blocks]
      cases operands.mapM w.get with
      | error f => exact .inr rfl
      | ok us =>
          rw [told_ok]
          dsimp only [bind, Except.bind]
          obtain h | h := calculate_follows t text us
          · rw [h]
            exact .inl rfl
          · rw [h]
            cases t.calculate text us with
            | error f => exact .inr rfl
            | ok u => exact .inr rfl

theorem answer_eq (w : Workspace α) (t : Tensor α) (q : Question α) :
    w.blocks.answer t.block q = told id (w.answer t q) := by
  cases q with
  | element index =>
      rw [answer, Workspace.answer, element_eq]
      cases t.get index <;> rfl
  | slice pattern buffer =>
      rw [answer, Workspace.answer, readSlice_eq]
      cases t.readSlice pattern buffer <;> rfl
  | equal right | sameShape right | near right _ =>
      rw [answer, Workspace.answer, get_blocks]
      cases w.get right <;> rfl
  | json => rfl

/-! ## Steps and runs -/

theorem step_blocks (w : Workspace α) (s : Step α) :
    w.blocks.step s = .error .oversize ∨
      w.blocks.step s = .ok ((w.step s).1, (w.step s).2.blocks) := by
  cases s with
  | make name recipe =>
      rw [step, Workspace.step, Workspace.attempt]
      obtain h | h := follow_follows w recipe
      · rw [h]
        exact .inl rfl
      · rw [h]
        cases w.follow recipe with
        | error f => exact .inr rfl
        | ok t =>
            dsimp only [told_ok]
            rw [put_blocks]
            exact .inr rfl
  | change name change =>
      rw [step, Workspace.step, Workspace.attempt, get_blocks]
      cases hg : w.get name with
      | error f => exact .inr rfl
      | ok t =>
          rw [told_ok]
          dsimp only [bind, Except.bind]
          obtain h | h := alter_alters w t change
          · rw [h]
            exact .inl rfl
          · rw [h]
            cases w.alter t change with
            | error f =>
                dsimp only
                rw [put_blocks_same (find?_of_get hg)]
                exact .inr rfl
            | ok r =>
                dsimp only
                rw [put_blocks]
                exact .inr rfl
  | ask name question =>
      rw [step, Workspace.step, Workspace.attempt, get_blocks]
      cases w.get name with
      | error f => exact .inr rfl
      | ok t =>
          rw [told_ok]
          dsimp only [bind, Except.bind]
          rw [answer_eq]
          cases w.answer t question <;> exact .inr rfl

theorem run_blocks (w : Workspace α) (steps : List (Step α)) :
    w.blocks.run steps = .error .oversize ∨
      w.blocks.run steps = .ok ((w.run steps).1, (w.run steps).2.blocks) := by
  induction steps generalizing w with
  | nil => exact .inr rfl
  | cons s steps ih =>
      rw [run, Workspace.run]
      obtain h | h := step_blocks w s
      · rw [h]
        exact .inl rfl
      · rw [h]
        obtain hs | hs := ih (w.step s).2
        · exact .inl (by simp [bind, Except.bind, hs])
        · exact .inr (by simp [bind, Except.bind, hs])

/-- However tensors are made, changed and asked about: as long as their products of sizes fit,
nothing is read or written beyond a buffer, every tensor has the buffer that its sizes call for, and
all answers and tensors are those of the workspace. -/
theorem run_sound {steps : List (Step α)}
    (h : (empty : Memory α).run steps ≠ .error .oversize) :
    ∃ answers m, (empty : Memory α).run steps = .ok (answers, m) ∧
      (∀ name b, m name = some b → b.Sound) ∧
      answers = ((Workspace.empty : Workspace α).run steps).1 ∧
      m = ((Workspace.empty : Workspace α).run steps).2.blocks := by
  have hrun := (run_blocks Workspace.empty steps).resolve_left h
  exact ⟨_, _, hrun, fun name b hb => sound_of_blocks hb, rfl, rfl⟩

/-- A product with a transposed copy, a slice of it overwritten, and a formula over both. -/
def sampleSteps : List (Step Float) :=
  [.make "a" (.rows [[1, 2, 3], [4, 5, 6]]), .make "b" (.copy "a"),
    .change "b" (.rearrange .transpose), .make "c" (.product "a" "b"),
    .change "c" (.fill [none, some 1] 0), .make "d" (.formula "%0 x %1" "c" ["a"]),
    .change "d" (.set [2, 0] 1)]

theorem run_sound_sampleSteps :
    (empty : Memory Float).run sampleSteps ≠ .error .oversize ∧
    ∃ answers m, (empty : Memory Float).run sampleSteps = .ok (answers, m) ∧
      (∀ name b, m name = some b → b.Sound) ∧
      answers = ((Workspace.empty : Workspace Float).run sampleSteps).1 ∧
      m = ((Workspace.empty : Workspace Float).run sampleSteps).2.blocks := by
  have hok : ((empty : Memory Float).run sampleSteps).isOk = true := by decide +kernel
  have h : (empty : Memory Float).run sampleSteps ≠ .error .oversize := by
    intro h
    rw [h] at hok
    cases hok
  exact ⟨h, run_sound h⟩

end TensorFormula.Memory
