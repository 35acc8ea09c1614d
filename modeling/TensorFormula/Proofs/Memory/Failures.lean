import TensorFormula.Proofs.Memory.Runs

/-!
# Failures leave no trace

A program that changes a block first makes all its checks and writes only then, and its writes do
not fail. So a fault leaves the block as it was, and a run has the same tensors in the end as the
run of those of its steps that succeed.
-/

namespace TensorFormula

namespace Block

variable {α β γ : Type}

/-- A fault leaves the block as it was. -/
def Traceless (p : InPlace α β) : Prop :=
  ∀ b f b', p.run b = .error (.fault f) b' → b' = b

/-- Whatever stops the program, it is no fault. -/
def Faultless (p : InPlace α β) : Prop :=
  ∀ b f b', p.run b ≠ .error (.fault f) b'

theorem Faultless.traceless {p : InPlace α β} (h : Faultless p) : Traceless p :=
  fun b f b' hr => absurd hr (h b f b')

/-! ## Writes -/

theorem Faultless.bind {p : InPlace α β} {q : β → InPlace α γ} (h : Faultless p)
    (hq : ∀ x, Faultless (q x)) : Faultless (p >>= q) := by
  intro b f b' hr
  rw [EStateM.run_bind] at hr
  cases hp : p.run b with
  | ok x b₁ =>
      rw [hp] at hr
      exact hq x b₁ f b' hr
  | error s b₁ =>
      rw [hp] at hr
      cases hr
      exact h b f b' hp

theorem Faultless.get_bind {q : Block α → InPlace α β} (h : ∀ b, Faultless (q b)) :
    Faultless (get >>= q) := fun b => h b b

theorem faultless_pure (x : β) : Faultless (pure x : InPlace α β) := by
  intro b f b' hr
  cases hr

theorem faultless_modify (f : Block α → Block α) : Faultless (modify f : InPlace α Unit) := by
  intro b e b' hr
  cases hr

theorem faultless_set (c : Block α) : Faultless (set c : InPlace α Unit) := by
  intro b f b' hr
  cases hr

theorem faultless_store (k : Nat) (v : α) : Faultless (store k v) := by
  intro b f b' hr
  change (if k < b.buffer.size then _ else _) = _ at hr
  split at hr <;> cases hr

theorem faultless_forM {p : β → InPlace α Unit} (h : ∀ x, Faultless (p x)) (xs : List β) :
    Faultless (forM xs p) := by
  induction xs with
  | nil => exact faultless_pure _
  | cons x xs ih =>
      rw [List.forM_cons]
      exact (h x).bind fun _ => ih

theorem faultless_mapAll (f : α → α) : Faultless (mapAll f) := faultless_modify _

/-! ## Checks -/

theorem Traceless.get_bind {q : Block α → InPlace α β} (h : ∀ b, Traceless (q b)) :
    Traceless (get >>= q) := fun b => h b b

/-- What a check computes is not kept in the block. -/
theorem Traceless.attempt_bind {r : Except (Stop TensorFault) β} {q : β → InPlace α γ}
    (h : ∀ x, Traceless (q x)) : Traceless (attempt r >>= q) := by
  intro b f b' hr
  rw [EStateM.run_bind] at hr
  cases r with
  | ok x => exact h x b f b' hr
  | error s =>
      cases hr
      rfl

theorem traceless_throw (s : Stop TensorFault) : Traceless (throw s : InPlace α β) := by
  intro b f b' hr
  cases hr
  rfl

/-! ## Programs -/

theorem traceless_setElement (index : List Nat) (v : α) : Traceless (setElement index v) :=
  .get_bind fun _ => .attempt_bind fun k => (faultless_store k v).traceless

theorem traceless_writeSlice (pattern : Pattern) (source : List α) :
    Traceless (writeSlice pattern source) := by
  refine .get_bind fun b => .attempt_bind fun ks => ?_
  split
  · have hloop : Faultless (storeAll ks source) :=
      faultless_forM (fun p : Nat × α => faultless_store p.1 p.2) _
    exact (hloop.bind fun _ => faultless_pure _).traceless
  · exact traceless_throw _

theorem traceless_fill (pattern : Pattern) (v : α) : Traceless (fill pattern v) := by
  refine .get_bind fun b => .attempt_bind fun ks => ?_
  have hloop : Faultless (forM ks fun k => store k v) := faultless_forM (faultless_store · v) ks
  exact (hloop.bind fun _ => faultless_pure _).traceless

theorem traceless_transpose : Traceless (transpose : InPlace α Unit) := by
  refine .get_bind fun b => ?_
  split
  · refine .attempt_bind fun rows => .attempt_bind fun cols => .attempt_bind fun out => ?_
    exact (faultless_set _).traceless
  · exact traceless_throw _

theorem traceless_rearrange (r : Rearrangement) : Traceless (rearrange r : InPlace α Unit) := by
  cases r with
  | transpose => exact traceless_transpose
  | rowMatrix | columnMatrix =>
      refine .get_bind fun b => ?_
      split
      · exact (faultless_modify _).traceless
      · exact traceless_throw _
  | vector =>
      refine .get_bind fun b => ?_
      split
      · exact (faultless_modify _).traceless
      · exact traceless_throw _

/-- The product is complete before it takes the place of its left factor. -/
theorem traceless_apply [Arithmetic α] (op : Operator) (r : Block α) : Traceless (apply op r) := by
  refine .get_bind fun l => ?_
  split
  · exact .attempt_bind fun p => (faultless_set p).traceless
  · split
    · exact (faultless_modify _).traceless
    · split
      · exact .attempt_bind fun y => (faultless_mapAll _).traceless
      · split
        · exact .attempt_bind fun x => (faultless_set _).traceless
        · exact traceless_throw _

theorem traceless_softmax [Arithmetic α] : Traceless (softmax : InPlace α Unit) := by
  refine .get_bind fun b => .attempt_bind fun x => Faultless.traceless ?_
  refine (faultless_mapAll _).bind fun _ => .get_bind fun c => ?_
  dsimp only
  split
  · exact faultless_mapAll _
  · exact faultless_pure _

/-! ## The buffer that a slice is read into -/

/-- Copies the elements that match to the front of the buffer of the block that it runs on. The
sizes of that block do not matter. -/
def copySlice (source : Block α) (pattern : Pattern) : InPlace α Nat := do
  let target ← get
  let ks ← attempt (offsets source.sizes pattern)
  if ks.length ≤ target.buffer.size then do
    forM ks.zipIdx fun p => do
      let x ← attempt (load source.buffer p.1)
      store p.2 x
    return ks.length
  else throw (.fault (.bufferTooShort ks.length target.buffer.size))

theorem faultless_attempt_load (buffer : Array α) (k : Nat) :
    Faultless (attempt (load buffer k) : InPlace α α) := by
  intro b f b' hr
  rw [load] at hr
  split at hr <;> cases hr

theorem traceless_copySlice (source : Block α) (pattern : Pattern) :
    Traceless (copySlice source pattern) := by
  refine .get_bind fun target => .attempt_bind fun ks => ?_
  split
  · refine Faultless.traceless ?_
    refine Faultless.bind (faultless_forM (fun p => ?_) _) fun _ => faultless_pure _
    exact (faultless_attempt_load source.buffer p.1).bind fun x => faultless_store p.2 x
  · exact traceless_throw _

/-- Copying element by element leaves the buffer that the slice calls for. -/
theorem run_copyLoop (t : Tensor α) (sizes : List Nat) (ks : List (Fin t.shape.count))
    (front rest : List α) (h : ks.length ≤ rest.length) :
    (forM ((ks.map Fin.val).zipIdx front.length) fun p => do
      let x ← attempt (load t.block.buffer p.1)
      store p.2 x : InPlace α Unit).run ⟨sizes, (front ++ rest).toArray⟩ =
      .ok () ⟨sizes, (front ++ (ks.map t.entry ++ rest.drop ks.length)).toArray⟩ := by
  induction ks generalizing front rest with
  | nil => rfl
  | cons k ks ih =>
      have hpos : 0 < rest.length := Nat.lt_of_lt_of_le (Nat.succ_pos _) h
      obtain ⟨r, rest, rfl⟩ := List.exists_cons_of_length_pos hpos
      have hstore : (store front.length (t.entry k)).run ⟨sizes, (front ++ r :: rest).toArray⟩ =
          .ok () ⟨sizes, (front ++ [t.entry k] ++ rest).toArray⟩ := by
        refine (if_pos (by simp)).trans ?_
        simp
      rw [List.map_cons, List.zipIdx_cons, List.forM_cons, load_entry]
      refine (run_bind_of_ok hstore).trans ?_
      have hrest := ih (front ++ [t.entry k]) rest (Nat.le_of_succ_le_succ h)
      simpa using hrest

/-- The buffer after a slice is read into it, or as it was after a fault. -/
theorem copySlice_eq (t : Tensor α) (pattern : Pattern) (sizes : List Nat) (target : List α) :
    (copySlice t.block pattern).run ⟨sizes, target.toArray⟩ =
      match t.readSlice pattern target with
      | .ok (n, xs) => .ok n ⟨sizes, xs.toArray⟩
      | .error f => .error (.fault f) ⟨sizes, target.toArray⟩ := by
  rw [copySlice, run_get_bind, Tensor.readSlice]
  change (attempt (offsets t.shape.dims pattern) >>= _).run _ = _
  rw [offsets_eq]
  cases t.shape.positions pattern with
  | error f => rfl
  | ok ks =>
      rw [told_ok, run_bind_of_ok (run_attempt_ok _ _), List.length_map, List.size_toArray]
      dsimp only [bind, Except.bind]
      rw [Tensor.requireRoom]
      by_cases h : ks.length ≤ target.length
      · rw [if_pos h, if_pos h]
        exact run_bind_of_ok (run_copyLoop t sizes ks [] target h)
      · rw [if_neg h, if_neg h]
        rfl

end Block

namespace Memory

open Block Workspace

variable {α β : Type}

/-- The tensor that a step makes, changes or asks about. -/
def subject : Step α → String
  | .make name _ => name
  | .change name _ => name
  | .ask name _ => name

/-- The steps with a successful answer. -/
def succeeding (steps : List (Step α)) (answers : List (Except Fault (Answer α))) :
    List (Step α) :=
  ((steps.zip answers).filter fun p => p.2.isOk).map Prod.fst

theorem settle_eq_ok_iff {m m' : Memory α} {r : Except (Stop Fault) (Answer α)}
    {a : Except Fault (Answer α)} :
    m.settle r = .ok (a, m') ↔ r = a.mapError Stop.fault ∧ m' = m := by
  cases a with
  | ok x =>
      match r with
      | .ok y => simp [settle, Except.mapError, eq_comm]
      | .error (.fault f) => simp [settle, Except.mapError]
      | .error (.trap t) => simp [settle, Except.mapError]
  | error e =>
      match r with
      | .ok y => simp [settle, Except.mapError]
      | .error (.fault f) => simp [settle, Except.mapError, eq_comm]
      | .error (.trap t) => simp [settle, Except.mapError]

theorem put_self {m : Memory α} {name : String} {b : Block α} (h : m name = some b) :
    m.put name b = m := by
  rw [put, Function.update_eq_self_iff, h]

theorem put_of_ne (m : Memory α) {name other : String} (b : Block α) (h : other ≠ name) :
    m.put name b other = m other :=
  Function.update_of_ne h _ _

theorem eq_some_of_get {m : Memory α} {name : String} {b : Block α} (h : m.get name = .ok b) :
    m name = some b := by
  rw [get] at h
  split at h
  · next hm => exact Except.ok.inj h ▸ hm
  · cases h

theorem inPlace_snd_of_fault {p : InPlace α β} (h : Traceless p) {b : Block α} {g : β → Answer α}
    {f : Fault} (hf : (inPlace p b g).1 = .error (.fault f)) : (inPlace p b g).2 = b := by
  rw [inPlace] at hf ⊢
  cases hp : p.run b with
  | ok x b' =>
      rw [hp] at hf
      cases hf
  | error s b' =>
      rw [hp] at hf
      cases s with
      | trap t => cases hf
      | fault e => exact h b e b' hp

variable [Element α]

theorem alter_snd_of_fault (m : Memory α) (b : Block α) (c : Change α) {f : Fault}
    (h : (m.alter b c).1 = .error (.fault f)) : (m.alter b c).2 = b := by
  cases c with
  | set index v => exact inPlace_snd_of_fault (traceless_setElement index v) h
  | write pattern source => exact inPlace_snd_of_fault (traceless_writeSlice pattern source) h
  | fill pattern v => exact inPlace_snd_of_fault (traceless_fill pattern v) h
  | put k v => exact inPlace_snd_of_fault (faultless_modify _).traceless h
  | map g => exact inPlace_snd_of_fault (faultless_mapAll g).traceless h
  | applyScalar op v => exact inPlace_snd_of_fault (faultless_mapAll _).traceless h
  | rearrange r => exact inPlace_snd_of_fault (traceless_rearrange r) h
  | softmax => exact inPlace_snd_of_fault traceless_softmax h
  | apply op right =>
      rw [alter] at h ⊢
      split at h
      · exact inPlace_snd_of_fault (traceless_apply op _) h
      · rfl
  | assign text operands =>
      rw [alter] at h ⊢
      split at h
      · split at h
        · cases h
        · rfl
      · rfl

/-- A step that fails changes nothing at all. -/
theorem eq_of_step_error {m m' : Memory α} {s : Step α} {f : Fault}
    (h : m.step s = .ok (.error f, m')) : m' = m := by
  cases s with
  | make name recipe =>
      rw [step] at h
      split at h
      · cases (settle_eq_ok_iff.1 h).1
      · exact (settle_eq_ok_iff.1 h).2
  | ask name question =>
      rw [step] at h
      split at h <;> exact (settle_eq_ok_iff.1 h).2
  | change name c =>
      rw [step] at h
      split at h
      · next b hb =>
          obtain ⟨hf, rfl⟩ := settle_eq_ok_iff.1 h
          rw [alter_snd_of_fault m b c hf, put_self (eq_some_of_get hb)]
      · exact (settle_eq_ok_iff.1 h).2

/-- A step leaves all tensors but one alone, also where it fails. -/
theorem step_apply_of_ne {m m' : Memory α} {s : Step α} {a : Except Fault (Answer α)}
    {other : String} (h : m.step s = .ok (a, m')) (ho : other ≠ subject s) :
    m' other = m other := by
  cases s with
  | make name recipe | change name c =>
      rw [step] at h
      split at h
      · obtain ⟨-, rfl⟩ := settle_eq_ok_iff.1 h
        exact put_of_ne m _ ho
      · rw [(settle_eq_ok_iff.1 h).2]
  | ask name question =>
      rw [step] at h
      split at h <;> rw [(settle_eq_ok_iff.1 h).2]

/-! ## Runs -/

theorem run_cons_eq_ok {m m' : Memory α} {s : Step α} {steps : List (Step α)}
    {answers : List (Except Fault (Answer α))} (h : m.run (s :: steps) = .ok (answers, m')) :
    ∃ a m₁ as, m.step s = .ok (a, m₁) ∧ m₁.run steps = .ok (as, m') ∧ answers = a :: as := by
  rw [run] at h
  cases hs : m.step s with
  | error t => simp [hs, bind, Except.bind] at h
  | ok r =>
      cases hr : run r.2 steps with
      | error t => simp [hs, hr, bind, Except.bind] at h
      | ok q =>
          simp only [hs, hr, bind, Except.bind, Except.ok.injEq, Prod.mk.injEq] at h
          obtain ⟨rfl, rfl⟩ := h
          exact ⟨r.1, r.2, q.1, rfl, hr, rfl⟩

/-- The steps that fail can be left out of a run. -/
theorem run_succeeding {m m' : Memory α} {steps : List (Step α)}
    {answers : List (Except Fault (Answer α))} (h : m.run steps = .ok (answers, m')) :
    m.run (succeeding steps answers) = .ok (answers.filter Except.isOk, m') := by
  induction steps generalizing m answers with
  | nil =>
      obtain ⟨rfl, rfl⟩ := Prod.mk.inj (Except.ok.inj h)
      rfl
  | cons s steps ih =>
      obtain ⟨a, m₁, as, hs, hr, rfl⟩ := run_cons_eq_ok h
      cases a with
      | error f =>
          obtain rfl := eq_of_step_error hs
          exact ih hr
      | ok x =>
          have hrest := ih hr
          change m.run (s :: succeeding steps as) = .ok (.ok x :: as.filter Except.isOk, m')
          rw [run, hs]
          dsimp only [bind, Except.bind]
          rw [hrest]

/-- A step that fails leaves every tensor as it was, and a slice that cannot be read leaves the
buffer for it as it was. Whether it fails or not, a step leaves alone all tensors but the one that
it is about, its right operand among them. So the failing steps of a run can be left out. All this
is said of any memory and buffer; those of tensors follow the operations on tensors. -/
theorem failures_leave_no_trace :
    (∀ (m : Memory α) s f m', m.step s = .ok (.error f, m') → m' = m) ∧
    (∀ (source buffer : Block α) pattern f buffer',
      (copySlice source pattern).run buffer = .error (.fault f) buffer' → buffer' = buffer) ∧
    (∀ (m : Memory α) s a m', m.step s = .ok (a, m') →
      ∀ other, other ≠ subject s → m' other = m other) ∧
    (∀ (m : Memory α) steps answers m', m.run steps = .ok (answers, m') →
      m.run (succeeding steps answers) = .ok (answers.filter Except.isOk, m')) ∧
    (∀ (w : Workspace α) steps, w.blocks.run steps = .error .oversize ∨
      w.blocks.run steps = .ok ((w.run steps).1, (w.run steps).2.blocks)) ∧
    ∀ (t : Tensor α) pattern sizes target,
      (copySlice t.block pattern).run ⟨sizes, target.toArray⟩ =
        match t.readSlice pattern target with
        | .ok (n, xs) => .ok n ⟨sizes, xs.toArray⟩
        | .error f => .error (.fault f) ⟨sizes, target.toArray⟩ := by
  refine ⟨fun _ _ _ _ => eq_of_step_error, ?_, ?_, fun _ _ _ _ => run_succeeding, run_blocks,
    copySlice_eq⟩
  · exact fun source buffer pattern f buffer' => traceless_copySlice source pattern buffer f buffer'
  · exact fun _ _ _ _ h _ => step_apply_of_ne h

/-- A slice from too short a source, a product of sizes that do not match, by itself and inside a
formula, and a vector transposed. -/
def failingSteps : List (Step Float) :=
  [.make "a" (.rows [[1, 2], [3, 4]]), .make "b" (.content (.vector 3) [1, 2, 3]),
    .change "a" (.write [none, some 1] [7]), .change "a" (.apply .matmul "b"),
    .change "a" (.assign "%0 * 2 + (%0 x %1)" ["b"]), .change "b" (.rearrange .transpose),
    .change "a" (.fill [some 1, none] 0)]

theorem failures_leave_no_trace_failingSteps :
    ∃ answers m, (empty : Memory Float).run failingSteps = .ok (answers, m) ∧
      answers.map Except.isOk = [true, true, false, false, false, false, true] ∧
      (empty : Memory Float).run (succeeding failingSteps answers) =
        .ok (answers.filter Except.isOk, m) := by
  have hok : ((empty : Memory Float).run failingSteps).toOption.map
      (fun r => r.1.map Except.isOk) = some [true, true, false, false, false, false, true] := by
    decide +kernel
  cases h : (empty : Memory Float).run failingSteps with
  | error t =>
      rw [h] at hok
      cases hok
  | ok r =>
      rw [h] at hok
      refine ⟨r.1, r.2, rfl, Option.some.inj hok, ?_⟩
      exact failures_leave_no_trace.2.2.2.1 empty failingSteps r.1 r.2 h

end Memory

end TensorFormula
