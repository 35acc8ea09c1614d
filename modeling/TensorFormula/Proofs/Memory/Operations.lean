import TensorFormula.Proofs.Memory.Loops

/-!
# Operations on tensors and on their blocks

Each program on the block of a tensor has the outcome of the operation on the tensor, unless a
product of sizes does not fit. In particular it is never stopped by an access beyond a buffer.
-/

namespace TensorFormula.Block

variable {α β γ δ ε ε' : Type}

/-- A program has the outcome of `r`, unless a product of sizes does not fit. -/
def Follows (p : Except (Stop ε) γ) (f : β → γ) (r : Except ε β) : Prop :=
  p = .error (.trap .oversize) ∨ p = told f r

/-- A program that runs on the block of `t` has the outcome of `r`, unless a product of sizes does
not fit. -/
def Performs (p : InPlace α β) (t : Tensor α) (r : Except TensorFault (β × Tensor α)) : Prop :=
  p.run t.block = .error (.trap .oversize) t.block ∨ p.run t.block = settled t r

theorem Follows.told (f : β → γ) (r : Except ε β) : Follows (told f r) f r := .inr rfl

theorem Follows.bind {p : Except (Stop ε) γ} {f : β → γ} {r : Except ε β}
    {q : γ → Except (Stop ε) δ} {g : α → δ} {s : β → Except ε α} (h : Follows p f r)
    (hq : ∀ x, Follows (q (f x)) g (s x)) : Follows (p >>= q) g (r >>= s) := by
  obtain rfl | rfl := h
  · exact .inl rfl
  · cases r with
    | error e => exact .inr rfl
    | ok x => exact hq x

theorem Follows.mapError {p : Except (Stop ε) γ} {f : β → γ} {r : Except ε β} (g : ε → ε')
    (h : Follows p f r) : Follows (p.mapError (Stop.map g)) f (r.mapError g) := by
  obtain rfl | rfl := h
  · exact .inl rfl
  · cases r with
    | error e => exact .inr rfl
    | ok x => exact .inr rfl

/-! ## Sizes -/

theorem productFrom_eq (n : Nat) (ds : List Nat) :
    productFrom n ds = (.error (.trap .oversize) : Except (Stop ε) Nat) ∨
      productFrom n ds = (.ok (n * Shape.volume ds) : Except (Stop ε) Nat) := by
  induction ds generalizing n with
  | nil => exact .inr (by rw [productFrom, Shape.volume_nil, Nat.mul_one])
  | cons d ds ih =>
      rw [productFrom, Shape.volume_cons, ← Nat.mul_assoc]
      by_cases h : n * d < Nat.pow 2 64
      · rw [if_pos h]
        exact ih (n * d)
      · rw [if_neg h]
        exact .inl rfl

theorem product_eq (ε : Type) (ds : List Nat) :
    product ds = (.error (.trap .oversize) : Except (Stop ε) Nat) ∨
      product ds = (.ok (Shape.mk ds).count : Except (Stop ε) Nat) := by
  rw [product, Shape.count, ← Nat.one_mul (Shape.volume ds)]
  exact productFrom_eq 1 ds

theorem productFrom_of_lt {n : Nat} {ds : List Nat} (hpos : 0 ∉ ds)
    (h : n * Shape.volume ds < Nat.pow 2 64) :
    productFrom n ds = (.ok (n * Shape.volume ds) : Except (Stop ε) Nat) := by
  induction ds generalizing n with
  | nil => rw [productFrom, Shape.volume_nil, Nat.mul_one]
  | cons d ds ih =>
      rw [List.mem_cons, not_or] at hpos
      rw [Shape.volume_cons, ← Nat.mul_assoc] at h ⊢
      have hle : n * d ≤ n * d * Shape.volume ds :=
        Nat.le_mul_of_pos_right _ (Shape.volume_pos hpos.2)
      rw [productFrom, if_pos (Nat.lt_of_le_of_lt hle h)]
      exact ih hpos.2 h

theorem productFrom_lt {n r : Nat} {ds : List Nat} (hn : n < Nat.pow 2 64)
    (h : productFrom n ds = (.ok r : Except (Stop ε) Nat)) : r < Nat.pow 2 64 := by
  induction ds generalizing n with
  | nil => exact Except.ok.inj h ▸ hn
  | cons d ds ih =>
      rw [productFrom] at h
      by_cases hd : n * d < Nat.pow 2 64
      · rw [if_pos hd] at h
        exact ih hd h
      · rw [if_neg hd] at h
        cases h

theorem ofArray_follows (sizes : List Nat) (content : Array α) :
    Follows (ofArray sizes content) Tensor.block (Tensor.ofArray ⟨sizes⟩ content) := by
  rw [ofArray, Tensor.ofArray]
  by_cases hv : (Shape.mk sizes).Valid
  · rw [if_pos hv, dif_pos hv]
    obtain h | h := product_eq TensorFault sizes
    · rw [h]
      exact .inl rfl
    · rw [h]
      dsimp only [bind, Except.bind]
      by_cases hc : content.size = (Shape.mk sizes).count
      · rw [if_pos hc, dif_pos hc]
        exact .inr rfl
      · rw [if_neg hc, dif_neg hc]
        exact .inr rfl
  · rw [if_neg hv, dif_neg hv]
    exact .inr rfl

/-- A block is made exactly if it is sound and the product of its sizes fits. -/
theorem ofArray_eq_ok_iff {sizes : List Nat} {content : Array α} {b : Block α} :
    ofArray sizes content = .ok b ↔
      b = ⟨sizes, content⟩ ∧ b.Sound ∧ Shape.volume sizes < Nat.pow 2 64 := by
  rw [ofArray]
  constructor
  · intro h
    split at h
    · next hv =>
        obtain hp | hp := product_eq TensorFault sizes
        · rw [hp] at h
          cases h
        · rw [hp] at h
          dsimp only [bind, Except.bind] at h
          split at h
          · next hc =>
              obtain rfl := Except.ok.inj h
              exact ⟨rfl, ⟨hv.1, hv.2, hc⟩, productFrom_lt (by decide) hp⟩
          · cases h
    · cases h
  · rintro ⟨rfl, hsound, hlt⟩
    have hp : product sizes = (.ok (Shape.volume sizes) : Except (Stop TensorFault) Nat) := by
      rw [product, productFrom_of_lt hsound.positive (by rwa [Nat.one_mul]),
        Nat.one_mul]
    rw [if_pos ⟨hsound.ranked, hsound.positive⟩, hp]
    exact if_pos hsound.filled

theorem ofArray_self (t : Tensor α) : Tensor.ofArray t.shape t.content = .ok t := by
  rw [Tensor.ofArray, dif_pos t.valid, dif_pos t.size_content]

theorem full_follows (sizes : List Nat) (v : α) :
    Follows (full sizes v) Tensor.block (Tensor.full ⟨sizes⟩ v) := by
  rw [full, Tensor.full]
  by_cases hv : (Shape.mk sizes).Valid
  · rw [if_pos hv, dif_pos hv]
    obtain h | h := product_eq TensorFault sizes
    · rw [h]
      exact .inl rfl
    · rw [h]
      exact .inr rfl
  · rw [if_neg hv, dif_neg hv]
    exact .inr rfl

theorem ofRows_follows (rows : List (List α)) :
    Follows (ofRows rows) Tensor.block (Tensor.ofRows rows) := by
  rw [ofRows]
  obtain h | h := product_eq TensorFault [rows.length, rows.head?.elim 0 List.length]
  · simp only [h]
    exact .inl rfl
  · simp only [h]
    exact ofArray_follows _ _

/-! ## Receivers -/

theorem load_first (t : Tensor α) : load t.content 0 = (.ok t.first : Except (Stop ε) α) :=
  load_eq t.content_pos

theorem run_mapAll (t : Tensor α) (f : α → α) :
    (mapAll f).run t.block = .ok () (t.map f).block := rfl

theorem Performs.ok {p : InPlace α β} {t u : Tensor α} {x : β}
    (h : p.run t.block = .ok x u.block) : Performs p t (.ok (x, u)) := .inr h

/-- Whatever takes the place of a block in one piece leaves it alone until it is complete. -/
theorem replace_performs {p : Except (Stop TensorFault) (Block α)} (t : Tensor α)
    {r : Except TensorFault (Tensor α)} (h : Follows p Tensor.block r) :
    Performs (attempt p >>= set) t (r.map fun u => ((), u)) := by
  obtain rfl | rfl := h
  · exact .inl rfl
  · cases r with
    | error f => exact .inr rfl
    | ok u => exact .inr rfl

theorem zipWith_block (l r : Tensor α) (f : α → α → α) (h : l.shape.count = r.shape.count) :
    (rewrite fun a => overlay f a r.block.buffer).run l.block = .ok () (l.zipWith r f h).block := by
  have hs : l.content.size = r.content.size := l.size_content.trans (h.trans r.size_content.symm)
  change EStateM.Result.ok () (Block.mk l.shape.dims (overlay f l.content r.content)) = _
  rw [overlay_eq_zipWith f hs]
  rfl

/-! ## Rearrangement -/

/-- The columns take up the buffer that there is, so transposing needs no product of sizes. -/
theorem run_transpose (t : Tensor α) :
    transpose.run t.block = settled t (t.transpose.map fun u => ((), u)) := by
  obtain ⟨⟨ds⟩, a, hv, ha⟩ := t
  match ds, hv, ha with
  | [r, c], hv, ha =>
      change (attempt (columns a r c) >>= fun out => set (Block.mk [c, r] out)).run _ = _
      rw [columns_eq (Tensor.size_of_matrix ha)]
      rfl
  | [], _, _ | [_], _, _ | _ :: _ :: _ :: _, _, _ => rfl

/-- No rearrangement needs more room than there is. -/
theorem run_rearrange (r : Rearrangement) (t : Tensor α) :
    (rearrange r).run t.block = settled t ((t.rearrange r).map fun u => ((), u)) := by
  cases r with
  | transpose => exact run_transpose t
  | rowMatrix | columnMatrix =>
      obtain ⟨⟨ds⟩, a, hv, ha⟩ := t
      match ds, hv, ha with
      | [n], _, _ => rfl
      | [], _, _ | _ :: _ :: _, _, _ => rfl
  | vector =>
      have hs : t.block.buffer.size = t.shape.count := t.size_content
      have hb : Tensor.isLinear ⟨t.block.sizes⟩ = Tensor.isLinear t.shape := rfl
      rw [rearrange, run_get_bind, hs, hb, Tensor.rearrange, Tensor.toVector]
      by_cases h : Tensor.isLinear t.shape = true
      · rw [if_pos h, if_pos h]
        rfl
      · rw [if_neg h, if_neg h]
        rfl

theorem rearrange_performs (r : Rearrangement) (t : Tensor α) :
    Performs (rearrange r) t ((t.rearrange r).map fun u => ((), u)) :=
  .inr (run_rearrange r t)

/-! ## Arithmetic -/

variable [Arithmetic α]

theorem multipliesWith_iff {s t : Shape} : s.multipliesWith t = true ↔
    ∃ m k n, s = .matrix m k ∧ t = .matrix k n := by
  constructor
  · intro h
    obtain ⟨ds⟩ := s
    obtain ⟨es⟩ := t
    match ds, es, h with
    | [m, k], [k', n], h =>
        obtain rfl : k = k' := beq_iff_eq.1 h
        exact ⟨m, k, n, rfl, rfl⟩
  · rintro ⟨m, k, n, rfl, rfl⟩
    exact beq_self_eq_true k

theorem matmul_of_not_multiplies {l r : Tensor α} (h : l.shape.multipliesWith r.shape = false) :
    l.matmul r = .error (.incompatible .matmul l.shape r.shape) := by
  unfold Tensor.matmul
  split
  · next m k _ _ _ k' n _ _ _ =>
      have hk : k' ≠ k := fun hk => beq_eq_false_iff_ne.1 h hk.symm
      rw [dif_neg hk]
  · rfl

/-- The product of an `[m, k]` and a `[k, n]` tensor, and the buffer that it has. -/
theorem exists_matmul_matrix {m k n : Nat} {l r : Tensor α} (hl : l.shape = .matrix m k)
    (hr : r.shape = .matrix k n) : ∃ p : Tensor α, l.matmul r = .ok p ∧ p.shape = .matrix m n ∧
      ∃ (ha : l.content.size = m * k) (hb : r.content.size = k * n),
        p.content = Tensor.productBuffer l.content r.content ha hb := by
  obtain ⟨_, a, va, ha⟩ := l
  obtain ⟨_, b, vb, hb⟩ := r
  obtain rfl := hl
  obtain rfl := hr
  exact ⟨_, dif_pos rfl, rfl, Tensor.size_of_matrix ha, Tensor.size_of_matrix hb, rfl⟩

theorem matmul_of_multiplies {m k n : Nat} (a b : Array α) :
    matmul ⟨[m, k], a⟩ ⟨[k, n], b⟩ = (product [m, n] >>= fun room =>
      multiply a b m k n (Array.replicate room 0) >>= ofArray [m, n]) :=
  if_pos (beq_self_eq_true k)

theorem matmul_follows (l r : Tensor α) :
    Follows (matmul l.block r.block) Tensor.block (l.matmul r) := by
  by_cases h : l.shape.multipliesWith r.shape = true
  · obtain ⟨m, k, n, hl, hr⟩ := multipliesWith_iff.1 h
    obtain ⟨p, hp, hs, ha, hb, hc⟩ := exists_matmul_matrix hl hr
    rw [hp, Tensor.block, Tensor.block, hl, hr, Shape.matrix, Shape.matrix, matmul_of_multiplies]
    obtain hroom | hroom := product_eq TensorFault [m, n]
    · rw [hroom]
      exact .inl rfl
    · have hcount : (Shape.mk [m, n]).count = m * n := Shape.count_matrix m n
      rw [hroom, hcount]
      change Follows (multiply l.content r.content m k n (Array.replicate (m * n) 0) >>= _) _ _
      rw [multiply_eq ha hb, ← hc, ← ofArray_self p, hs]
      exact ofArray_follows [m, n] p.content
  · rw [Bool.not_eq_true] at h
    rw [matmul_of_not_multiplies h]
    exact .inr (if_neg (by rw [Tensor.block, Tensor.block, h]; exact Bool.false_ne_true))

/-- Repeating and pairing elements takes no new sizes, so it always succeeds or fails as on
tensors. -/
theorem run_apply_of_not_product {op : Operator} {l r : Tensor α}
    (h : ¬ (op = .matmul ∧ l.shape.multipliesWith r.shape = true)) :
    (apply op r.block).run l.block = settled l ((l.combine r op).map fun u => ((), u)) := by
  have hm : (Shape.mk l.block.sizes).multipliesWith ⟨r.block.sizes⟩ =
      l.shape.multipliesWith r.shape := rfl
  have hl : l.block.buffer.size = l.shape.count := l.size_content
  have hr : r.block.buffer.size = r.shape.count := r.size_content
  rw [apply, run_get_bind, Tensor.combine, hm, hl, hr, if_neg h, if_neg h]
  by_cases hzip : op ≠ .matmul ∧ l.shape.count = r.shape.count
  · rw [if_pos hzip, dif_pos hzip]
    exact zipWith_block l r op.eval hzip.2
  · rw [if_neg hzip, dif_neg hzip]
    by_cases hone : r.shape.count = 1
    · rw [if_pos hone, if_pos hone]
      change (attempt (load r.content 0) >>= _).run l.block = _
      rw [load_first]
      rfl
    · rw [if_neg hone, if_neg hone]
      by_cases hone' : l.shape.count = 1
      · rw [if_pos hone', if_pos hone']
        change (attempt (load l.content 0) >>= _).run l.block = _
        rw [load_first]
        rfl
      · rw [if_neg hone', if_neg hone']
        rfl

theorem run_apply_of_product {op : Operator} {l r : Tensor α}
    (h : op = .matmul ∧ l.shape.multipliesWith r.shape = true) :
    (apply op r.block).run l.block = (attempt (matmul l.block r.block) >>= set).run l.block := by
  have hm : (Shape.mk l.block.sizes).multipliesWith ⟨r.block.sizes⟩ =
      l.shape.multipliesWith r.shape := rfl
  rw [apply, run_get_bind, hm, if_pos h]

theorem apply_performs (op : Operator) (l r : Tensor α) :
    Performs (apply op r.block) l ((l.combine r op).map fun u => ((), u)) := by
  by_cases h : op = .matmul ∧ l.shape.multipliesWith r.shape = true
  · rw [Performs, run_apply_of_product h, Tensor.combine, if_pos h]
    exact replace_performs l (matmul_follows l r)
  · exact .inr (run_apply_of_not_product h)

theorem normalize_block (t : Tensor α) :
    (if Arithmetic.lt 0 t.sum then mapAll (· * Arithmetic.recip t.sum) else pure ()).run t.block =
      .ok () t.normalize.block := by
  rw [Tensor.normalize]
  by_cases h : Arithmetic.lt 0 t.sum = true
  · rw [if_pos h, if_pos h]
    exact run_mapAll t _
  · rw [if_neg h, if_neg h]
    rfl

theorem run_softmax (t : Tensor α) : softmax.run t.block = .ok () t.softmax.block := by
  rw [softmax, run_get_bind]
  change (attempt (load t.content 0) >>= _).run t.block = _
  rw [load_first, run_bind_of_ok (run_attempt_ok _ _), run_bind_of_ok (run_mapAll t _),
    run_get_bind]
  exact normalize_block (t.map fun x => Arithmetic.exp (x - t.peak))

end TensorFormula.Block
