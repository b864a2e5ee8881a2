import Mathlib.Algebra.Field.ZMod
import Univariate.Proofs.ExactField

/-! # Newton's scheme over an exact field

The basis between two samples is the nodal polynomial of the nodes so far, and the fit takes the
samples so far.  The basis does not vanish at the next node because the nodes are pairwise distinct,
and a fit of degree below the number of samples is the only one. -/

namespace Univariate.SparsePoly

variable {C : Type} [Field C]

/-- The `i`-th of the nodes `start`, `start + 1`, … -/
def nodeAt (start : C) (i : ℕ) : C := start + i

/-- Nodes repeat only where some copies of one sum to zero. -/
theorem nodeAt_injOn {n : ℕ} (hchar : ∀ k : ℕ, 0 < k → k < n → (k : C) ≠ 0) (start : C) :
    Set.InjOn (nodeAt start) (Finset.range n) := by
  have hlt : ∀ i j : ℕ, i < j → j < n → nodeAt start i ≠ nodeAt start j := by
    intro i j hij hj h
    apply hchar (j - i) (by omega) (by omega)
    rw [Nat.cast_sub hij.le, sub_eq_zero]
    exact (add_left_cancel h).symm
  intro i hi j hj h
  have hi := Finset.mem_range.1 hi
  have hj := Finset.mem_range.1 hj
  rcases lt_trichotomy i j with hij | hij | hij
  · exact absurd h (hlt i j hij hj)
  · exact hij
  · exact absurd h.symm (hlt j i hij hi)

private theorem eval_nodal_next_ne_zero {n k : ℕ} (hchar : ∀ k : ℕ, 0 < k → k < n → (k : C) ≠ 0)
    (start : C) (hk : k < n) :
    (Lagrange.nodal (Finset.range k) (nodeAt start)).eval (nodeAt start k) ≠ 0 := by
  apply Lagrange.eval_nodal_not_at_node
  intro i hi h
  have hi := Finset.mem_range.1 hi
  have hki : k = i := nodeAt_injOn hchar start (Finset.mem_coe.2 (Finset.mem_range.2 hk))
    (Finset.mem_coe.2 (Finset.mem_range.2 (hi.trans hk))) h
  omega

namespace Newton

variable [FieldCoefficient C] (exact : ExactField C)

/-- The state after some samples. -/
structure Fitted (start : C) (done : List C) (s : Newton C) : Prop where
  fit_canonical : s.fit.Canonical
  basis_canonical : s.basis.Canonical
  node : s.node = nodeAt start done.length
  basis : exact.reading.polynomial s.basis =
    Lagrange.nodal (Finset.range done.length) (nodeAt start)
  degree : (exact.reading.polynomial s.fit).degree < done.length
  fits : ∀ i (h : i < done.length),
    (exact.reading.polynomial s.fit).eval (nodeAt start i) = done[i]

theorem fitted_start (start : C) : Fitted exact start [] (Newton.start start) where
  fit_canonical := canonical_zero
  basis_canonical := canonical_constant _
  node := by simp [Newton.start, nodeAt]
  basis := by
    rw [List.length_nil, Finset.range_zero, Lagrange.nodal_empty]
    exact exact.reading.polynomial_one
  degree := Polynomial.degree_zero.trans_lt (WithBot.bot_lt_coe 0)
  fits i h := absurd h (Nat.not_lt_zero i)

variable {exact} {start y : C} {done : List C} {s : Newton C}

omit [FieldCoefficient C] in
private theorem eval_corrected {f : Polynomial C} {k : ℕ} {multiple : C}
    (hmultiple : (Lagrange.nodal (Finset.range k) (nodeAt start)).eval (nodeAt start k) * multiple =
      y - f.eval (nodeAt start k)) (i : ℕ) (hi : i < k + 1) :
    (f + Lagrange.nodal (Finset.range k) (nodeAt start) * Polynomial.C multiple).eval
      (nodeAt start i) = if i = k then y else f.eval (nodeAt start i) := by
  rw [Polynomial.eval_add, Polynomial.eval_mul, Polynomial.eval_C]
  by_cases hik : i = k
  · subst hik
    rw [if_pos rfl, hmultiple, add_sub_cancel]
  · have hmem : i ∈ Finset.range k := Finset.mem_range.2 (by omega)
    rw [if_neg hik, Lagrange.eval_nodal_at_node hmem, zero_mul, add_zero]

private theorem Fitted.exists_basis_mul (h : Fitted exact start done s)
    (hlength : done.length + 1 < 2 ^ 32)
    {factor : SparsePoly C} (hcanonical : factor.Canonical) {c : C}
    (hfactor : exact.reading.polynomial factor = Polynomial.X + Polynomial.C c) :
    ∃ basis, s.basis.tryMul factor = .ok basis := by
  have hbasis : (exact.reading.polynomial s.basis).degree < (done.length + 1 : ℕ) := by
    rw [h.basis, Lagrange.degree_nodal, Finset.card_range]
    exact Nat.cast_lt.2 (Nat.lt_succ_self _)
  have hlinear : (exact.reading.polynomial factor).degree < (2 : ℕ) := by
    rw [hfactor, Polynomial.degree_X_add_C]
    exact Nat.cast_lt.2 one_lt_two
  apply exact.tryMul_total
  intro u hu t ht
  have hu := (exact.reading.degree_lt_iff h.basis_canonical).1 hbasis u hu
  have ht := (exact.reading.degree_lt_iff hcanonical).1 hlinear t ht
  omega

/-- The invariant of the next state, from what a step does to the polynomials it stands for. -/
theorem Fitted.advance (h : Fitted exact start done s) {fit basis : SparsePoly C} {multiple : C}
    (hfit : fit.Canonical) (hbasis : basis.Canonical)
    (hcorrected : exact.reading.polynomial fit = exact.reading.polynomial s.fit +
      Lagrange.nodal (Finset.range done.length) (nodeAt start) * Polynomial.C multiple)
    (hproduct : exact.reading.polynomial basis =
      exact.reading.polynomial s.basis * (Polynomial.X + Polynomial.C (-s.node)))
    (hmultiple : (Lagrange.nodal (Finset.range done.length) (nodeAt start)).eval
      (nodeAt start done.length) * multiple =
        y - (exact.reading.polynomial s.fit).eval (nodeAt start done.length)) :
    Fitted exact start (done ++ [y]) ⟨fit, basis, s.node + 1⟩ := by
  have hlength : (done ++ [y]).length = done.length + 1 := by
    rw [List.length_append, List.length_singleton]
  refine ⟨hfit, hbasis, ?_, ?_, ?_, ?_⟩
  · rw [h.node, hlength, nodeAt, nodeAt, Nat.cast_add, Nat.cast_one, add_assoc]
  · rw [hproduct, h.basis, h.node, hlength, Finset.range_add_one,
      Lagrange.nodal_insert_eq_nodal Finset.notMem_range_self, mul_comm, map_neg, ← sub_eq_add_neg]
  · have hk : (done.length : WithBot ℕ) < (done.length + 1 : ℕ) :=
      Nat.cast_lt.2 (Nat.lt_succ_self _)
    rw [hcorrected, hlength]
    refine (Polynomial.degree_add_le _ _).trans_lt (max_lt (h.degree.trans hk) ?_)
    apply (Polynomial.degree_mul_le _ _).trans_lt
    apply (add_le_add le_rfl Polynomial.degree_C_le).trans_lt
    rw [Lagrange.degree_nodal, Finset.card_range, add_zero]
    exact hk
  · intro i hi
    rw [hlength] at hi
    rw [hcorrected, eval_corrected hmultiple i hi, List.getElem_append]
    by_cases hik : i = done.length
    · simp [hik]
    · rw [if_neg hik, dif_pos (by omega), h.fits]

/-- One step divides by a basis value other than zero and leaves the state fitted. -/
theorem Fitted.step (h : Fitted exact start done s) (hlength : done.length + 1 < 2 ^ 32)
    (hnext : (Lagrange.nodal (Finset.range done.length) (nodeAt start)).eval
      (nodeAt start done.length) ≠ 0) (y : C) :
    (∃ divisor, s.basis.eval s.node = .ok divisor ∧ divisor ≠ 0) ∧
      ∃ s', s.step y = .ok s' ∧ Fitted exact start (done ++ [y]) s' := by
  let residual := y - (exact.reading.polynomial s.fit).eval s.node
  let divisor := (exact.reading.polynomial s.basis).eval s.node
  have hdivisor : divisor ≠ 0 := by
    rw [← h.basis, ← h.node] at hnext
    exact hnext
  obtain ⟨scaled, hscaled⟩ := exact.scale_total s.basis (residual / divisor)
  obtain ⟨fit, hfit⟩ := exact.addTerms_total s.fit scaled.terms
  obtain ⟨factor, hfactor, hlinear⟩ := exact.ofCoeffs_pair (-s.node)
  obtain ⟨basis, hbasis⟩ := h.exists_basis_mul hlength (canonical_ofCoeffs hfactor) hlinear
  have hnode : Coefficient.add s.node Coefficient.one = .ok (s.node + 1) := by
    rw [exact.one, exact.add]
  have hstep : s.step y = .ok ⟨fit, basis, s.node + 1⟩ :=
    Newton.step_eq_ok_iff.2 ⟨_, residual, divisor, residual / divisor, scaled, -s.node, factor,
      exact.eval_eq _ _, exact.sub _ _, exact.eval_eq _ _, exact.div _ _ hdivisor, hscaled, hfit,
      exact.neg _, hfactor, mul_eq_ok_iff.2 hbasis, hnode⟩
  refine ⟨⟨divisor, exact.eval_eq _ _, hdivisor⟩, _, hstep, ?_⟩
  apply h.advance (h.fit_canonical.addTerms hfit) (canonical_tryMul hbasis)
  · rw [exact.reading.polynomial_add hfit, exact.reading.polynomial_scale hscaled, h.basis,
      exact.value_reading]
  · rw [exact.reading.polynomial_tryMul hbasis, hlinear]
  · rw [← h.basis, ← h.node]
    exact mul_div_cancel₀ residual hdivisor

/-- Every prefix of the samples is fitted, and the step behind it divides by no zero. -/
theorem run_fitted (exact : ExactField C) {n : ℕ} (hn : n < 2 ^ 32)
    (hchar : ∀ k : ℕ, 0 < k → k < n → (k : C) ≠ 0) (start : C) (done : List C)
    (hdone : done.length ≤ n) :
    ∃ s, done.foldlM Newton.step (Newton.start start) = .ok s ∧ Fitted exact start done s := by
  induction done using List.reverseRecOn with
  | nil => exact ⟨_, rfl, fitted_start exact start⟩
  | append_singleton done y ih =>
    rw [List.length_append, List.length_singleton] at hdone
    obtain ⟨s, hs, h⟩ := ih (by omega)
    obtain ⟨-, s', hstep, h'⟩ :=
      h.step (by omega) (eval_nodal_next_ne_zero hchar start (by omega)) y
    refine ⟨s', ?_, h'⟩
    rw [List.foldlM_append, hs, ok_bind, List.foldlM_cons, hstep, ok_bind]
    rfl

end Newton

variable [FieldCoefficient C]

/-- The fit is the one polynomial of degree below the number of samples that takes them, and no step
towards it divides by zero. -/
theorem interpolateFrom_unique (exact : ExactField C) (start : C) (samples : List C)
    (hlength : samples.length < 2 ^ 32)
    (hchar : ∀ k : ℕ, 0 < k → k < samples.length → (k : C) ≠ 0) :
    (∀ done y todo, samples = done ++ y :: todo →
      ∃ s divisor, done.foldlM Newton.step (Newton.start start) = .ok s ∧
        s.basis.eval s.node = .ok divisor ∧ divisor ≠ 0) ∧
    ∃ p, interpolateFrom start samples = .ok p ∧ p.Canonical ∧
      (∀ t ∈ p.terms, t.exponent.val < samples.length) ∧
      (∀ i (h : i < samples.length), p.eval (start + (i : C)) = .ok samples[i]) ∧
      ∀ q : SparsePoly C, q.Canonical → (∀ t ∈ q.terms, t.exponent.val < samples.length) →
        (∀ i (h : i < samples.length), q.eval (start + (i : C)) = .ok samples[i]) → q = p := by
  constructor
  · intro done y todo hsplit
    have hlt : done.length < samples.length := by simp [hsplit]
    obtain ⟨s, hs, h⟩ := Newton.run_fitted exact hlength hchar start done hlt.le
    obtain ⟨⟨divisor, hdivisor, hne⟩, -⟩ :=
      h.step (by omega) (eval_nodal_next_ne_zero hchar start hlt) y
    exact ⟨s, divisor, hs, hdivisor, hne⟩
  · obtain ⟨s, hs, h⟩ := Newton.run_fitted exact hlength hchar start samples le_rfl
    refine ⟨s.fit, by rw [interpolateFrom, hs]; rfl, h.fit_canonical, ?_, ?_, ?_⟩
    · exact (exact.reading.degree_lt_iff h.fit_canonical).1 h.degree
    · intro i hi
      rw [exact.eval_eq]
      exact congrArg Except.ok (h.fits i hi)
    · intro q hq hdegree hvalues
      apply exact.reading.polynomial_injective hq h.fit_canonical
      have hcard : (Finset.range samples.length).card = samples.length := Finset.card_range _
      refine Polynomial.eq_of_degrees_lt_of_eval_index_eq (Finset.range samples.length)
        (nodeAt_injOn hchar start) ?_ ?_ ?_
      · rw [hcard]
        exact (exact.reading.degree_lt_iff hq).2 hdegree
      · rw [hcard]
        exact h.degree
      · intro i hi
        have hi := Finset.mem_range.1 hi
        have hvalue := hvalues i hi
        rw [exact.eval_eq] at hvalue
        exact (Except.ok.inj hvalue).trans (h.fits i hi).symm

/-- Three samples use up the nodes of a field with three elements. -/
theorem interpolateFrom_three_elements :
    letI := fieldOperations (ZMod 3)
    ExactField (ZMod 3) ∧ [1, 0, (1 : ZMod 3)].length < 2 ^ 32 ∧
      (∀ k : ℕ, 0 < k → k < [1, 0, (1 : ZMod 3)].length → (k : ZMod 3) ≠ 0) ∧
      ∃ p : SparsePoly (ZMod 3), interpolateFrom 2 [1, 0, 1] = .ok p ∧
        (∀ t ∈ p.terms, t.exponent.val < 3) ∧ p.eval 0 = .ok 0 := by
  let _ : FieldCoefficient (ZMod 3) := fieldOperations (ZMod 3)
  have exact := exactField_fieldOperations (ZMod 3)
  have hlength : [1, 0, (1 : ZMod 3)].length < 2 ^ 32 := by decide
  have hchar : ∀ k : ℕ, 0 < k → k < [1, 0, (1 : ZMod 3)].length → (k : ZMod 3) ≠ 0 := by
    intro k hpos hk
    rcases k with _ | _ | _ | k
    · cases hpos
    · decide
    · decide
    · exact absurd hk (by simp)
  obtain ⟨-, p, hp, -, hdegree, hvalues, -⟩ :=
    interpolateFrom_unique exact 2 [1, 0, (1 : ZMod 3)] hlength hchar
  exact ⟨exact, hlength, hchar, p, hp, hdegree, hvalues 1 (by decide)⟩

end Univariate.SparsePoly
