import Univariate.Proofs.PolynomialPowers

/-! # Values at a point

The value of a polynomial at a point is the exact sum of the values of its terms, which Horner's
rule computes from the coefficients.  It is returned exactly if all powers, products and sums on the
way are words.  A power can be no word although the product with its coefficient is one, but not
where the absolute values of all products add up to a word. -/

namespace Univariate

/-- Goes on with the coefficients `f (n - 1)`, …, `f 0` in this order: what has been summed up is
multiplied by the point before the next one is added. -/
def horner (x : ℤ) (f : ℕ → ℤ) (value : ℤ) : ℕ → ℤ
  | 0 => value
  | n + 1 => horner x f (value * x + f n) n

private theorem horner_eq_sum (x : ℤ) (f : ℕ → ℤ) (value : ℤ) (n : ℕ) :
    horner x f value n = value * x ^ n + ∑ i ∈ Finset.range n, f i * x ^ i := by
  induction n generalizing value with
  | zero => rw [horner, pow_zero, mul_one, Finset.sum_range_zero, add_zero]
  | succ n ih =>
    rw [horner, ih, Finset.sum_range_succ, pow_succ]
    ring

variable {w : Nat}

def valueSum (ts : List (Term (Signed w))) (x : ℤ) : ℤ :=
  (ts.map fun t => t.coeff.val * x ^ t.exponent.val).sum

@[simp] theorem valueSum_nil (x : ℤ) : valueSum ([] : List (Term (Signed w))) x = 0 := rfl

@[simp] theorem valueSum_cons (t : Term (Signed w)) (ts : List (Term (Signed w))) (x : ℤ) :
    valueSum (t :: ts) x = t.coeff.val * x ^ t.exponent.val + valueSum ts x := by
  simp [valueSum]

namespace SparsePoly

variable {p : SparsePoly (Signed w)} {x : Signed w}

/-- Horner's rule fills in the coefficients that are not stored. -/
theorem horner_coeffAt (hw : 2 ≤ w) (hp : p.Canonical) {d : Exponent} (hd : p.degree = .ok d)
    (x : ℤ) : horner x p.coeffAt 0 (d.val + 1) = valueSum p.terms x := by
  let ν := Signed.reading hw
  have hterms : (ν.polynomial p).eval x = valueSum p.terms x := by
    rw [ExactReading.polynomial, Polynomial.eval_listSum, List.map_map, valueSum]
    simp only [Function.comp_def, ExactReading.term, Polynomial.eval_monomial, ν,
      Signed.value_reading]
  rw [horner_eq_sum, zero_mul, zero_add, ← hterms, Polynomial.eval_eq_sum_range,
    ν.natDegree_polynomial hp hd, coeff_polynomial_eq_coeffAt hw hp]

def addValue {C : Type} [Coefficient C] (x sum : C) (t : Term C) : Except Fault C := do
  let power ← Coefficient.pow x t.exponent.val
  Coefficient.add sum (← Coefficient.mul t.coeff power)

private theorem eval_eq_foldlM {C : Type} [Coefficient C] (p : SparsePoly C) (x : C) :
    p.eval x = p.terms.foldlM (addValue x) Coefficient.zero := rfl

private theorem addValue_eq_ok_iff (hw : 2 ≤ w) {t : Term (Signed w)} {s y : Signed w} :
    addValue x s t = .ok y ↔ (Fits w (x.val ^ t.exponent.val) ∧
      Fits w (t.coeff.val * x.val ^ t.exponent.val)) ∧
      s.val + t.coeff.val * x.val ^ t.exponent.val = y.val := by
  constructor
  · intro h
    obtain ⟨power, hpower, h⟩ := bind_eq_ok_iff.1 h
    obtain ⟨product, hproduct, hsum⟩ := bind_eq_ok_iff.1 h
    rw [Signed.pow_eq_ok_iff hw] at hpower
    rw [Signed.mul_def, Signed.checked_eq_ok_iff, ← hpower] at hproduct
    rw [Signed.add_def, Signed.checked_eq_ok_iff, ← hproduct] at hsum
    exact ⟨⟨hpower ▸ power.fits, hproduct ▸ product.fits⟩, hsum⟩
  · rintro ⟨⟨hpower, hproduct⟩, hsum⟩
    refine bind_eq_ok_iff.2 ⟨⟨_, hpower⟩, (Signed.pow_eq_ok_iff hw).2 rfl, ?_⟩
    exact bind_eq_ok_iff.2 ⟨⟨_, hproduct⟩, Signed.checked_eq_ok_iff.2 rfl,
      Signed.checked_eq_ok_iff.2 hsum⟩

private theorem foldlM_addValue_eq_ok_iff (hw : 2 ≤ w) {ts : List (Term (Signed w))}
    {s y : Signed w} :
    ts.foldlM (addValue x) s = .ok y ↔
      (∀ t ∈ ts, Fits w (x.val ^ t.exponent.val) ∧
        Fits w (t.coeff.val * x.val ^ t.exponent.val)) ∧
      (∀ n, Fits w (s.val + valueSum (ts.take n) x.val)) ∧
      s.val + valueSum ts x.val = y.val := by
  induction ts generalizing s with
  | nil =>
    have hreturn : ([] : List (Term (Signed w))).foldlM (addValue x) s = .ok s := rfl
    simp only [hreturn, Except.ok.injEq, Signed.ext_iff, List.not_mem_nil, false_imp_iff,
      implies_true, List.take_nil, valueSum_nil, add_zero, s.fits, true_and]
  | cons t ts ih =>
    rw [List.foldlM_cons, bind_eq_ok_iff, List.forall_mem_cons]
    simp only [addValue_eq_ok_iff hw, ih, valueSum_cons, ← add_assoc]
    constructor
    · rintro ⟨z, ⟨ht, hz⟩, hts, hsums, hy⟩
      refine ⟨⟨ht, hts⟩, fun n => ?_, hz ▸ hy⟩
      cases n with
      | zero =>
        rw [List.take_zero, valueSum_nil, add_zero]
        exact s.fits
      | succ n =>
        rw [List.take_succ_cons, valueSum_cons, ← add_assoc, hz]
        exact hsums n
    · rintro ⟨⟨ht, hts⟩, hsums, hy⟩
      have hfirst := hsums 1
      rw [List.take_succ_cons, List.take_zero, valueSum_cons, valueSum_nil, add_zero] at hfirst
      refine ⟨⟨_, hfirst⟩, ⟨ht, rfl⟩, hts, fun n => ?_, hy⟩
      have hnext := hsums (n + 1)
      rwa [List.take_succ_cons, valueSum_cons, ← add_assoc] at hnext

/-- Every intermediate result is asked for, and nothing else. -/
theorem eval_eq_ok_iff (hw : 2 ≤ w) {y : Signed w} : p.eval x = .ok y ↔
    (∀ t ∈ p.terms, Fits w (x.val ^ t.exponent.val) ∧
      Fits w (t.coeff.val * x.val ^ t.exponent.val)) ∧
    (∀ n, Fits w (valueSum (p.terms.take n) x.val)) ∧ valueSum p.terms x.val = y.val := by
  rw [eval_eq_foldlM, foldlM_addValue_eq_ok_iff hw]
  simp only [Signed.val_zero, zero_add]

theorem exists_eval_iff (hw : 2 ≤ w) : (∃ y, p.eval x = .ok y) ↔
    (∀ t ∈ p.terms, Fits w (x.val ^ t.exponent.val) ∧
      Fits w (t.coeff.val * x.val ^ t.exponent.val)) ∧
    ∀ n, Fits w (valueSum (p.terms.take n) x.val) := by
  simp only [eval_eq_ok_iff hw]
  constructor
  · rintro ⟨y, hterms, hsums, -⟩
    exact ⟨hterms, hsums⟩
  · rintro ⟨hterms, hsums⟩
    have hlast := hsums p.terms.length
    rw [List.take_length] at hlast
    exact ⟨⟨_, hlast⟩, hterms, hsums, rfl⟩

/-- No stored coefficient is zero, so no power is further from zero than its product. -/
private theorem abs_pow_le_of_mem (hp : p.Canonical) {t : Term (Signed w)} (ht : t ∈ p.terms)
    (x : ℤ) :
    |x ^ t.exponent.val| ≤ |t.coeff.val * x ^ t.exponent.val| := by
  have hne : t.coeff.val ≠ 0 := by
    intro hzero
    have hnz := hp.2 t ht
    rw [(Signed.isZero_iff _).2 hzero] at hnz
    cases hnz
  rw [abs_mul]
  exact le_mul_of_one_le_left (abs_nonneg _) (Int.one_le_abs hne)

theorem exists_eval (hw : 2 ≤ w) (hp : p.Canonical)
    (h : (p.terms.map fun t => |t.coeff.val| * |x.val| ^ t.exponent.val).sum < halfRange w) :
    ∃ y, p.eval x = .ok y := by
  simp only [← abs_pow, ← abs_mul] at h
  refine (exists_eval_iff hw).2 ⟨fun t ht => ?_, fun n => ?_⟩
  · have hproduct : |t.coeff.val * x.val ^ t.exponent.val| < halfRange w :=
      (abs_le_sum_map_abs (fun t : Term (Signed w) => t.coeff.val * x.val ^ t.exponent.val)
        ht).trans_lt h
    exact ⟨fits_of_abs_lt ((abs_pow_le_of_mem hp ht x.val).trans_lt hproduct),
      fits_of_abs_lt hproduct⟩
  · exact fits_of_abs_lt ((abs_sum_map_take_le _ p.terms n).trans_lt h)

/-- A value that is returned is the exact sum over the stored terms, and it is what Horner's rule
makes of all coefficients from the degree down.  It is returned if and only if every power, product
and sum on the way is a word, and in particular if the absolute values of all products add up to
one. -/
theorem eval_exact_within_bound (hw : 2 ≤ w) (hp : p.Canonical) (x : Signed w) :
    (∀ y, p.eval x = .ok y →
      y.val = (p.terms.map fun t => t.coeff.val * x.val ^ t.exponent.val).sum ∧
      (∀ d, p.degree = .ok d → y.val = horner x.val p.coeffAt 0 (d.val + 1)) ∧
      (p = zero → y.val = 0)) ∧
    ((∃ y, p.eval x = .ok y) ↔
      (∀ t ∈ p.terms, Fits w (x.val ^ t.exponent.val) ∧
        Fits w (t.coeff.val * x.val ^ t.exponent.val)) ∧
      ∀ n, Fits w (valueSum (p.terms.take n) x.val)) ∧
    ((p.terms.map fun t => |t.coeff.val| * |x.val| ^ t.exponent.val).sum < halfRange w →
      ∃ y, p.eval x = .ok y) := by
  refine ⟨fun y hy => ?_, exists_eval_iff hw, exists_eval hw hp⟩
  obtain ⟨-, -, hvalue⟩ := (eval_eq_ok_iff hw).1 hy
  refine ⟨hvalue.symm, fun d hd => ?_, ?_⟩
  · rw [horner_coeffAt hw hp hd, hvalue]
  · rintro rfl
    exact hvalue.symm

/-- The first value is the largest word.  The power that belongs to the second one is one more, so
it is refused, although the product with the coefficient is the least word. -/
theorem eval_exact_within_bound_at_limits :
    let p : SparsePoly (Signed 32) := ⟨[⟨0, ⟨1073741823, by decide⟩⟩, ⟨30, ⟨1, by decide⟩⟩]⟩
    let q : SparsePoly (Signed 32) := ⟨[⟨31, ⟨-1, by decide⟩⟩]⟩
    let x : Signed 32 := ⟨2, by decide⟩
    (∃ y, p.eval x = .ok y ∧ y.val = 2147483647 ∧ y.val = horner 2 p.coeffAt 0 31) ∧
      (¬ ∃ y, q.eval x = .ok y) ∧ Fits 32 (-1 * 2 ^ 31) := by
  intro p q x
  obtain ⟨hvalue, -, hreturn⟩ := eval_exact_within_bound (p := p) (by decide) (by decide) x
  obtain ⟨-, hrefused, -⟩ := eval_exact_within_bound (p := q) (by decide) (by decide) x
  obtain ⟨y, hy⟩ := hreturn (by decide)
  obtain ⟨hsum, hhorner, -⟩ := hvalue y hy
  refine ⟨⟨y, hy, hsum, hhorner 30 rfl⟩, fun h => ?_, by decide⟩
  obtain ⟨hpower, -⟩ := (hrefused.1 h).1 _ List.mem_cons_self
  exact absurd hpower (by decide)

end SparsePoly

end Univariate
