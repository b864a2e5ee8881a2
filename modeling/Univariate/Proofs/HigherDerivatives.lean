import Univariate.Proofs.ExactDerivative
import Univariate.Proofs.PolynomialPowers

/-! # Higher derivatives

The `n`-th derivative multiplies the coefficient at an exponent `e` with the first `n` factors of
`e * (e - 1) * ...`.  The product of a term moves away from zero with every step until the exponent
is zero; the step after that leaves the term out.  So the last product of each term decides whether
the derivative returns. -/

namespace Univariate

namespace ExactReading

variable {C : Type} [Coefficient C] {R : Type} [CommRing R] {ν : ExactReading C R}

theorem polynomial_nthDerivative (hν : ν.EmbedsExponents) {p q : SparsePoly C} {n : ℕ}
    (h : p.nthDerivative n = .ok q) :
    ν.polynomial q = Polynomial.derivative^[n] (ν.polynomial p) := by
  induction n generalizing p with
  | zero =>
    cases h
    rfl
  | succ n ih =>
    rw [SparsePoly.nthDerivative_succ] at h
    obtain ⟨r, hr, h⟩ := bind_eq_ok_iff.1 h
    rw [ih h, polynomial_derivative hν hr, Function.iterate_succ_apply]

end ExactReading

variable {w : Nat}

namespace SparsePoly

variable {p q r : SparsePoly (Signed w)} {n : ℕ}

/-- The last product that is formed of a term on the way to the `n`-th derivative. -/
def lastProduct (n : ℕ) (t : Term (Signed w)) : ℤ :=
  t.coeff.val * t.exponent.val.descFactorial (min n t.exponent.val)

@[simp] theorem lastProduct_zero (t : Term (Signed w)) : lastProduct 0 t = t.coeff.val := by
  simp [lastProduct]

private theorem lastProduct_of_not_pos {t : Term (Signed w)} (h : ¬ 0 < t.exponent) (n : ℕ) :
    lastProduct n t = t.coeff.val := by
  have hzero : t.exponent = 0 := by simpa using h
  simp [lastProduct, hzero]

theorem lastProduct_succ {t : Term (Signed w)} (h : 0 < t.exponent) (n : ℕ) :
    lastProduct (n + 1) t = t.exponent.val * t.coeff.val *
      (t.exponent.lower.val.descFactorial (min n t.exponent.lower.val) : ℕ) := by
  obtain ⟨e, he⟩ := Nat.exists_eq_succ_of_ne_zero (Nat.pos_iff_ne_zero.1 h)
  rw [lastProduct, Exponent.val_lower, he, Nat.succ_sub_one, Nat.succ_min_succ,
    Nat.succ_descFactorial_succ]
  push_cast
  ring

private theorem fits_of_fits_lastProduct {t : Term (Signed w)} (hpos : 0 < t.exponent)
    (h : Fits w (lastProduct (n + 1) t)) : Fits w (t.exponent.val * t.coeff.val) := by
  rw [lastProduct_succ hpos] at h
  exact fits_of_fits_mul (Nat.descFactorial_pos.2 (min_le_right ..)) h

private theorem derivesBy_exponent (hw : 33 ≤ w) (hp : p.Canonical) : p.DerivesBy fun e => e.val :=
  (derivesBy_embedded hp).congr fun t _ => Signed.embedsExponents_reading hw t.exponent

private theorem coeff_lower_of_derivative (hw : 33 ≤ w) (hp : p.Canonical)
    (h : p.derivative = .ok q)
    {t : Term (Signed w)} (ht : t ∈ p.terms) (hpos : 0 < t.exponent) :
    (q.coeff t.exponent.lower).val = t.exponent.val * t.coeff.val := by
  rw [((derivesBy_exponent hw hp).2 q h).1 t.exponent hpos, hp.coeff_of_mem ht]

/-- No product is zero, so every term but the constant one leaves a term behind. -/
theorem lower_mem_of_derivative (hw : 33 ≤ w) (hp : p.Canonical) (h : p.derivative = .ok q)
    {t : Term (Signed w)} (ht : t ∈ p.terms) (hpos : 0 < t.exponent) :
    ⟨t.exponent.lower, q.coeff t.exponent.lower⟩ ∈ q.terms := by
  apply (mem_terms_or_coeff_eq_zero q t.exponent.lower).resolve_right
  intro hzero
  have hproduct := coeff_lower_of_derivative hw hp h ht hpos
  rw [hzero, Signed.val_zero] at hproduct
  rcases mul_eq_zero.1 hproduct.symm with he | hc
  · have hexp : 0 < t.exponent.val := hpos
    omega
  · have hstored := hp.2 t ht
    rw [(Signed.isZero_iff _).2 hc] at hstored
    cases hstored

theorem lastProduct_of_derivative (hw : 33 ≤ w) (hp : p.Canonical) (h : p.derivative = .ok q)
    (n : ℕ) {t u : Term (Signed w)} (ht : t ∈ p.terms) (hpos : 0 < t.exponent) (hu : u ∈ q.terms)
    (hexp : u.exponent = t.exponent.lower) : lastProduct n u = lastProduct (n + 1) t := by
  have hq : q.Canonical := canonical_derivative h
  rw [lastProduct_succ hpos, ← coeff_lower_of_derivative hw hp h ht hpos, ← hexp,
    hq.coeff_of_mem hu, lastProduct]

theorem derivative_eq_error (hp : p.Canonical) {f : Fault} (h : p.derivative = .error f) :
    f = .arithmetic .multiply := by
  obtain ⟨t, -, h⟩ := exists_of_derivative_eq_error hp h
  rw [Coefficient.timesInt] at h
  split at h
  · cases h
  · exact (Signed.checked_eq_error_iff.1 h).2

theorem nthDerivative_eq_error (hp : p.Canonical) {f : Fault} (h : p.nthDerivative n = .error f) :
    f = .arithmetic .multiply := by
  induction n generalizing p with
  | zero => cases h
  | succ n ih =>
    rw [nthDerivative_succ] at h
    rcases bind_eq_error_iff.1 h with h | ⟨q, hq, h⟩
    · exact derivative_eq_error hp h
    · exact ih (canonical_derivative hq) h

/-- What a step leaves out is constant, and a constant is not multiplied. -/
theorem exists_nthDerivative_iff (hw : 33 ≤ w) (hp : p.Canonical) :
    (∃ r, p.nthDerivative n = .ok r) ↔ ∀ t ∈ p.terms, Fits w (lastProduct n t) := by
  induction n generalizing p with
  | zero => simp [nthDerivative, Signed.fits]
  | succ n ih =>
    rw [nthDerivative_succ]
    constructor
    · rintro ⟨r, hr⟩ t ht
      obtain ⟨q, hq, hr⟩ := bind_eq_ok_iff.1 hr
      by_cases hpos : 0 < t.exponent
      · have hu := lower_mem_of_derivative hw hp hq ht hpos
        rw [← lastProduct_of_derivative hw hp hq n ht hpos hu rfl]
        exact (ih (canonical_derivative hq)).1 ⟨r, hr⟩ _ hu
      · rw [lastProduct_of_not_pos hpos]
        exact t.coeff.fits
    · intro hfits
      -- The first products are words because the last ones are, so the first step returns.
      obtain ⟨q, hq⟩ := (derivesBy_exponent hw hp).1.2 fun t ht hpos =>
        fits_of_fits_lastProduct hpos (hfits t ht)
      have hrest : ∀ u ∈ q.terms, Fits w (lastProduct n u) := by
        intro u hu
        obtain ⟨t, ht, hpos, hexp⟩ := ((derivesBy_exponent hw hp).2 q hq).2 u hu
        rw [lastProduct_of_derivative hw hp hq n ht hpos hu hexp]
        exact hfits t ht
      rw [hq, ok_bind]
      exact (ih (canonical_derivative hq)).2 hrest

theorem nthDerivative_eq_error_iff (hw : 33 ≤ w) (hp : p.Canonical) {f : Fault} :
    p.nthDerivative n = .error f ↔
      f = .arithmetic .multiply ∧ ∃ t ∈ p.terms, ¬ Fits w (lastProduct n t) := by
  rw [eq_error_iff_of_unique fun _ => nthDerivative_eq_error hp, exists_nthDerivative_iff hw hp]
  push Not
  exact Iff.rfl

theorem coeffAt_nthDerivative (hw : 33 ≤ w) (hp : p.Canonical) (h : p.nthDerivative n = .ok r)
    (k : ℕ) : r.coeffAt k = p.coeffAt (k + n) * (k + n).descFactorial n := by
  have hwide : 2 ≤ w := by omega
  rw [← coeff_polynomial_eq_coeffAt hwide (hp.nthDerivative h),
    ← coeff_polynomial_eq_coeffAt hwide hp,
    ExactReading.polynomial_nthDerivative (Signed.embedsExponents_reading hw) h,
    Polynomial.coeff_iterate_derivative, nsmul_eq_mul, mul_comm]

theorem coeffAt_eq_zero_of_degree_lt (hp : p.Canonical) {d : Exponent} (hd : p.degree = .ok d)
    {k : ℕ} (h : d.val < k) : p.coeffAt k = 0 := by
  rw [coeffAt]
  split
  · have hfree : p.coeff ⟨k, ‹_›⟩ = Coefficient.zero := by
      refine coeff_eq_zero_of_forall_ne fun t ht htk => ?_
      have hle : t.exponent.val ≤ d.val := exponent_le_of_degree hp hd ht
      rw [htk] at hle
      exact absurd hle (not_le.2 h)
    rw [hfree, Signed.val_zero]
  · rfl

/-- Among words that hold every exponent, a higher derivative is stopped exactly if the last product
of some term is no word, and otherwise it has the exact coefficients.  Among coefficients of any
kind a derivative of a derivative ends as the one of the added order does. -/
theorem nthDerivative_exact_additive :
    (∀ w, 33 ≤ w → ∀ p : SparsePoly (Signed w), p.Canonical → ∀ n,
      (∀ f, p.nthDerivative n = .error f ↔
        f = .arithmetic .multiply ∧ ∃ t ∈ p.terms, ¬ Fits w (lastProduct n t)) ∧
      ∀ r, p.nthDerivative n = .ok r → ∀ k,
        r.coeffAt k = p.coeffAt (k + n) * (k + n).descFactorial n ∧
        ∀ d, p.degree = .ok d → d.val < k + n → r.coeffAt k = 0) ∧
    ∀ (C : Type) [Coefficient C] (p : SparsePoly C) (m n : ℕ),
      (do (← p.nthDerivative m).nthDerivative n) = p.nthDerivative (m + n) := by
  refine ⟨fun w hw p hp n => ⟨fun f => nthDerivative_eq_error_iff hw hp, fun r hr k => ?_⟩,
    fun C _ p m n => (nthDerivative_add p m n).symm⟩
  have hvalue := coeffAt_nthDerivative hw hp hr k
  refine ⟨hvalue, fun d hd hlt => ?_⟩
  rw [hvalue, coeffAt_eq_zero_of_degree_lt hp hd hlt, zero_mul]

/-- Among words of 64 bits the factorial of 20 is the last one; the next one stops every derivative
of an order that reaches it, also in two parts. -/
theorem nthDerivative_exact_additive_at_limits :
    let p : SparsePoly (Signed 64) := ⟨[⟨20, ⟨1, by decide⟩⟩]⟩
    let q : SparsePoly (Signed 64) := ⟨[⟨21, ⟨1, by decide⟩⟩]⟩
    (∃ r, p.nthDerivative 20 = .ok r ∧ r.coeffAt 0 = 2432902008176640000) ∧
      p.nthDerivative 4294967295 ≠ .error (.arithmetic .multiply) ∧
      q.nthDerivative 4294967295 = .error (.arithmetic .multiply) ∧
      (do (← q.nthDerivative 20).nthDerivative 4294967275) = .error (.arithmetic .multiply) := by
  intro p q
  obtain ⟨hexact, hadd⟩ := nthDerivative_exact_additive
  obtain ⟨-, hvalue⟩ := hexact 64 (by decide) p (by decide) 20
  obtain ⟨hreturn, -⟩ := hexact 64 (by decide) p (by decide) 4294967295
  obtain ⟨hstop, -⟩ := hexact 64 (by decide) q (by decide) 4294967295
  obtain ⟨r, hr⟩ : ∃ r, p.nthDerivative 20 = .ok r := ⟨_, rfl⟩
  have hstopped := (hstop _).2 ⟨rfl, by decide⟩
  have hrepeated := (hadd _ q 20 4294967275).trans hstopped
  refine ⟨⟨r, hr, (hvalue r hr 0).1⟩, fun h => ?_, hstopped, hrepeated⟩
  obtain ⟨-, hlast⟩ := (hreturn _).1 h
  exact absurd hlast (by decide)

end SparsePoly

end Univariate
