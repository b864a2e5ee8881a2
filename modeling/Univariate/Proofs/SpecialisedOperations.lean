import Univariate.Proofs.CoefficientLaws
import Univariate.Proofs.StoredCoefficients

/-! # Operations with an operand of one term

Sums with a scalar, multiples, shifts and products with a power of the variable have loops and tests
for zero of their own.  Each ends as the general operation does when the operand is written as a
polynomial, in the same polynomial or with the same failure.  Only a difference with a scalar may be
stopped by another fault, because the general one multiplies where it negates. -/

namespace Univariate.SparsePoly

variable {C : Type} [Coefficient C] {p : SparsePoly C}

private theorem termPairs_monomial (p : SparsePoly C) {c : C} (hc : Coefficient.isZero c = false)
    (n : Exponent) : termPairs p (monomial c n) = p.terms.map fun s => (s, ⟨n, c⟩) := by
  rw [termPairs, terms_monomial hc]
  exact List.map_eq_flatMap.symm

theorem tryMulMonomial_eq (p : SparsePoly C) (c : C) (n : Exponent) :
    p.tryMulMonomial c n = p.tryMul (monomial c n) := by
  rw [tryMulMonomial]
  split
  · rename_i hc
    rw [monomial, if_pos hc]
    exact (tryMul_zero p).symm
  · rename_i hc
    rw [tryMul, termPairs_monomial p (Bool.eq_false_iff.2 hc), List.foldlM_map]

private theorem addProduct_constant (sum : SparsePoly C) (s : Term C) (c : C) :
    sum.addProduct s ⟨0, c⟩ =
      attempt (do sum.addTerm ⟨s.exponent, ← Coefficient.mul s.coeff c⟩) :=
  addProduct_of_add_eq (Nat.add_zero _)

theorem scale_eq (p : SparsePoly C) (c : C) : attempt (p.scale c) = p.tryMul (constant c) := by
  rw [constant, ← tryMulMonomial_eq, scale, tryMulMonomial]
  split
  · rfl
  · simp only [attempt_foldlM, addProduct_constant]

private theorem scale_one (units : SignedUnits C) (hp : p.Canonical) :
    p.scale Coefficient.one = .ok p := by
  rw [scale, units.isZero_one]
  simp only [units.mul_one, ok_bind]
  exact hp.ofTerms_terms

theorem tryShift_eq (units : SignedUnits C) (hp : p.Canonical) (n : Exponent) :
    p.tryShift n = p.tryMul (monomial Coefficient.one n) := by
  rw [tryShift]
  split
  · rename_i hn
    rw [hn, ← constant, ← scale_eq, scale_one units hp, attempt_ok]
  · exact tryMulMonomial_eq p _ n

private theorem zero_addTerm (t : Term C) : zero.addTerm t = .ok (monomial t.coeff t.exponent) := by
  rw [addTerm, monomial]
  split <;> rfl

theorem addScalar_eq (p : SparsePoly C) (c : C) : p.addScalar c = p.add (constant c) := by
  rw [addScalar, addTerm, add, constant, monomial]
  split
  · rfl
  · rename_i hc
    have hterm : p.addTerms [⟨0, c⟩] = p.addTerm ⟨0, c⟩ := List.foldlM_cons.trans (bind_pure _)
    rw [hterm, addTerm, if_neg hc]

private theorem neg_constant (units : SignedUnits C) {c : C} (hc : Coefficient.isZero c = false) :
    (constant c).neg = (Coefficient.mul c (Coefficient.ofInt (-1))).map constant := by
  have hunit : ¬ Coefficient.isZero (Coefficient.ofInt (-1) : C) = true :=
    Bool.eq_false_iff.1 units.isZero_negOne
  have hterms : (constant c).terms = [⟨0, c⟩] := terms_monomial hc 0
  rw [neg, scale, if_neg hunit, hterms, List.foldlM_cons]
  cases Coefficient.mul c (Coefficient.ofInt (-1)) with
  | error f => rfl
  | ok y =>
    rw [ok_bind, zero_addTerm]
    rfl

theorem subScalar_eq (units : SignedUnits C) (p : SparsePoly C) (c : C) :
    (p.subScalar c).toOption = (p.sub (constant c)).toOption := by
  cases hc : Coefficient.isZero c with
  | true =>
    obtain ⟨y, hy, hzero⟩ := units.neg_of_isZero c hc
    have hconstant : constant c = zero := by
      rw [constant, monomial, hc]
      rfl
    have hneg : (zero : SparsePoly C).neg = .ok zero := by
      rw [neg, scale]
      split <;> rfl
    rw [subScalar, hy, ok_bind, addScalar, addTerm, if_pos hzero, sub, hconstant, hneg]
    rfl
  | false =>
    rw [subScalar, sub, neg_constant units hc, toOption_bind, toOption_bind, units.neg_eq_mul]
    cases Coefficient.mul c (Coefficient.ofInt (-1)) with
    | error f => rfl
    | ok y => exact congrArg Except.toOption (addScalar_eq p y)

/-- Whatever the coefficients round or refuse, the operations for one term end as the general ones
do.  The words of two bits and more and the numbers of both precisions have the units that this
needs. -/
theorem specialised_operations_agree :
    (∀ (C : Type) [Coefficient C], SignedUnits C → ∀ p : SparsePoly C, p.Canonical →
      ∀ (c : C) (n : Exponent),
        p.tryMulMonomial c n = p.tryMul (monomial c n) ∧
        attempt (p.scale c) = p.tryMul (constant c) ∧
        p.tryShift n = p.tryMul (monomial Coefficient.one n) ∧
        p.addScalar c = p.add (constant c) ∧
        (p.subScalar c).toOption = (p.sub (constant c)).toOption) ∧
    (∀ w, 2 ≤ w → SignedUnits (Signed w)) ∧ SignedUnits Float32 ∧ SignedUnits Float := by
  refine ⟨?_, fun w hw => Signed.signedUnits hw, signedUnits_single, signedUnits_double⟩
  intro C _ units p hp c n
  exact ⟨tryMulMonomial_eq p c n, scale_eq p c, tryShift_eq units hp n, addScalar_eq p c,
    subScalar_eq units p c⟩

/-- Half of the least double precision number is zero, so that the multiple loses a term; infinity
stays.  The negative of the least word is refused on both sides, for different reasons. -/
theorem specialised_operations_agree_at_limits :
    let infinity : Float := .ofBits 0x7ff0000000000000
    let p : SparsePoly Float := ⟨[⟨0, .ofBits 1⟩, ⟨1, infinity⟩]⟩
    let half : Float := .ofBits 0x3fe0000000000000
    let q : SparsePoly (Signed 32) := zero
    p.scale half = .ok ⟨[⟨1, infinity⟩]⟩ ∧ p.tryMul (constant half) = .ok ⟨[⟨1, infinity⟩]⟩ ∧
      p.tryMul (monomial Coefficient.one 0) = .ok p ∧
      q.subScalar Signed.least = .error (.arithmetic .negate) ∧
      q.sub (constant Signed.least) = .error (.arithmetic .multiply) ∧
      (q.subScalar Signed.least).toOption = (q.sub (constant Signed.least)).toOption := by
  intro infinity p half q
  obtain ⟨hall, hwords, -, hdouble⟩ := specialised_operations_agree
  have hp : p.Canonical := by decide +kernel
  have hscale : p.scale half = .ok ⟨[⟨1, infinity⟩]⟩ := by decide +kernel
  obtain ⟨-, hmul, hshift, -⟩ := hall Float hdouble p hp half 0
  obtain ⟨-, -, -, -, hsub⟩ :=
    hall (Signed 32) (hwords 32 (by decide)) q (by decide) Signed.least 0
  refine ⟨hscale, ?_, hshift.symm, by decide, by decide, hsub⟩
  rw [← hmul, hscale, attempt_ok]

end Univariate.SparsePoly
