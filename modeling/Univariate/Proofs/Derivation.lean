import Mathlib.Algebra.Polynomial.Derivative
import Univariate.Proofs.RingLaws

/-! # Differentiation is a derivation

Where the embedding of the exponents is exact, the formal derivative of a stored polynomial is read
as the derivative of the polynomial that it is read as.  Linearity and the product rule then hold
for the stored terms, whichever of them cancel on the way.  Words of 33 bits and more hold every
exponent; in narrower ones the larger exponents are wrapped. -/

namespace Univariate

namespace ExactReading

variable {C : Type} [Coefficient C] {R : Type} [CommRing R] (ν : ExactReading C R)

/-- The factors that a derivative multiplies with are read as the exponents. -/
def EmbedsExponents : Prop := ∀ e : Exponent, ν.value (Coefficient.ofInt e.val) = e.val

variable {ν} {p q : SparsePoly C}

private theorem value_timesInt (hν : ν.EmbedsExponents) {c d : C} {e : Exponent}
    (h : Coefficient.timesInt c e.val = .ok d) : ν.value d = ν.value c * e.val := by
  rw [Coefficient.timesInt] at h
  split at h
  · rename_i he
    cases h
    rw [ν.zero, Int.natCast_eq_zero.1 he, Nat.cast_zero, mul_zero]
  · rw [ν.mul h, hν]

/-- The constant terms are left out, and the derivative of a constant is zero. -/
theorem polynomial_derivative (hν : ν.EmbedsExponents) (h : p.derivative = .ok q) :
    ν.polynomial q = Polynomial.derivative (ν.polynomial p) := by
  have hstep : ∀ (b d : SparsePoly C) (t : Term C),
      (do b.addTerm ⟨t.exponent.lower, ← Coefficient.timesInt t.coeff t.exponent.val⟩) =
        Except.ok d →
      ν.polynomial d = ν.polynomial b + Polynomial.derivative (ν.term t) := by
    intro b d t hd
    obtain ⟨c, hc, hd⟩ := bind_eq_ok_iff.1 hd
    rw [ν.polynomial_addTerm hd, term, term, Polynomial.derivative_monomial,
      value_timesInt hν hc, Exponent.val_lower]
  rw [foldlM_sum hstep h, polynomial_zero, zero_add, polynomial]
  induction p.terms with
  | nil => simp
  | cons t l ih =>
    rw [List.map_cons, List.sum_cons, Polynomial.derivative_add, ← ih, List.filter_cons]
    split
    · rw [List.map_cons, List.sum_cons]
    · rename_i he
      have hzero : t.exponent = 0 := by simpa using he
      rw [term, hzero, Fin.val_zero, Polynomial.monomial_zero_left, Polynomial.derivative_C,
        zero_add]

end ExactReading

namespace Signed

variable {w : Nat}

theorem embedsExponents_reading (hw : 33 ≤ w) :
    (reading (by omega : 2 ≤ w)).EmbedsExponents := by
  intro e
  have hhalf : 4294967296 ≤ halfRange w :=
    Nat.pow_le_pow_right (by decide : 0 < 2) (by omega : 32 ≤ w - 1)
  have hlt : e.val < 4294967296 := e.isLt
  exact wrap_of_fits (by omega) ⟨by omega, by omega⟩

end Signed

namespace SparsePoly

variable {w : Nat} {p q : SparsePoly (Signed w)}

theorem agree_derivative_add (hw : 33 ≤ w) :
    Agree (do (← p.add q).derivative) (do (← p.derivative).add (← q.derivative)) := by
  intro s t hs ht
  obtain ⟨pq, hpq, hs⟩ := bind_eq_ok_iff.1 hs
  obtain ⟨p', hp', ht⟩ := bind_eq_ok_iff.1 ht
  obtain ⟨q', hq', ht⟩ := bind_eq_ok_iff.1 ht
  have hν := Signed.embedsExponents_reading hw
  apply (Signed.reading (by omega)).polynomial_injective (canonical_derivative hs)
    ((canonical_derivative hp').addTerms ht)
  rw [ExactReading.polynomial_derivative hν hs, ExactReading.polynomial_add _ hpq,
    ExactReading.polynomial_add _ ht, ExactReading.polynomial_derivative hν hp',
    ExactReading.polynomial_derivative hν hq', Polynomial.derivative_add]

theorem agree_derivative_scale (hw : 33 ≤ w) (c : Signed w) :
    Agree (do (← p.scale c).derivative) (do (← p.derivative).scale c) := by
  intro s t hs ht
  obtain ⟨pc, hpc, hs⟩ := bind_eq_ok_iff.1 hs
  obtain ⟨p', hp', ht⟩ := bind_eq_ok_iff.1 ht
  have hν := Signed.embedsExponents_reading hw
  apply (Signed.reading (by omega)).polynomial_injective (canonical_derivative hs)
    (canonical_scale ht)
  rw [ExactReading.polynomial_derivative hν hs, ExactReading.polynomial_scale _ hpc,
    ExactReading.polynomial_scale _ ht, ExactReading.polynomial_derivative hν hp',
    Polynomial.derivative_mul, Polynomial.derivative_C, mul_zero, add_zero]

theorem agree_derivative_mul (hw : 33 ≤ w) :
    Agree (do (← p.mul q).derivative)
      (do (← (← p.derivative).mul q).add (← p.mul (← q.derivative))) := by
  intro s t hs ht
  obtain ⟨pq, hpq, hs⟩ := bind_eq_ok_iff.1 hs
  obtain ⟨p', hp', ht⟩ := bind_eq_ok_iff.1 ht
  obtain ⟨left, hleft, ht⟩ := bind_eq_ok_iff.1 ht
  obtain ⟨q', hq', ht⟩ := bind_eq_ok_iff.1 ht
  obtain ⟨right, hright, ht⟩ := bind_eq_ok_iff.1 ht
  have hν := Signed.embedsExponents_reading hw
  apply (Signed.reading (by omega)).polynomial_injective (canonical_derivative hs)
    ((canonical_mul hleft).addTerms ht)
  rw [ExactReading.polynomial_derivative hν hs, ExactReading.polynomial_mul _ hpq,
    ExactReading.polynomial_add _ ht, ExactReading.polynomial_mul _ hleft,
    ExactReading.polynomial_mul _ hright, ExactReading.polynomial_derivative hν hp',
    ExactReading.polynomial_derivative hν hq', Polynomial.derivative_mul]

/-- Over words that hold every exponent, differentiation is linear and obeys the product rule as far
as both sides return. -/
theorem derivative_is_derivation (hw : 33 ≤ w) (p q : SparsePoly (Signed w)) (c : Signed w) :
    Agree (do (← p.add q).derivative) (do (← p.derivative).add (← q.derivative)) ∧
    Agree (do (← p.scale c).derivative) (do (← p.derivative).scale c) ∧
    Agree (do (← p.mul q).derivative)
      (do (← (← p.derivative).mul q).add (← p.mul (← q.derivative))) :=
  ⟨agree_derivative_add hw, agree_derivative_scale hw c, agree_derivative_mul hw⟩

/-- The constant terms of `x + 1` and `x - 1` cancel in their sum.  Their product has lost its
linear term before it is differentiated, and the constant terms of the two products on the other
side cancel when they are added.  The multiple is by three. -/
theorem derivative_is_derivation_cancelling :
    let p : SparsePoly (Signed 64) := ⟨[⟨0, ⟨1, by decide⟩⟩, ⟨1, ⟨1, by decide⟩⟩]⟩
    let q : SparsePoly (Signed 64) := ⟨[⟨0, ⟨-1, by decide⟩⟩, ⟨1, ⟨1, by decide⟩⟩]⟩
    let c : Signed 64 := ⟨3, by decide⟩
    (∃ s : SparsePoly (Signed 64), s.size = 1 ∧ (do (← p.add q).derivative) = .ok s ∧
      (do (← p.derivative).add (← q.derivative)) = .ok s) ∧
    (∃ s : SparsePoly (Signed 64), s.size = 1 ∧ (do (← p.scale c).derivative) = .ok s ∧
      (do (← p.derivative).scale c) = .ok s) ∧
    ∃ s : SparsePoly (Signed 64), s.size = 1 ∧ (do (← p.mul q).derivative) = .ok s ∧
      (do (← (← p.derivative).mul q).add (← p.mul (← q.derivative))) = .ok s := by
  intro p q c
  obtain ⟨hsum, hmultiple, hproduct⟩ := derivative_is_derivation (by decide) p q c
  refine ⟨?_, ?_, ?_⟩
  · have hleft : (do (← p.add q).derivative) = .ok ⟨[⟨0, ⟨2, by decide⟩⟩]⟩ := by decide
    obtain ⟨s, hright⟩ : ∃ s, (do (← p.derivative).add (← q.derivative)) = .ok s := ⟨_, rfl⟩
    cases hsum _ s hleft hright
    exact ⟨_, rfl, hleft, hright⟩
  · have hleft : (do (← p.scale c).derivative) = .ok ⟨[⟨0, ⟨3, by decide⟩⟩]⟩ := by decide
    obtain ⟨s, hright⟩ : ∃ s, (do (← p.derivative).scale c) = .ok s := ⟨_, rfl⟩
    cases hmultiple _ s hleft hright
    exact ⟨_, rfl, hleft, hright⟩
  · have hleft : (do (← p.mul q).derivative) = .ok ⟨[⟨1, ⟨2, by decide⟩⟩]⟩ := by decide
    obtain ⟨s, hright⟩ : ∃ s, (do (← (← p.derivative).mul q).add (← p.mul (← q.derivative))) =
        .ok s := ⟨_, rfl⟩
    cases hproduct _ s hleft hright
    exact ⟨_, rfl, hleft, hright⟩

end SparsePoly

end Univariate
