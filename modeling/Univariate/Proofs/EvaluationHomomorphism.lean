import Univariate.Proofs.WordPowers

/-! # Evaluation is a ring homomorphism

The value of a sum, a product, a multiple, a shift or a power at a point is the sum, product or
power of the values there.  This holds for every exact reading of the coefficients.  Over signed
words the operation on the values is not even stopped, because what it is to return has been
computed in another way; only the power of the point that belongs to a shift can be out of range by
itself. -/

namespace Univariate

namespace ExactReading

variable {C : Type} [Coefficient C] {R : Type} [CommRing R] (ν : ExactReading C R)
  {p q s : SparsePoly C} {x u v y : C}

theorem value_eval_add (hu : p.eval x = .ok u) (hv : q.eval x = .ok v) (hs : p.add q = .ok s)
    (hy : s.eval x = .ok y) : ν.value y = ν.value u + ν.value v := by
  rw [ν.value_eval hy, ν.polynomial_add hs, Polynomial.eval_add, ν.value_eval hu, ν.value_eval hv]

theorem value_eval_mul (hu : p.eval x = .ok u) (hv : q.eval x = .ok v) (hs : p.mul q = .ok s)
    (hy : s.eval x = .ok y) : ν.value y = ν.value u * ν.value v := by
  rw [ν.value_eval hy, ν.polynomial_mul hs, Polynomial.eval_mul, ν.value_eval hu, ν.value_eval hv]

theorem value_eval_scale {c : C} (hu : p.eval x = .ok u) (hs : p.scale c = .ok s)
    (hy : s.eval x = .ok y) : ν.value y = ν.value c * ν.value u := by
  rw [ν.value_eval hy, ν.polynomial_scale hs, Polynomial.eval_mul, Polynomial.eval_C,
    ν.value_eval hu, mul_comm]

theorem value_eval_shift {n : Exponent} (hu : p.eval x = .ok u) (hs : p.shift n = .ok s)
    (hy : s.eval x = .ok y) : ν.value y = ν.value x ^ n.val * ν.value u := by
  rw [ν.value_eval hy, ν.polynomial_shift hs, Polynomial.eval_mul_X_pow, ν.value_eval hu, mul_comm]

theorem value_eval_pow {n : ℕ} (hu : p.eval x = .ok u) (hs : p.pow n = .ok s)
    (hy : s.eval x = .ok y) : ν.value y = ν.value u ^ n := by
  rw [ν.value_eval hy, ν.polynomial_pow hs, Polynomial.eval_pow, ν.value_eval hu]

end ExactReading

namespace SparsePoly

variable {w : Nat} {p q : SparsePoly (Signed w)} {x u v : Signed w}

/-- The values of sums, products, multiples, shifts and powers are what the operations on words make
of the values of the operands.  The power zero of zero is one. -/
theorem eval_ring_homomorphism (hw : 2 ≤ w) (hu : p.eval x = .ok u) (hv : q.eval x = .ok v) :
    (∀ s y, p.add q = .ok s → s.eval x = .ok y → Coefficient.add u v = .ok y) ∧
    (∀ s y, p.mul q = .ok s → s.eval x = .ok y → Coefficient.mul u v = .ok y) ∧
    (∀ c s y, p.scale c = .ok s → s.eval x = .ok y → Coefficient.mul c u = .ok y) ∧
    (∀ n s y z, p.shift n = .ok s → s.eval x = .ok y → Coefficient.pow x n.val = .ok z →
      Coefficient.mul z u = .ok y) ∧
    (∀ n s y, p.pow n = .ok s → s.eval x = .ok y → Coefficient.pow u n = .ok y) ∧
    Coefficient.pow (Coefficient.zero : Signed w) 0 = .ok Coefficient.one := by
  let ν := Signed.reading hw
  refine ⟨?_, ?_, ?_, ?_, ?_, Coefficient.pow_zero _⟩
  · intro s y hs hy
    exact Signed.checked_eq_ok_iff.2 (ν.value_eval_add hu hv hs hy).symm
  · intro s y hs hy
    exact Signed.checked_eq_ok_iff.2 (ν.value_eval_mul hu hv hs hy).symm
  · intro c s y hs hy
    exact Signed.checked_eq_ok_iff.2 (ν.value_eval_scale hu hs hy).symm
  · intro n s y z hs hy hz
    have hpow : z.val = x.val ^ n.val := ν.value_pow hz
    have hvalue : y.val = x.val ^ n.val * u.val := ν.value_eval_shift hu hs hy
    rw [Signed.mul_def, Signed.checked_eq_ok_iff, hpow, hvalue]
  · intro n s y hs hy
    exact (Signed.pow_eq_ok_iff hw).2 (ν.value_eval_pow hu hs hy).symm

/-- At a root of `x + 1` the power zero of the value is one as well. -/
theorem eval_ring_homomorphism_at_root :
    let p : SparsePoly (Signed 32) := ⟨[⟨0, ⟨1, by decide⟩⟩, ⟨1, ⟨1, by decide⟩⟩]⟩
    let q : SparsePoly (Signed 32) := ⟨[⟨0, ⟨-1, by decide⟩⟩, ⟨1, ⟨1, by decide⟩⟩]⟩
    let x : Signed 32 := ⟨-1, by decide⟩
    ∃ u v y z : Signed 32, u.val = 0 ∧ z.val = 1 ∧ p.eval x = .ok u ∧ q.eval x = .ok v ∧
      (do (← p.mul q).eval x) = .ok y ∧ Coefficient.mul u v = .ok y ∧
      (do (← p.pow 0).eval x) = .ok z ∧ Coefficient.pow u 0 = .ok z := by
  intro p q x
  have hu : p.eval x = .ok ⟨0, by decide⟩ := by decide +kernel
  have hv : q.eval x = .ok ⟨-2, by decide⟩ := by decide +kernel
  obtain ⟨-, hmul, -, -, hpow, -⟩ := eval_ring_homomorphism (by decide) hu hv
  have hproduct : p.mul q = .ok ⟨[⟨0, ⟨-1, by decide⟩⟩, ⟨2, ⟨1, by decide⟩⟩]⟩ := by decide
  have hzero : eval ⟨[⟨0, ⟨-1, by decide⟩⟩, ⟨2, ⟨1, by decide⟩⟩]⟩ x = .ok ⟨0, by decide⟩ := by
    decide +kernel
  have hone : (one : SparsePoly (Signed 32)).eval x = .ok ⟨1, by decide⟩ := by decide +kernel
  refine ⟨_, _, _, _, rfl, rfl, hu, hv, ?_, hmul _ _ hproduct hzero, hone, hpow 0 _ _ rfl hone⟩
  rw [hproduct]
  exact hzero

end SparsePoly

end Univariate
