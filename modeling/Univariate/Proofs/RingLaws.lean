import Univariate.Proofs.Convolution

/-! # The laws of a commutative ring

Each side of a law builds its polynomial by insertions, sums and removals of its own.  Both are read
as the same polynomial over the integers, and canonical polynomials that are read alike store the
same terms.  The products with one and with zero always return. -/

namespace Univariate.SparsePoly

variable {w : Nat} {p q r : SparsePoly (Signed w)}

theorem agree_add_comm (hw : 2 ≤ w) (hp : p.Canonical) (hq : q.Canonical) :
    Agree (p.add q) (q.add p) := by
  intro s t hs ht
  apply (Signed.reading hw).polynomial_injective (hp.addTerms hs) (hq.addTerms ht)
  rw [ExactReading.polynomial_add _ hs, ExactReading.polynomial_add _ ht, add_comm]

theorem agree_add_assoc (hw : 2 ≤ w) (hp : p.Canonical) :
    Agree (do (← p.add q).add r) (do p.add (← q.add r)) := by
  intro s t hs ht
  obtain ⟨pq, hpq, hs⟩ := bind_eq_ok_iff.1 hs
  obtain ⟨qr, hqr, ht⟩ := bind_eq_ok_iff.1 ht
  apply (Signed.reading hw).polynomial_injective ((hp.addTerms hpq).addTerms hs) (hp.addTerms ht)
  rw [ExactReading.polynomial_add _ hs, ExactReading.polynomial_add _ hpq,
    ExactReading.polynomial_add _ ht, ExactReading.polynomial_add _ hqr, add_assoc]

theorem polynomial_neg (hw : 2 ≤ w) (h : p.neg = .ok q) :
    (Signed.reading hw).polynomial q = -(Signed.reading hw).polynomial p := by
  rw [ExactReading.polynomial_scale _ h, Signed.value_reading, Signed.val_ofInt_neg_one hw,
    map_neg, map_one, mul_neg_one]

theorem agree_add_neg (hw : 2 ≤ w) (hp : p.Canonical) :
    Agree (do p.add (← p.neg)) (.ok zero) := by
  intro s t hs ht
  obtain ⟨n, hn, hs⟩ := bind_eq_ok_iff.1 hs
  cases ht
  apply (Signed.reading hw).polynomial_injective (hp.addTerms hs) canonical_zero
  rw [ExactReading.polynomial_add _ hs, polynomial_neg hw hn, add_neg_cancel,
    ExactReading.polynomial_zero]

theorem canonical_mul (h : p.mul q = .ok r) : r.Canonical := canonical_tryMul (mul_eq_ok_iff.1 h)

theorem agree_mul_comm (hw : 2 ≤ w) : Agree (p.mul q) (q.mul p) := by
  intro s t hs ht
  apply (Signed.reading hw).polynomial_injective (canonical_mul hs) (canonical_mul ht)
  rw [ExactReading.polynomial_mul _ hs, ExactReading.polynomial_mul _ ht, mul_comm]

theorem agree_mul_assoc (hw : 2 ≤ w) :
    Agree (do (← p.mul q).mul r) (do p.mul (← q.mul r)) := by
  intro s t hs ht
  obtain ⟨pq, hpq, hs⟩ := bind_eq_ok_iff.1 hs
  obtain ⟨qr, hqr, ht⟩ := bind_eq_ok_iff.1 ht
  apply (Signed.reading hw).polynomial_injective (canonical_mul hs) (canonical_mul ht)
  rw [ExactReading.polynomial_mul _ hs, ExactReading.polynomial_mul _ hpq,
    ExactReading.polynomial_mul _ ht, ExactReading.polynomial_mul _ hqr, mul_assoc]

theorem agree_add_mul (hw : 2 ≤ w) :
    Agree (do (← p.add q).mul r) (do (← p.mul r).add (← q.mul r)) := by
  intro s t hs ht
  obtain ⟨pq, hpq, hs⟩ := bind_eq_ok_iff.1 hs
  obtain ⟨pr, hpr, ht⟩ := bind_eq_ok_iff.1 ht
  obtain ⟨qr, hqr, ht⟩ := bind_eq_ok_iff.1 ht
  apply (Signed.reading hw).polynomial_injective (canonical_mul hs)
    ((canonical_mul hpr).addTerms ht)
  rw [ExactReading.polynomial_mul _ hs, ExactReading.polynomial_add _ hpq,
    ExactReading.polynomial_add _ ht, ExactReading.polynomial_mul _ hpr,
    ExactReading.polynomial_mul _ hqr, add_mul]

theorem terms_one (hw : 2 ≤ w) : (one : SparsePoly (Signed w)).terms = [⟨0, Coefficient.one⟩] := by
  have hone : Coefficient.isZero (Coefficient.one : Signed w) = false := by
    rw [Bool.eq_false_iff, ne_eq, Signed.isZero_iff, Signed.val_one hw]
    exact one_ne_zero
  rw [one, constant, monomial, hone]
  rfl

/-- The products with one are the terms themselves, so even the least word is no obstacle. -/
theorem mul_one_eq_ok (hw : 2 ≤ w) (hp : p.Canonical) : p.mul one = .ok p := by
  have hpairs : termPairs p one = p.terms.map fun t => (t, ⟨0, Coefficient.one⟩) := by
    rw [termPairs, terms_one hw]
    exact List.map_eq_flatMap.symm
  have hproducts : List.Forall₂ IsProduct (termPairs p one) p.terms := by
    rw [hpairs, List.forall₂_map_left_iff, List.forall₂_same]
    intro t _
    exact ⟨Nat.add_zero _, by rw [Signed.val_one hw, mul_one]⟩
  rw [mul_eq_ok_iff, tryMul, foldlM_addProduct hproducts, ← ofTerms,
    ofTerms_perm hp (List.Perm.refl _), attempt_ok]

/-- Sums and products of stored polynomials obey the laws of a commutative ring as far as they
return. -/
theorem commutative_ring_laws (hw : 2 ≤ w) (hp : p.Canonical) (hq : q.Canonical) :
    Agree (p.add q) (q.add p) ∧
    Agree (do (← p.add q).add r) (do p.add (← q.add r)) ∧
    Agree (p.mul q) (q.mul p) ∧
    Agree (do (← p.mul q).mul r) (do p.mul (← q.mul r)) ∧
    Agree (do (← p.add q).mul r) (do (← p.mul r).add (← q.mul r)) ∧
    p.mul one = .ok p ∧
    p.mul zero = .ok zero ∧
    Agree (do p.add (← p.neg)) (.ok zero) :=
  ⟨agree_add_comm hw hp hq, agree_add_assoc hw hp, agree_mul_comm hw, agree_mul_assoc hw,
    agree_add_mul hw, mul_one_eq_ok hw hp, mul_eq_ok_iff.2 (tryMul_zero p), agree_add_neg hw hp⟩

/-- The sum of `x + 1` and `x - 1` has lost a term before it is multiplied; the products with
`2 * x` lose it when they are added. -/
theorem commutative_ring_laws_cancelling :
    let p : SparsePoly (Signed 32) := ⟨[⟨0, ⟨1, by decide⟩⟩, ⟨1, ⟨1, by decide⟩⟩]⟩
    let q : SparsePoly (Signed 32) := ⟨[⟨0, ⟨-1, by decide⟩⟩, ⟨1, ⟨1, by decide⟩⟩]⟩
    let r : SparsePoly (Signed 32) := ⟨[⟨1, ⟨2, by decide⟩⟩]⟩
    ∃ s : SparsePoly (Signed 32), s.size = 1 ∧ (do (← p.add q).mul r) = .ok s ∧
      (do (← p.mul r).add (← q.mul r)) = .ok s := by
  intro p q r
  obtain ⟨-, -, -, -, hdistrib, -⟩ :=
    commutative_ring_laws (p := p) (q := q) (r := r) (by decide) (by decide) (by decide)
  have hleft : (do (← p.add q).mul r) = .ok ⟨[⟨2, ⟨4, by decide⟩⟩]⟩ := by decide
  obtain ⟨s, hright⟩ : ∃ s, (do (← p.mul r).add (← q.mul r)) = .ok s := ⟨_, rfl⟩
  cases hdistrib _ s hleft hright
  exact ⟨_, rfl, hleft, hright⟩

end Univariate.SparsePoly
