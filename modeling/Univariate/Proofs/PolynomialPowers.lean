import Mathlib.Algebra.Order.BigOperators.Ring.Finset
import Mathlib.Algebra.Polynomial.Degree.Domain
import Univariate.Proofs.RingLaws
import Univariate.Proofs.WordPowers

/-! # Powers of polynomials

A power that is returned is the exact one.  All products on the way are powers of the same base, and
none of them is higher than the result.  Their degrees are exponents if that of the result is one.
The absolute values of their coefficients add up to no more than a power of the sum for the base, so
they stay in range if the power of that sum does. -/

namespace Univariate

variable {w : Nat}

/-- The coefficients of the `n`-th power of a polynomial with the coefficients `f`. -/
def convolutionPower (f : ℕ → ℤ) : ℕ → ℕ → ℤ
  | 0, k => if k = 0 then 1 else 0
  | n + 1, k => ∑ i ∈ Finset.range (k + 1), convolutionPower f n i * f (k - i)

theorem coeff_pow (P : Polynomial ℤ) (n k : ℕ) :
    (P ^ n).coeff k = convolutionPower P.coeff n k := by
  induction n generalizing k with
  | zero => rw [pow_zero, Polynomial.coeff_one, convolutionPower]
  | succ n ih =>
    rw [pow_succ, Polynomial.coeff_mul, convolutionPower,
      Finset.Nat.sum_antidiagonal_eq_sum_range_succ fun i j => (P ^ n).coeff i * P.coeff j]
    simp only [ih]

namespace SparsePoly

variable {C : Type} [Coefficient C] {p q : SparsePoly C}

theorem tryMul_ne_reported
    (h : ∀ s ∈ p.terms, ∀ t ∈ q.terms, s.exponent.val + t.exponent.val < 2 ^ 32)
    (o : ExponentOverflow) : p.tryMul q ≠ .error (.reported o) := by
  refine ends_ne_iff.1 (foldlM_ends (fun sum pair hpair _ => ends_ne_iff.2 ?_) trivial)
  obtain ⟨hs, ht⟩ := mem_termPairs.1 hpair
  let e : Exponent := ⟨_, h _ hs _ ht⟩
  rw [addProduct_of_add_eq (e := e) rfl]
  exact attempt_ne_reported

end SparsePoly

namespace ExactReading

variable {C : Type} [Coefficient C] {R : Type} [CommRing R] (ν : ExactReading C R)
  {p : SparsePoly C}

private theorem natDegree_lt (hp : p.Canonical) {n : ℕ} (hn : 0 < n)
    (h : ∀ t ∈ p.terms, t.exponent.val < n) : (ν.polynomial p).natDegree < n := by
  by_cases hzero : ν.polynomial p = 0
  · rwa [hzero, Polynomial.natDegree_zero]
  · exact (Polynomial.natDegree_lt_iff_degree_lt hzero).2 ((ν.degree_lt_iff hp).2 h)

private theorem natDegree_lt_two_pow (hp : p.Canonical) : (ν.polynomial p).natDegree < 2 ^ 32 :=
  ν.natDegree_lt hp (by decide) fun t _ => t.exponent.isLt

private theorem exponent_le_natDegree (hp : p.Canonical) {t : Term C} (ht : t ∈ p.terms) :
    t.exponent.val ≤ (ν.polynomial p).natDegree := by
  apply Polynomial.le_natDegree_of_ne_zero
  rw [ν.coeff_polynomial hp, hp.coeff_of_mem ht, ne_eq, ← ν.isZero_iff, hp.2 t ht]
  exact Bool.false_ne_true

theorem natDegree_polynomial (hp : p.Canonical) {d : Exponent} (h : p.degree = .ok d) :
    (ν.polynomial p).natDegree = d.val := by
  apply le_antisymm
  · exact Nat.le_of_lt_succ (ν.natDegree_lt hp (Nat.succ_pos _) fun t ht =>
      Nat.lt_succ_of_le (SparsePoly.exponent_le_of_degree hp h ht))
  · obtain ⟨t, ht, rfl⟩ := SparsePoly.degree_eq_ok_iff.1 h
    exact ν.exponent_le_natDegree hp (List.mem_of_getLast? ht)

end ExactReading

namespace SparsePoly

variable {p q r : SparsePoly (Signed w)}

def sumAbs (p : SparsePoly (Signed w)) : ℤ := (p.terms.map fun t => |t.coeff.val|).sum

private theorem sumAbs_eq (hp : p.Canonical) : p.sumAbs = ∑ e, |(p.coeff e).val| :=
  sum_terms hp (F := fun _ c => |c|) fun _ => abs_zero

theorem sumAbs_nonneg (p : SparsePoly (Signed w)) : 0 ≤ p.sumAbs := by
  apply List.sum_nonneg
  simp only [List.forall_mem_map]
  exact fun t _ => abs_nonneg _

private theorem sum_convolution_le {f g : Exponent → ℤ} (hf : ∀ e, 0 ≤ f e) (hg : ∀ e, 0 ≤ g e) :
    ∑ k, convolution f g k ≤ (∑ e, f e) * ∑ e, g e := by
  have hpair : ∀ ij : Exponent × Exponent,
      (∑ k : Exponent, if ij.1.val + ij.2.val = k.val then f ij.1 * g ij.2 else 0) ≤
        f ij.1 * g ij.2 := by
    intro ij
    by_cases hsum : ij.1.val + ij.2.val < 4294967296
    · have hplace : ∀ k : Exponent, ij.1.val + ij.2.val = k.val ↔ k = ⟨_, hsum⟩ := fun k =>
        ⟨fun h => Fin.ext h.symm, fun h => h ▸ rfl⟩
      simp only [hplace, Finset.sum_ite_eq', Finset.mem_univ, if_true, le_refl]
    · have hplace : ∀ k : Exponent, ¬ ij.1.val + ij.2.val = k.val := fun k => by omega
      simp only [hplace, if_false, Finset.sum_const_zero]
      exact mul_nonneg (hf _) (hg _)
  calc ∑ k, convolution f g k
      = ∑ ij : Exponent × Exponent, ∑ k : Exponent,
          if ij.1.val + ij.2.val = k.val then f ij.1 * g ij.2 else 0 := by
        simp only [convolution, Finset.sum_filter]
        exact Finset.sum_comm
    _ ≤ ∑ ij : Exponent × Exponent, f ij.1 * g ij.2 := Finset.sum_le_sum fun ij _ => hpair ij
    _ = (∑ e, f e) * ∑ e, g e := by rw [Fintype.sum_prod_type, Finset.sum_mul_sum]

private theorem abs_convolution_le (f g : Exponent → ℤ) (k : Exponent) :
    |convolution f g k| ≤ convolution (fun i => |f i|) (fun j => |g j|) k := by
  refine (Finset.abs_sum_le_sum_abs _ _).trans_eq ?_
  simp only [convolution, abs_mul]

private theorem convolution_abs_nonneg (f g : Exponent → ℤ) (k : Exponent) :
    0 ≤ convolution (fun i => |f i|) (fun j => |g j|) k :=
  (abs_nonneg _).trans (abs_convolution_le f g k)

private theorem sum_convolution_abs_le (hp : p.Canonical) (hq : q.Canonical) :
    ∑ k, convolution (fun i => |(p.coeff i).val|) (fun j => |(q.coeff j).val|) k ≤
      p.sumAbs * q.sumAbs := by
  have h := sum_convolution_le (f := fun i => |(p.coeff i).val|) (g := fun j => |(q.coeff j).val|)
    (fun _ => abs_nonneg _) fun _ => abs_nonneg _
  rwa [← sumAbs_eq hp, ← sumAbs_eq hq] at h

theorem sumAbs_tryMul_le (hw : 2 ≤ w) (hp : p.Canonical) (hq : q.Canonical)
    (h : p.tryMul q = .ok r) : r.sumAbs ≤ p.sumAbs * q.sumAbs := by
  rw [sumAbs_eq (canonical_tryMul h)]
  refine le_trans (Finset.sum_le_sum fun k _ => ?_) (sum_convolution_abs_le hp hq)
  rw [coeff_tryMul hw hp hq h]
  exact abs_convolution_le _ _ k

/-- Where the product of the sums is a word, nothing on the way to the product is out of range. -/
theorem tryMul_eq_ok_of_sumAbs (hp : p.Canonical) (hq : q.Canonical)
    (hexponents : ∀ s ∈ p.terms, ∀ t ∈ q.terms, s.exponent.val + t.exponent.val < 2 ^ 32)
    (hsum : p.sumAbs * q.sumAbs < halfRange w) : ∃ r, p.tryMul q = .ok r := by
  have hplace : ∀ k, convolution (fun i => |(p.coeff i).val|) (fun j => |(q.coeff j).val|) k ≤
      ∑ k, convolution (fun i => |(p.coeff i).val|) (fun j => |(q.coeff j).val|) k := fun k =>
    Finset.single_le_sum (f := convolution (fun i => |(p.coeff i).val|) fun j => |(q.coeff j).val|)
      (fun k _ => convolution_abs_nonneg _ _ k) (Finset.mem_univ k)
  exact tryMul_eq_ok hp hq hexponents fun k =>
    ((hplace k).trans (sum_convolution_abs_le hp hq)).trans_lt hsum

/-- What holds of every power of `p` that is formed. -/
structure IsPower (hw : 2 ≤ w) (p : SparsePoly (Signed w)) (i : ℕ) (r : SparsePoly (Signed w)) :
    Prop where
  canonical : r.Canonical
  polynomial_eq : (Signed.reading hw).polynomial r = (Signed.reading hw).polynomial p ^ i
  sumAbs_le : r.sumAbs ≤ p.sumAbs ^ i

namespace IsPower

variable {hw : 2 ≤ w} {i j : ℕ} {a b : SparsePoly (Signed w)}

theorem one (hw : 2 ≤ w) (p : SparsePoly (Signed w)) : IsPower hw p 0 .one where
  canonical := canonical_constant _
  polynomial_eq := by rw [ExactReading.polynomial_one, pow_zero]
  sumAbs_le := by
    have hone : |(Coefficient.one : Signed w).val| = 1 := by rw [Signed.val_one hw, abs_one]
    rw [sumAbs, terms_one hw, pow_zero, List.map_singleton, List.sum_singleton, hone]

theorem self (hw : 2 ≤ w) (hp : p.Canonical) : IsPower hw p 1 p where
  canonical := hp
  polynomial_eq := (pow_one _).symm
  sumAbs_le := (pow_one _).ge

theorem sumAbs_mul_le (ha : IsPower hw p i a) (hb : IsPower hw p j b) :
    a.sumAbs * b.sumAbs ≤ p.sumAbs ^ (i + j) := by
  calc a.sumAbs * b.sumAbs
      ≤ p.sumAbs ^ i * p.sumAbs ^ j := mul_le_mul ha.sumAbs_le hb.sumAbs_le
        (sumAbs_nonneg b) (pow_nonneg (sumAbs_nonneg p) i)
    _ = p.sumAbs ^ (i + j) := (pow_add _ i j).symm

theorem tryMul (ha : IsPower hw p i a) (hb : IsPower hw p j b) (h : a.tryMul b = .ok r) :
    IsPower hw p (i + j) r where
  canonical := canonical_tryMul h
  polynomial_eq := by
    rw [ExactReading.polynomial_tryMul _ h, ha.polynomial_eq, hb.polynomial_eq, pow_add]
  sumAbs_le := (sumAbs_tryMul_le hw ha.canonical hb.canonical h).trans (ha.sumAbs_mul_le hb)

theorem natDegree_eq (ha : IsPower hw p i a) :
    ((Signed.reading hw).polynomial a).natDegree =
      i * ((Signed.reading hw).polynomial p).natDegree := by
  rw [ha.polynomial_eq, Polynomial.natDegree_pow]

private theorem exponents_lt (ha : IsPower hw p i a) (hb : IsPower hw p j b) {n : ℕ}
    (hij : i + j ≤ n)
    (hn : n * ((Signed.reading hw).polynomial p).natDegree < 2 ^ 32) :
    ∀ s ∈ a.terms, ∀ t ∈ b.terms, s.exponent.val + t.exponent.val < 2 ^ 32 := by
  intro s hs t ht
  have hsa := (Signed.reading hw).exponent_le_natDegree ha.canonical hs
  have htb := (Signed.reading hw).exponent_le_natDegree hb.canonical ht
  rw [ha.natDegree_eq] at hsa
  rw [hb.natDegree_eq] at htb
  have hle := Nat.mul_le_mul_right ((Signed.reading hw).polynomial p).natDegree hij
  rw [add_mul] at hle
  omega

end IsPower

/-- A power fails in no other way than the products of lower powers do. -/
theorem tryPow_ends (hw : 2 ≤ w) (hp : p.Canonical) {Q : Failure ExponentOverflow → Prop} {n : ℕ}
    (hfail : ∀ i j a b, i + j ≤ n → IsPower hw p i a → IsPower hw p j b →
      Ends (fun _ => True) Q (a.tryMul b)) : Ends (IsPower hw p n) Q (p.tryPow n) := by
  have hmul : ∀ i j a b, i + j ≤ n → IsPower hw p i a → IsPower hw p j b →
      Ends (IsPower hw p (i + j)) Q (a.tryMul b) := fun i j a b hij ha hb =>
    ends_iff.2 ⟨fun _ => ha.tryMul hb, (ends_iff.1 (hfail i j a b hij ha hb)).2⟩
  rw [tryPow]
  split
  · rename_i hn
    rw [hn]
    exact IsPower.one hw p
  split
  · rename_i hn
    rw [hn]
    exact IsPower.self hw hp
  · exact binaryPower_ends hmul (fun j b hj hb => hmul j j b b hj hb hb) (IsPower.one hw p)
      (IsPower.self hw hp)

theorem isPower_of_tryPow (hw : 2 ≤ w) (hp : p.Canonical) {n : ℕ} (h : p.tryPow n = .ok r) :
    IsPower hw p n r := by
  have hends : Ends (IsPower hw p n) (fun _ => True) (p.tryPow n) :=
    tryPow_ends hw hp fun _ _ _ _ _ _ _ => ends_true_iff.2 fun _ _ => trivial
  exact ends_true_iff.1 hends r h

theorem tryPow_ne_reported (hw : 2 ≤ w) (hp : p.Canonical) {n : ℕ}
    (hn : n * ((Signed.reading hw).polynomial p).natDegree < 2 ^ 32) (o : ExponentOverflow) :
    p.tryPow n ≠ .error (.reported o) := by
  have hends : Ends (IsPower hw p n) (fun e => e ≠ .reported o) (p.tryPow n) :=
    tryPow_ends hw hp fun _ _ _ _ hij ha hb =>
      ends_ne_iff.2 (tryMul_ne_reported (ha.exponents_lt hb hij hn) o)
  exact fun h => (ends_iff.1 hends).2 _ h rfl

private theorem sumAbs_pow_lt (hw : 2 ≤ w) {m n : ℕ} (hmn : m ≤ n)
    (h : p.sumAbs ^ n < halfRange w) :
    p.sumAbs ^ m < halfRange w := by
  have hnonneg : 0 ≤ p.sumAbs ^ n := pow_nonneg (sumAbs_nonneg p) n
  have hfits : Fits w (p.sumAbs ^ n) := fits_of_abs_lt (by rwa [abs_of_nonneg hnonneg])
  exact (fits_pow_of_le hw hmn hfits).2

theorem tryPow_eq_ok (hw : 2 ≤ w) (hp : p.Canonical) {n : ℕ}
    (hn : n * ((Signed.reading hw).polynomial p).natDegree < 2 ^ 32)
    (hsum : p.sumAbs ^ n < halfRange w) : ∃ r, p.tryPow n = .ok r := by
  have hends : Ends (IsPower hw p n) (fun _ => False) (p.tryPow n) := by
    refine tryPow_ends hw hp fun i j a b hij ha hb => ends_false_iff.2 ?_
    have hproduct : a.sumAbs * b.sumAbs < halfRange w :=
      (ha.sumAbs_mul_le hb).trans_lt (sumAbs_pow_lt hw hij hsum)
    obtain ⟨r, hr⟩ := tryMul_eq_ok_of_sumAbs ha.canonical hb.canonical
      (ha.exponents_lt hb hij hn) hproduct
    exact ⟨r, hr, trivial⟩
  obtain ⟨r, hr, -⟩ := ends_false_iff.1 hends
  exact ⟨r, hr⟩

/-- The coefficient at any natural number; beyond the exponents it is zero. -/
def coeffAt (p : SparsePoly (Signed w)) (k : ℕ) : ℤ :=
  if h : k < 2 ^ 32 then (p.coeff ⟨k, h⟩).val else 0

theorem coeff_polynomial_eq_coeffAt (hw : 2 ≤ w) (hp : p.Canonical) :
    ((Signed.reading hw).polynomial p).coeff = p.coeffAt := by
  funext k
  rw [coeffAt]
  split
  · rename_i hk
    exact (Signed.reading hw).coeff_polynomial hp ⟨k, hk⟩
  · rename_i hk
    apply Polynomial.coeff_eq_zero_of_natDegree_lt
    exact ((Signed.reading hw).natDegree_lt_two_pow hp).trans_le (not_lt.1 hk)

/-- The polynomial zero, which has no degree, stands for any degree here. -/
private theorem mul_natDegree_lt (hw : 2 ≤ w) (hp : p.Canonical) {n : ℕ}
    (h : ∀ d, p.degree = .ok d → n * d.val < 2 ^ 32) :
    n * ((Signed.reading hw).polynomial p).natDegree < 2 ^ 32 := by
  by_cases hzero : p = zero
  · rw [hzero, ExactReading.polynomial_zero, Polynomial.natDegree_zero, mul_zero]
    decide
  · obtain ⟨d, hd⟩ := exists_degree hzero
    rw [ExactReading.natDegree_polynomial _ hp hd]
    exact h d hd

theorem tryPow_reported_iff (hw : 2 ≤ w) (hp : p.Canonical) {n : ℕ}
    (hrun : ∀ f, p.tryPow n ≠ .error (.stopped f)) :
    (∃ o, p.tryPow n = .error (.reported o)) ↔
      p ≠ zero ∧ ∃ d, p.degree = .ok d ∧ 2 ^ 32 ≤ n * d.val := by
  constructor
  · rintro ⟨o, ho⟩
    by_contra hsmall
    refine tryPow_ne_reported hw hp (mul_natDegree_lt hw hp fun d hd => ?_) o ho
    by_contra hlarge
    refine hsmall ⟨?_, d, hd, not_lt.1 hlarge⟩
    rintro rfl
    cases hd
  · rintro ⟨-, d, hd, hlarge⟩
    cases h : p.tryPow n with
    | ok r =>
      have hpower := isPower_of_tryPow hw hp h
      have hlt := (Signed.reading hw).natDegree_lt_two_pow hpower.canonical
      rw [hpower.natDegree_eq, ExactReading.natDegree_polynomial _ hp hd] at hlt
      omega
    | error e =>
      cases e with
      | reported o => exact ⟨o, rfl⟩
      | stopped f => exact absurd h (hrun f)

/-- A power that is returned is the repeated product, also of zero.  Unless a coefficient is out of
range, an overflow is reported exactly if the degree of the power is no exponent; the squares on the
way do not matter.  The power is returned if its degree is an exponent and the same power of the sum
of all absolute values is a word. -/
theorem tryPow_repeated_product (hw : 2 ≤ w) (hp : p.Canonical) (n : ℕ) :
    (∀ r, p.tryPow n = .ok r → ∀ k, r.coeffAt k = convolutionPower p.coeffAt n k) ∧
    ((∀ f, p.tryPow n ≠ .error (.stopped f)) →
      ((∃ o, p.tryPow n = .error (.reported o)) ↔
        p ≠ zero ∧ ∃ d, p.degree = .ok d ∧ 2 ^ 32 ≤ n * d.val)) ∧
    ((∀ d, p.degree = .ok d → n * d.val < 2 ^ 32) →
      (∀ o, p.tryPow n ≠ .error (.reported o)) ∧
        (p.sumAbs ^ n < halfRange w → ∃ r, p.tryPow n = .ok r)) := by
  refine ⟨fun r hr k => ?_, tryPow_reported_iff hw hp, fun hdegree => ⟨?_, ?_⟩⟩
  · have hpower := isPower_of_tryPow hw hp hr
    rw [← coeff_polynomial_eq_coeffAt hw hp, ← coeff_polynomial_eq_coeffAt hw hpower.canonical,
      hpower.polynomial_eq, coeff_pow]
  · exact tryPow_ne_reported hw hp (mul_natDegree_lt hw hp hdegree)
  · exact tryPow_eq_ok hw hp (mul_natDegree_lt hw hp hdegree)

/-- The square of this polynomial has the highest degree but one; its third power is reported. -/
theorem tryPow_repeated_product_at_limit :
    let p : SparsePoly (Signed 32) := ⟨[⟨0, ⟨-1, by decide⟩⟩, ⟨2147483647, ⟨1, by decide⟩⟩]⟩
    (∃ r, p.tryPow 2 = .ok r ∧ r.size = 3 ∧ ∀ k, r.coeffAt k = convolutionPower p.coeffAt 2 k) ∧
      ∃ o, p.tryPow 3 = .error (.reported o) := by
  intro p
  have hp : p.Canonical := by decide
  have hdegree : p.degree = .ok 2147483647 := rfl
  obtain ⟨hvalue, -, hfits⟩ := tryPow_repeated_product (by decide) hp 2
  obtain ⟨-, hreported, -⟩ := tryPow_repeated_product (by decide) hp 3
  constructor
  · obtain ⟨r, hr⟩ := (hfits fun d hd => by
      rw [hdegree] at hd
      cases hd
      decide).2 (by decide)
    have hsize : p.tryPow 2 = .ok ⟨[⟨0, ⟨1, by decide⟩⟩, ⟨2147483647, ⟨-2, by decide⟩⟩,
        ⟨4294967294, ⟨1, by decide⟩⟩]⟩ := by decide +kernel
    cases hr.symm.trans hsize
    exact ⟨_, hr, rfl, hvalue _ hr⟩
  · have hthird : p.tryPow 3 = .error (.reported ⟨2147483647, 4294967294⟩) := by decide +kernel
    refine (hreported fun f hf => ?_).2 ⟨by decide, 2147483647, hdegree, by decide⟩
    cases hf.symm.trans hthird

end SparsePoly

end Univariate
