import Mathlib.Algebra.Polynomial.Reverse
import Univariate.Proofs.PolynomialPowers

/-! # The extreme terms of a product

Terms in the middle of a product may cancel and be removed.  The highest and the lowest term come
from one pair of terms each, and where the coefficients have no divisors of zero their product is
stored.  So the degrees of the operands add up, and so do their lowest exponents. -/

namespace Univariate

variable {C : Type}

namespace SparsePoly

def lowestTerm? (p : SparsePoly C) : Option (Term C) := p.terms.head?

variable {p : SparsePoly C}

theorem exists_lowestTerm (h : p ≠ zero) : ∃ t, p.lowestTerm? = some t := by
  obtain ⟨l⟩ := p
  cases l with
  | nil => exact absurd rfl h
  | cons t l => exact ⟨t, rfl⟩

theorem exists_leadingTerm (h : p ≠ zero) : ∃ t, p.leadingTerm? = some t := by
  obtain ⟨d, hd⟩ := exists_degree h
  obtain ⟨t, ht, -⟩ := degree_eq_ok_iff.1 hd
  exact ⟨t, ht⟩

private theorem lowestTerm_le [Coefficient C] (hp : p.Canonical) {t u : Term C}
    (h : p.lowestTerm? = some t) (hu : u ∈ p.terms) : t.exponent ≤ u.exponent := by
  obtain ⟨l⟩ := p
  cases l with
  | nil => cases h
  | cons s l =>
    cases h
    rcases List.mem_cons.1 hu with rfl | hu
    · exact le_rfl
    · exact ((canonical_cons.1 hp).1 u hu).le

end SparsePoly

namespace ExactReading

variable [Coefficient C] {R : Type} [CommRing R] (ν : ExactReading C R) {p q r : SparsePoly C}
  {s t : Term C}

private theorem value_ne_zero (hp : p.Canonical) (ht : t ∈ p.terms) : ν.value t.coeff ≠ 0 := by
  rw [ne_eq, ← ν.isZero_iff, hp.2 t ht]
  exact Bool.false_ne_true

private theorem polynomial_ne_zero (hp : p.Canonical) (h : p ≠ .zero) : ν.polynomial p ≠ 0 := by
  rw [← ν.polynomial_zero]
  exact fun heq => h (ν.polynomial_injective hp SparsePoly.canonical_zero heq)

private theorem polynomial_ne_zero_of_mem (hp : p.Canonical) (ht : t ∈ p.terms) :
    ν.polynomial p ≠ 0 := by
  apply ν.polynomial_ne_zero hp
  rintro rfl
  cases ht

private theorem coeff_polynomial_of_mem (hp : p.Canonical) (ht : t ∈ p.terms) :
    (ν.polynomial p).coeff t.exponent.val = ν.value t.coeff := by
  rw [ν.coeff_polynomial hp, hp.coeff_of_mem ht]

theorem natDegree_eq_of_leadingTerm (hp : p.Canonical) (h : p.leadingTerm? = some t) :
    (ν.polynomial p).natDegree = t.exponent.val :=
  ν.natDegree_polynomial hp (SparsePoly.degree_eq_ok_iff.2 ⟨t, h, rfl⟩)

theorem leadingCoeff_eq_of_leadingTerm (hp : p.Canonical) (h : p.leadingTerm? = some t) :
    (ν.polynomial p).leadingCoeff = ν.value t.coeff := by
  rw [Polynomial.leadingCoeff, ν.natDegree_eq_of_leadingTerm hp h,
    ν.coeff_polynomial_of_mem hp (List.mem_of_getLast? h)]

theorem natTrailingDegree_eq_of_lowestTerm (hp : p.Canonical) (h : p.lowestTerm? = some t) :
    (ν.polynomial p).natTrailingDegree = t.exponent.val := by
  have ht : t ∈ p.terms := List.mem_of_mem_head? h
  have hcoeff : (ν.polynomial p).coeff t.exponent.val ≠ 0 := by
    rw [ν.coeff_polynomial_of_mem hp ht]
    exact ν.value_ne_zero hp ht
  apply le_antisymm
  · exact Polynomial.natTrailingDegree_le_of_ne_zero hcoeff
  · refine Polynomial.le_natTrailingDegree (fun hzero => hcoeff (by simp [hzero])) fun m hm => ?_
    let e : Exponent := ⟨m, hm.trans t.exponent.isLt⟩
    have hfree : p.coeff e = Coefficient.zero :=
      SparsePoly.coeff_eq_zero_of_forall_ne fun u hu =>
        ne_of_gt (lt_of_lt_of_le (show e < t.exponent from hm) (SparsePoly.lowestTerm_le hp h hu))
    rw [← ν.zero, ← hfree]
    exact ν.coeff_polynomial hp e

theorem trailingCoeff_eq_of_lowestTerm (hp : p.Canonical) (h : p.lowestTerm? = some t) :
    (ν.polynomial p).trailingCoeff = ν.value t.coeff := by
  rw [Polynomial.trailingCoeff, ν.natTrailingDegree_eq_of_lowestTerm hp h,
    ν.coeff_polynomial_of_mem hp (List.mem_of_mem_head? h)]

variable [NoZeroDivisors R]

include ν in
private theorem ne_zero_of_mul (hp : p.Canonical) (hq : q.Canonical) (hpz : p ≠ .zero)
    (hqz : q ≠ .zero)
    (h : p.mul q = .ok r) : r ≠ .zero := by
  rintro rfl
  have hproduct := ν.polynomial_mul h
  rw [ν.polynomial_zero, eq_comm, mul_eq_zero] at hproduct
  rcases hproduct with hzero | hzero
  · exact ν.polynomial_ne_zero hp hpz hzero
  · exact ν.polynomial_ne_zero hq hqz hzero

theorem leadingTerm_mul (hp : p.Canonical) (hq : q.Canonical) (hs : p.leadingTerm? = some s)
    (ht : q.leadingTerm? = some t) (h : p.mul q = .ok r) {u : Term C}
    (hu : r.leadingTerm? = some u) : u.exponent.val = s.exponent.val + t.exponent.val ∧
      ν.value u.coeff = ν.value s.coeff * ν.value t.coeff := by
  have hr : r.Canonical := SparsePoly.canonical_tryMul (SparsePoly.mul_eq_ok_iff.1 h)
  have hpz := ν.polynomial_ne_zero_of_mem hp (List.mem_of_getLast? hs)
  have hqz := ν.polynomial_ne_zero_of_mem hq (List.mem_of_getLast? ht)
  rw [← ν.natDegree_eq_of_leadingTerm hr hu, ← ν.leadingCoeff_eq_of_leadingTerm hr hu,
    ν.polynomial_mul h, Polynomial.natDegree_mul hpz hqz, Polynomial.leadingCoeff_mul,
    ν.natDegree_eq_of_leadingTerm hp hs, ν.natDegree_eq_of_leadingTerm hq ht,
    ν.leadingCoeff_eq_of_leadingTerm hp hs, ν.leadingCoeff_eq_of_leadingTerm hq ht]
  exact ⟨rfl, rfl⟩

theorem lowestTerm_mul (hp : p.Canonical) (hq : q.Canonical) (hs : p.lowestTerm? = some s)
    (ht : q.lowestTerm? = some t) (h : p.mul q = .ok r) {u : Term C}
    (hu : r.lowestTerm? = some u) : u.exponent.val = s.exponent.val + t.exponent.val ∧
      ν.value u.coeff = ν.value s.coeff * ν.value t.coeff := by
  have hr : r.Canonical := SparsePoly.canonical_tryMul (SparsePoly.mul_eq_ok_iff.1 h)
  have hpz := ν.polynomial_ne_zero_of_mem hp (List.mem_of_mem_head? hs)
  have hqz := ν.polynomial_ne_zero_of_mem hq (List.mem_of_mem_head? ht)
  rw [← ν.natTrailingDegree_eq_of_lowestTerm hr hu, ← ν.trailingCoeff_eq_of_lowestTerm hr hu,
    ν.polynomial_mul h, Polynomial.natTrailingDegree_mul hpz hqz, Polynomial.trailingCoeff_mul,
    ν.natTrailingDegree_eq_of_lowestTerm hp hs, ν.natTrailingDegree_eq_of_lowestTerm hq ht,
    ν.trailingCoeff_eq_of_lowestTerm hp hs, ν.trailingCoeff_eq_of_lowestTerm hq ht]
  exact ⟨rfl, rfl⟩

end ExactReading

namespace SparsePoly

variable {w : Nat} {p q r : SparsePoly (Signed w)}

/-- A product of polynomials other than zero is not zero.  Its degree is the sum of the degrees, its
leading coefficient the exact product of the leading ones, and the same holds at the other end. -/
theorem mul_extreme_terms (hw : 2 ≤ w) (hp : p.Canonical) (hq : q.Canonical) (hpz : p ≠ zero)
    (hqz : q ≠ zero) (h : p.mul q = .ok r) :
    r ≠ zero ∧
    (∃ m n k, p.degree = .ok m ∧ q.degree = .ok n ∧ r.degree = .ok k ∧ k.val = m.val + n.val) ∧
    (∃ a b c, p.leadingCoeff? = some a ∧ q.leadingCoeff? = some b ∧ r.leadingCoeff? = some c ∧
      c.val = a.val * b.val) ∧
    ∃ s t u, p.lowestTerm? = some s ∧ q.lowestTerm? = some t ∧ r.lowestTerm? = some u ∧
      u.exponent.val = s.exponent.val + t.exponent.val ∧
      u.coeff.val = s.coeff.val * t.coeff.val := by
  have hrz : r ≠ zero := (Signed.reading hw).ne_zero_of_mul hp hq hpz hqz h
  refine ⟨hrz, ?_⟩
  rw [← and_assoc]
  constructor
  · obtain ⟨s, hs⟩ := exists_leadingTerm hpz
    obtain ⟨t, ht⟩ := exists_leadingTerm hqz
    obtain ⟨u, hu⟩ := exists_leadingTerm hrz
    obtain ⟨hexponent, hcoeff⟩ := (Signed.reading hw).leadingTerm_mul hp hq hs ht h hu
    exact ⟨⟨s.exponent, t.exponent, u.exponent, degree_eq_ok_iff.2 ⟨s, hs, rfl⟩,
        degree_eq_ok_iff.2 ⟨t, ht, rfl⟩, degree_eq_ok_iff.2 ⟨u, hu, rfl⟩, hexponent⟩,
      s.coeff, t.coeff, u.coeff, by rw [leadingCoeff?, hs]; rfl, by rw [leadingCoeff?, ht]; rfl,
        by rw [leadingCoeff?, hu]; rfl, hcoeff⟩
  · obtain ⟨s, hs⟩ := exists_lowestTerm hpz
    obtain ⟨t, ht⟩ := exists_lowestTerm hqz
    obtain ⟨u, hu⟩ := exists_lowestTerm hrz
    obtain ⟨hexponent, hcoeff⟩ := (Signed.reading hw).lowestTerm_mul hp hq hs ht h hu
    exact ⟨s, t, u, hs, ht, hu, hexponent, hcoeff⟩

/-- The terms in the middle cancel, and the leading coefficient of the product is the least word. -/
theorem mul_extreme_terms_cancelling :
    let p : SparsePoly (Signed 32) := ⟨[⟨3, ⟨2, by decide⟩⟩, ⟨5, ⟨32768, by decide⟩⟩]⟩
    let q : SparsePoly (Signed 32) := ⟨[⟨0, ⟨4, by decide⟩⟩, ⟨2, ⟨-65536, by decide⟩⟩]⟩
    ∃ r, p.mul q = .ok r ∧ r.size = 2 ∧ r.degree = .ok 7 ∧
      (∃ c, r.leadingCoeff? = some c ∧ c.val = 32768 * -65536) ∧
      ∃ u, r.lowestTerm? = some u ∧ u.exponent.val = 3 + 0 ∧ u.coeff.val = 2 * 4 := by
  intro p q
  have h : p.mul q = .ok ⟨[⟨3, ⟨8, by decide⟩⟩, ⟨7, ⟨-2147483648, by decide⟩⟩]⟩ := by
    decide +kernel
  obtain ⟨-, ⟨_, _, k, ⟨⟩, ⟨⟩, hk, hsum⟩, ⟨_, _, c, ⟨⟩, ⟨⟩, hc, hlead⟩, hlowest⟩ :=
    mul_extreme_terms (by decide) (by decide) (by decide) (by decide) (by decide) h
  obtain ⟨_, _, u, ⟨⟩, ⟨⟩, hu, hlow⟩ := hlowest
  exact ⟨_, h, rfl, hk.trans (congrArg Except.ok (Fin.ext hsum)), ⟨c, hc, hlead⟩, u, hu, hlow⟩

end SparsePoly

end Univariate
