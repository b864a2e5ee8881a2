import Mathlib.Algebra.Polynomial.Eval.Degree
import Univariate.Coefficient.Signed
import Univariate.Proofs.StoredCoefficients

/-! # Exact readings

An exact reading gives each coefficient a value in a commutative ring such that every operation that
is not stopped has the exact result.  Under it a sparse polynomial is a polynomial over the ring,
and what the operations return are the sums, multiples, products and values of those polynomials.
The value of a signed word is an exact reading over the integers. -/

namespace Univariate

structure ExactReading (C : Type) [Coefficient C] (R : Type) [CommRing R] where
  value : C → R
  injective : Function.Injective value
  zero : value Coefficient.zero = 0
  one : value Coefficient.one = 1
  isZero_iff : ∀ x, Coefficient.isZero x = true ↔ value x = 0
  add : ∀ {x y z}, Coefficient.add x y = .ok z → value z = value x + value y
  sub : ∀ {x y z}, Coefficient.sub x y = .ok z → value z = value x - value y
  mul : ∀ {x y z}, Coefficient.mul x y = .ok z → value z = value x * value y
  neg : ∀ {x z}, Coefficient.neg x = .ok z → value z = -value x

theorem foldlM_sum {ε α β M : Type} [AddCommMonoid M] {V : β → M} {g : α → M}
    {f : β → α → Except ε β} {l : List α} {b c : β}
    (step : ∀ b c a, f b a = .ok c → V c = V b + g a) (h : l.foldlM f b = .ok c) :
    V c = V b + (l.map g).sum := by
  induction l generalizing b with
  | nil =>
    cases h
    simp
  | cons a l ih =>
    rw [List.foldlM_cons] at h
    obtain ⟨d, hd, h⟩ := bind_eq_ok_iff.1 h
    rw [ih h, step b d a hd, List.map_cons, List.sum_cons, add_assoc]

namespace ExactReading

variable {C : Type} [Coefficient C] {R : Type} [CommRing R] (ν : ExactReading C R)

noncomputable def term (t : Term C) : Polynomial R :=
  Polynomial.monomial t.exponent.val (ν.value t.coeff)

noncomputable def polynomial (p : SparsePoly C) : Polynomial R := (p.terms.map ν.term).sum

@[simp] theorem polynomial_zero : ν.polynomial .zero = 0 := rfl

theorem polynomial_cons (t : Term C) (l : List (Term C)) :
    ν.polynomial ⟨t :: l⟩ = ν.term t + ν.polynomial ⟨l⟩ := by
  simp [polynomial]

include ν in
theorem isZero_zero : Coefficient.isZero (Coefficient.zero : C) = true :=
  (ν.isZero_iff _).2 ν.zero

theorem coeff_polynomial {p : SparsePoly C} (hp : p.Canonical) (e : Exponent) :
    (ν.polynomial p).coeff e.val = ν.value (p.coeff e) := by
  obtain ⟨l⟩ := p
  induction l with
  | nil => simp [polynomial, ν.zero]
  | cons t l ih =>
    obtain ⟨hlt, -, hl⟩ := SparsePoly.canonical_cons.1 hp
    rw [polynomial_cons, Polynomial.coeff_add, ih hl, term, Polynomial.coeff_monomial,
      SparsePoly.coeff_cons]
    by_cases he : t.exponent = e
    · have hfree : SparsePoly.coeff ⟨l⟩ e = Coefficient.zero :=
        SparsePoly.coeff_eq_zero_of_forall_ne fun u hu => he ▸ (Fin.ne_of_gt (hlt u hu))
      rw [if_pos he, if_pos (congrArg Fin.val he), hfree, ν.zero, add_zero]
    · rw [if_neg he, if_neg fun h => he (Fin.ext h), zero_add]

/-- The polynomial that is read determines the stored terms. -/
theorem polynomial_injective {p q : SparsePoly C} (hp : p.Canonical) (hq : q.Canonical)
    (h : ν.polynomial p = ν.polynomial q) : p = q := by
  apply hp.ext ν.isZero_zero hq
  intro e
  apply ν.injective
  rw [← ν.coeff_polynomial hp, ← ν.coeff_polynomial hq, h]

theorem degree_lt_iff {p : SparsePoly C} (hp : p.Canonical) {n : Nat} :
    (ν.polynomial p).degree < n ↔ ∀ t ∈ p.terms, t.exponent.val < n := by
  constructor
  · intro h t ht
    by_contra hn
    have hzero := (Polynomial.degree_lt_iff_coeff_zero _ n).1 h t.exponent.val (not_lt.1 hn)
    rw [ν.coeff_polynomial hp, hp.coeff_of_mem ht, ← ν.isZero_iff, hp.2 t ht] at hzero
    cases hzero
  · intro h
    obtain ⟨l⟩ := p
    induction l with
    | nil => exact Polynomial.degree_zero.trans_lt (WithBot.bot_lt_coe n)
    | cons t l ih =>
      rw [polynomial_cons]
      refine (Polynomial.degree_add_le _ _).trans_lt (max_lt ?_ ?_)
      · exact (Polynomial.degree_monomial_le _ _).trans_lt
          (Nat.cast_lt.2 (h t List.mem_cons_self))
      · exact ih (SparsePoly.canonical_cons.1 hp).2.2 fun u hu => h u (List.mem_cons_of_mem _ hu)

/-- A place that is freed held a sum of value zero. -/
private theorem polynomial_insertTerm {t : Term C} {l m : List (Term C)}
    (h : SparsePoly.insertTerm t l = .ok m) :
    ν.polynomial ⟨m⟩ = ν.polynomial ⟨l⟩ + ν.term t := by
  induction l generalizing m with
  | nil =>
    cases h
    rw [polynomial_cons, add_comm]
  | cons s l ih =>
    rw [SparsePoly.insertTerm] at h
    split at h
    · cases h
      rw [polynomial_cons, add_comm]
    split at h
    · rename_i he
      obtain ⟨sum, hsum, h⟩ := bind_eq_ok_iff.1 h
      cases h
      have hterm : Polynomial.monomial s.exponent.val (ν.value sum) = ν.term s + ν.term t := by
        rw [term, term, he, ν.add hsum, map_add]
      rw [polynomial_cons, add_right_comm, ← hterm]
      split
      · rename_i hz
        rw [(ν.isZero_iff sum).1 hz, Polynomial.monomial_zero_right, zero_add]
      · exact polynomial_cons ν _ _
    · obtain ⟨l', hl', h⟩ := bind_eq_ok_iff.1 h
      cases h
      rw [polynomial_cons, polynomial_cons, ih hl', add_assoc]

theorem polynomial_addTerm {p q : SparsePoly C} {t : Term C} (h : p.addTerm t = .ok q) :
    ν.polynomial q = ν.polynomial p + ν.term t := by
  rw [SparsePoly.addTerm] at h
  split at h
  · rename_i hz
    cases h
    rw [term, (ν.isZero_iff _).1 hz, Polynomial.monomial_zero_right, add_zero]
  · cases hi : SparsePoly.insertTerm t p.terms with
    | error f =>
      rw [hi] at h
      cases h
    | ok l =>
      rw [hi] at h
      cases h
      exact ν.polynomial_insertTerm hi

theorem polynomial_addTerms {p q : SparsePoly C} {ts : List (Term C)}
    (h : p.addTerms ts = .ok q) :
    ν.polynomial q = ν.polynomial p + (ts.map ν.term).sum :=
  foldlM_sum (fun _ _ _ => ν.polynomial_addTerm) h

theorem polynomial_ofTerms {p : SparsePoly C} {ts : List (Term C)}
    (h : SparsePoly.ofTerms ts = .ok p) : ν.polynomial p = (ts.map ν.term).sum := by
  rw [ν.polynomial_addTerms h, polynomial_zero, zero_add]

theorem polynomial_add {p q r : SparsePoly C} (h : p.add q = .ok r) :
    ν.polynomial r = ν.polynomial p + ν.polynomial q :=
  ν.polynomial_addTerms h

theorem polynomial_monomial (c : C) (n : Exponent) :
    ν.polynomial (.monomial c n) = Polynomial.monomial n.val (ν.value c) := by
  rw [SparsePoly.monomial]
  split
  · rename_i hz
    rw [(ν.isZero_iff c).1 hz, Polynomial.monomial_zero_right]
    rfl
  · simp [polynomial, term]

theorem polynomial_one : ν.polynomial .one = 1 := by
  rw [SparsePoly.one, SparsePoly.constant, polynomial_monomial, ν.one]
  rfl

theorem polynomial_scale {p q : SparsePoly C} {c : C} (h : p.scale c = .ok q) :
    ν.polynomial q = ν.polynomial p * Polynomial.C (ν.value c) := by
  rw [SparsePoly.scale] at h
  split at h
  · rename_i hz
    cases h
    rw [(ν.isZero_iff c).1 hz, map_zero, mul_zero, polynomial_zero]
  · have hstep : ∀ (b d : SparsePoly C) (t : Term C),
        (do b.addTerm ⟨t.exponent, ← Coefficient.mul t.coeff c⟩) = Except.ok d →
          ν.polynomial d = ν.polynomial b + ν.term t * Polynomial.C (ν.value c) := by
      intro b d t hd
      obtain ⟨x, hx, hd⟩ := bind_eq_ok_iff.1 hd
      rw [ν.polynomial_addTerm hd, term, term, ν.mul hx, Polynomial.monomial_mul_C]
    rw [foldlM_sum hstep h, polynomial_zero, zero_add, List.sum_map_mul_right]
    rfl

theorem polynomial_addProduct {p q : SparsePoly C} {s t : Term C}
    (h : p.addProduct s t = .ok q) :
    ν.polynomial q = ν.polynomial p + ν.term s * ν.term t := by
  obtain ⟨e, he, h⟩ := bind_eq_ok_iff.1 h
  obtain ⟨c, hc, h⟩ := bind_eq_ok_iff.1 (attempt_eq_ok_iff.1 h)
  rw [ν.polynomial_addTerm h, term, term, term, ν.mul hc, Polynomial.monomial_mul_monomial,
    SparsePoly.addExponents_eq_ok_iff.1 he]

private theorem sum_termPairs (p q : SparsePoly C) :
    ((SparsePoly.termPairs p q).map fun pair => ν.term pair.1 * ν.term pair.2).sum =
      ν.polynomial p * ν.polynomial q := by
  obtain ⟨l⟩ := p
  rw [SparsePoly.termPairs]
  induction l with
  | nil => simp [polynomial]
  | cons s l ih =>
    have hs : (q.terms.map fun t => ν.term s * ν.term t).sum = ν.term s * ν.polynomial q :=
      List.sum_map_mul_left ..
    rw [List.flatMap_cons, List.map_append, List.sum_append, ih, polynomial_cons, add_mul,
      List.map_map]
    exact congrArg (· + _) hs

theorem polynomial_tryMul {p q r : SparsePoly C} (h : p.tryMul q = .ok r) :
    ν.polynomial r = ν.polynomial p * ν.polynomial q := by
  have hfold := foldlM_sum (V := ν.polynomial)
    (g := fun pair : Term C × Term C => ν.term pair.1 * ν.term pair.2)
    (fun _ _ _ => ν.polynomial_addProduct) h
  rw [hfold, polynomial_zero, zero_add, sum_termPairs]

theorem polynomial_mul {p q r : SparsePoly C} (h : p.mul q = .ok r) :
    ν.polynomial r = ν.polynomial p * ν.polynomial q :=
  ν.polynomial_tryMul (SparsePoly.mul_eq_ok_iff.1 h)

theorem polynomial_tryMulMonomial {p q : SparsePoly C} {c : C} {n : Exponent}
    (h : p.tryMulMonomial c n = .ok q) :
    ν.polynomial q = ν.polynomial p * Polynomial.monomial n.val (ν.value c) := by
  rw [SparsePoly.tryMulMonomial] at h
  split at h
  · rename_i hz
    cases h
    rw [(ν.isZero_iff c).1 hz, Polynomial.monomial_zero_right, mul_zero, polynomial_zero]
  · have hfold := foldlM_sum (V := ν.polynomial) (g := fun s => ν.term s * ν.term ⟨n, c⟩)
      (fun _ _ _ => ν.polynomial_addProduct) h
    rw [hfold, polynomial_zero, zero_add, List.sum_map_mul_right]
    rfl

theorem polynomial_shift {p q : SparsePoly C} {n : Exponent} (h : p.shift n = .ok q) :
    ν.polynomial q = ν.polynomial p * Polynomial.X ^ n.val := by
  have hshift : p.tryShift n = .ok q := SparsePoly.orStop_eq_ok_iff.1 h
  rw [SparsePoly.tryShift] at hshift
  split at hshift
  · rename_i hn
    cases hshift
    rw [hn, Fin.val_zero, pow_zero, mul_one]
  · rw [ν.polynomial_tryMulMonomial hshift, ν.one, Polynomial.X_pow_eq_monomial]

theorem polynomial_pow {p q : SparsePoly C} {n : ℕ} (h : p.pow n = .ok q) :
    ν.polynomial q = ν.polynomial p ^ n := by
  have hpow : p.tryPow n = .ok q := SparsePoly.orStop_eq_ok_iff.1 h
  rw [SparsePoly.tryPow] at hpow
  split at hpow
  · rename_i hn
    cases hpow
    rw [hn, pow_zero, polynomial_one]
  split at hpow
  · rename_i hn
    cases hpow
    rw [hn, pow_one]
  · rw [binaryPower_exact (fun _ _ _ => ν.polynomial_tryMul) hpow, polynomial_one, one_mul]

theorem value_pow {x y : C} {n : Nat} (h : Coefficient.pow x n = .ok y) :
    ν.value y = ν.value x ^ n := by
  rw [binaryPower_exact (fun _ _ _ => ν.mul) h, ν.one, one_mul]

theorem value_eval {p : SparsePoly C} {x y : C} (h : p.eval x = .ok y) :
    ν.value y = (ν.polynomial p).eval (ν.value x) := by
  have hstep : ∀ (b d : C) (t : Term C),
      (do let power ← Coefficient.pow x t.exponent.val
          Coefficient.add b (← Coefficient.mul t.coeff power)) = Except.ok d →
        ν.value d = ν.value b + (ν.term t).eval (ν.value x) := by
    intro b d t hd
    obtain ⟨power, hpow, hd⟩ := bind_eq_ok_iff.1 hd
    obtain ⟨product, hmul, hd⟩ := bind_eq_ok_iff.1 hd
    rw [ν.add hd, ν.mul hmul, ν.value_pow hpow, term, Polynomial.eval_monomial]
  rw [foldlM_sum hstep h, ν.zero, zero_add, polynomial]
  induction p.terms with
  | nil => simp
  | cons t l ih => rw [List.map_cons, List.map_cons, List.sum_cons, List.sum_cons,
      Polynomial.eval_add, ih]

end ExactReading

section Words

variable {w : Nat}

theorem fits_of_abs_lt {n : ℤ} (h : |n| < halfRange w) : Fits w n := by
  obtain ⟨hlow, hhigh⟩ := abs_lt.1 h
  exact ⟨hlow.le, hhigh⟩

theorem abs_le_of_fits {n : ℤ} (h : Fits w n) : |n| ≤ halfRange w := by
  obtain ⟨hlow, hhigh⟩ := h
  exact abs_le.2 ⟨hlow, hhigh.le⟩

theorem fits_of_fits_mul {x : ℤ} {k : ℕ} (hk : 0 < k) (h : Fits w (x * k)) : Fits w x := by
  have hone : (1 : ℤ) ≤ k := by exact_mod_cast hk
  obtain ⟨hlow, hhigh⟩ := h
  rcases le_total 0 x with hx | hx
  · have hle : x * 1 ≤ x * k := mul_le_mul_of_nonneg_left hone hx
    exact ⟨by omega, by omega⟩
  · have hle : x * k ≤ x * 1 := mul_le_mul_of_nonpos_left hone hx
    exact ⟨by omega, by omega⟩

namespace Signed

/-- A word has to hold the number one. -/
def reading (hw : 2 ≤ w) : ExactReading (Signed w) ℤ where
  value := Signed.val
  injective _ _ := Signed.ext
  zero := rfl
  one := val_one hw
  isZero_iff := isZero_iff
  add h := (checked_eq_ok_iff.1 h).symm
  sub h := (checked_eq_ok_iff.1 h).symm
  mul h := (checked_eq_ok_iff.1 h).symm
  neg h := (checked_eq_ok_iff.1 h).symm

@[simp] theorem value_reading (hw : 2 ≤ w) (x : Signed w) : (reading hw).value x = x.val := rfl

end Signed

end Words

end Univariate
