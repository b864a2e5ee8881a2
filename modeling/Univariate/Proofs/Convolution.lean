import Mathlib.Algebra.BigOperators.Group.Finset.Piecewise
import Mathlib.Algebra.BigOperators.Ring.Finset
import Mathlib.Algebra.Order.BigOperators.Group.List
import Univariate.Proofs.ExactReading
import Univariate.Proofs.RunningSums
import Univariate.SparsePoly.Calculus

/-! # Products are convolutions

The product visits the pairs of stored terms and adds one product at a time.  What it returns has at
every exponent the exact sum over all pairs of exponents that add up to it, also where the operands
store nothing.  It returns as soon as the absolute values of the same products add up to words,
since every product and every sum on the way is then a word. -/

namespace Univariate

variable {w : Nat}

section AbsoluteValues

variable {α : Type} (f : α → ℤ) {l : List α}

theorem abs_le_sum_map_abs {a : α} (ha : a ∈ l) : |f a| ≤ (l.map fun a => |f a|).sum := by
  apply List.single_le_sum
  · simp only [List.forall_mem_map]
    exact fun a _ => abs_nonneg (f a)
  · exact List.mem_map_of_mem ha

theorem abs_sum_map_take_le (l : List α) (n : ℕ) :
    |((l.take n).map f).sum| ≤ (l.map fun a => |f a|).sum := by
  calc |((l.take n).map f).sum|
      ≤ (((l.take n).map f).map abs).sum :=
        List.le_sum_of_subadditive abs abs_zero.le abs_add_le _
    _ = ((l.take n).map fun a => |f a|).sum := by rw [List.map_map, Function.comp_def]
    _ ≤ (l.map fun a => |f a|).sum := by
        apply ((List.take_sublist n l).map _).sum_le_sum
        simp only [List.forall_mem_map]
        exact fun a _ => abs_nonneg (f a)

end AbsoluteValues

/-- The sum of `f i * g j` over all exponents `i` and `j` with `i + j = k`. -/
def convolution (f g : Exponent → ℤ) (k : Exponent) : ℤ :=
  ∑ ij : Exponent × Exponent with ij.1.val + ij.2.val = k.val, f ij.1 * g ij.2

namespace SparsePoly

variable {p q r : SparsePoly (Signed w)}

theorem sum_terms (hp : p.Canonical) {F : Exponent → ℤ → ℤ} (hF : ∀ e, F e 0 = 0) :
    (p.terms.map fun t => F t.exponent t.coeff.val).sum = ∑ e, F e (p.coeff e).val := by
  obtain ⟨l⟩ := p
  induction l with
  | nil => simp [hF]
  | cons t l ih =>
    obtain ⟨hlt, -, hl⟩ := canonical_cons.1 hp
    have hsplit : ∀ e, F e (coeff ⟨t :: l⟩ e).val =
        (if t.exponent = e then F e t.coeff.val else 0) + F e (coeff ⟨l⟩ e).val := by
      intro e
      rw [coeff_cons]
      by_cases he : t.exponent = e
      · have hfree : coeff ⟨l⟩ e = Coefficient.zero :=
          coeff_eq_zero_of_forall_ne fun u hu => he ▸ ne_of_gt (hlt u hu)
        rw [if_pos he, if_pos he, hfree, Signed.val_zero, hF, add_zero]
      · rw [if_neg he, if_neg he, zero_add]
    rw [List.map_cons, List.sum_cons, ih hl]
    simp only [hsplit, Finset.sum_add_distrib, Finset.sum_ite_eq, Finset.mem_univ, if_true]

/-- What a pair of terms adds at an exponent, for coefficients seen through `f`. -/
def pairValue (f : ℤ → ℤ) (k : Exponent) (pair : Term (Signed w) × Term (Signed w)) : ℤ :=
  if pair.1.exponent.val + pair.2.exponent.val = k.val then
    f pair.1.coeff.val * f pair.2.coeff.val
  else 0

private theorem sum_pairValue (hp : p.Canonical) (hq : q.Canonical) {f : ℤ → ℤ} (hf : f 0 = 0)
    (k : Exponent) : ((termPairs p q).map (pairValue f k)).sum =
      convolution (fun i => f (p.coeff i).val) (fun j => f (q.coeff j).val) k := by
  have hright : ∀ s : Term (Signed w), (q.terms.map fun t => pairValue f k (s, t)).sum =
      ∑ j : Exponent, if s.exponent.val + j.val = k.val then
        f s.coeff.val * f (q.coeff j).val else 0 := fun s =>
    sum_terms hq (F := fun j c =>
      if s.exponent.val + j.val = k.val then f s.coeff.val * f c else 0) (by simp [hf])
  have hleft : (p.terms.map fun s => ∑ j : Exponent, if s.exponent.val + j.val = k.val then
        f s.coeff.val * f (q.coeff j).val else 0).sum =
      ∑ i : Exponent, ∑ j : Exponent, if i.val + j.val = k.val then
        f (p.coeff i).val * f (q.coeff j).val else 0 :=
    sum_terms hp (F := fun i c => ∑ j : Exponent, if i.val + j.val = k.val then
      f c * f (q.coeff j).val else 0) (by simp [hf])
  rw [convolution, Finset.sum_filter, Fintype.sum_prod_type, ← hleft, termPairs, List.flatMap_def,
    List.map_flatten, List.sum_flatten]
  simp only [List.map_map, Function.comp_def, hright]

private theorem coeff_addProduct_reading (hw : 2 ≤ w) {s t : Term (Signed w)} (k : Exponent)
    (h : p.addProduct s t = .ok q) :
    ((Signed.reading hw).polynomial q).coeff k.val =
      ((Signed.reading hw).polynomial p).coeff k.val + pairValue id k (s, t) := by
  rw [(Signed.reading hw).polynomial_addProduct h, Polynomial.coeff_add, ExactReading.term,
    ExactReading.term, Polynomial.monomial_mul_monomial, Polynomial.coeff_monomial]
  rfl

theorem coeff_tryMul (hw : 2 ≤ w) (hp : p.Canonical) (hq : q.Canonical) (h : p.tryMul q = .ok r)
    (k : Exponent) :
    (r.coeff k).val = convolution (fun i => (p.coeff i).val) (fun j => (q.coeff j).val) k := by
  have hread := (Signed.reading hw).coeff_polynomial (canonical_tryMul h) k
  have hfold := foldlM_sum (V := fun sum => ((Signed.reading hw).polynomial sum).coeff k.val)
    (fun _ _ pair => coeff_addProduct_reading hw (s := pair.1) (t := pair.2) k) h
  rw [Signed.value_reading] at hread
  rw [← hread, hfold, ExactReading.polynomial_zero, Polynomial.coeff_zero, zero_add]
  exact sum_pairValue hp hq (f := id) rfl k

def IsProduct (pair : Term (Signed w) × Term (Signed w)) (u : Term (Signed w)) : Prop :=
  pair.1.exponent.val + pair.2.exponent.val = u.exponent.val ∧
    pair.1.coeff.val * pair.2.coeff.val = u.coeff.val

private theorem addProduct_of_isProduct {s t u : Term (Signed w)} (h : IsProduct (s, t) u) :
    p.addProduct s t = attempt (p.addTerm u) := by
  have hcoeff : Coefficient.mul s.coeff t.coeff = .ok u.coeff := Signed.checked_eq_ok_iff.2 h.2
  rw [addProduct_of_add_eq h.1, hcoeff, ok_bind]

theorem foldlM_addProduct {pairs : List (Term (Signed w) × Term (Signed w))}
    {us : List (Term (Signed w))} (h : List.Forall₂ IsProduct pairs us) :
    pairs.foldlM (fun sum pair => sum.addProduct pair.1 pair.2) p = attempt (p.addTerms us) := by
  induction h generalizing p with
  | nil => rfl
  | @cons pair u pairs us hu hus ih =>
    rw [List.foldlM_cons, addProduct_of_isProduct hu, addTerms_cons]
    cases p.addTerm u with
    | error f => rfl
    | ok q => exact ih

private theorem exactSum_of_isProduct {pairs : List (Term (Signed w) × Term (Signed w))}
    {us : List (Term (Signed w))} (h : List.Forall₂ IsProduct pairs us) (k : Exponent) :
    exactSum us k = (pairs.map (pairValue id k)).sum := by
  induction h with
  | nil => rfl
  | @cons pair u pairs us hu hus ih =>
    rw [exactSum_cons, ih, List.map_cons, List.sum_cons, pairValue, hu.1, ← hu.2]
    simp only [Fin.ext_iff, id_eq]

private theorem abs_pairValue (k : Exponent) (pair : Term (Signed w) × Term (Signed w)) :
    |pairValue id k pair| = pairValue abs k pair := by
  rw [pairValue, pairValue]
  split
  · exact abs_mul _ _
  · exact abs_zero

theorem exists_isProduct {pairs : List (Term (Signed w) × Term (Signed w))}
    {pair : Term (Signed w) × Term (Signed w)} (hpair : pair ∈ pairs)
    (hexponent : pair.1.exponent.val + pair.2.exponent.val < 2 ^ 32)
    (hsum : ∀ k, (pairs.map (pairValue abs k)).sum < halfRange w) : ∃ u, IsProduct pair u := by
  let k : Exponent := ⟨pair.1.exponent.val + pair.2.exponent.val, hexponent⟩
  have hvalue : pairValue id k pair = pair.1.coeff.val * pair.2.coeff.val := if_pos rfl
  have hle := abs_le_sum_map_abs (pairValue id k) hpair
  simp only [abs_pairValue] at hle
  have hfits : Fits w (pair.1.coeff.val * pair.2.coeff.val) := by
    rw [← hvalue]
    exact fits_of_abs_lt ((abs_pairValue k pair).trans_lt (hle.trans_lt (hsum k)))
  exact ⟨⟨k, ⟨_, hfits⟩⟩, rfl, rfl⟩

theorem tryMul_eq_ok (hp : p.Canonical) (hq : q.Canonical)
    (hexponents : ∀ s ∈ p.terms, ∀ t ∈ q.terms, s.exponent.val + t.exponent.val < 2 ^ 32)
    (hbound : ∀ k, convolution (fun i => |(p.coeff i).val|) (fun j => |(q.coeff j).val|) k <
      halfRange w) : ∃ r, p.tryMul q = .ok r := by
  have hsum : ∀ k, ((termPairs p q).map (pairValue abs k)).sum < halfRange w := fun k =>
    (sum_pairValue hp hq abs_zero k).trans_lt (hbound k)
  have hproduct : ∀ pair ∈ termPairs p q, ∃ u, IsProduct pair u := by
    intro pair hpair
    obtain ⟨hs, ht⟩ := mem_termPairs.1 hpair
    exact exists_isProduct hpair (hexponents _ hs _ ht) hsum
  obtain ⟨us, hus⟩ := exists_forall₂_iff.2 hproduct
  have hfits : ∀ n k, Fits w (exactSum (us.take n) k) := by
    intro n k
    rw [exactSum_of_isProduct (List.forall₂_take n hus)]
    have hle := abs_sum_map_take_le (pairValue id k) (termPairs p q) n
    simp only [abs_pairValue] at hle
    exact fits_of_abs_lt (hle.trans_lt (hsum k))
  obtain ⟨r, hr, -⟩ := ofTerms_eq_ok hfits
  exact ⟨r, by rw [tryMul, foldlM_addProduct hus, ← ofTerms, hr, attempt_ok]⟩

theorem exponent_le_of_degree {C : Type} [Coefficient C] {p : SparsePoly C} (hp : p.Canonical)
    {n : Exponent} (h : p.degree = .ok n) {t : Term C} (ht : t ∈ p.terms) : t.exponent ≤ n := by
  obtain ⟨u, hu, rfl⟩ := degree_eq_ok_iff.1 h
  obtain ⟨init, hinit⟩ := List.getLast?_eq_some_iff.1 hu
  have hlt := hp.1
  rw [hinit] at ht hlt
  rcases List.mem_append.1 ht with ht | ht
  · exact ((List.pairwise_append.1 hlt).2.2 t ht u (List.mem_singleton_self u)).le
  · rw [List.mem_singleton.1 ht]

/-- A product that returns is the exact convolution of its operands.  It returns if an operand is
zero, and also if the degrees add up to an exponent and the absolute values of the products at each
exponent add up to a word. -/
theorem tryMul_exact_convolution (hw : 2 ≤ w) (hp : p.Canonical) (hq : q.Canonical) :
    (∀ r, p.tryMul q = .ok r → ∀ k, (r.coeff k).val =
      convolution (fun i => (p.coeff i).val) (fun j => (q.coeff j).val) k) ∧
    (p = zero ∨ q = zero ∨
      ((∃ m n, p.degree = .ok m ∧ q.degree = .ok n ∧ m.val + n.val < 2 ^ 32) ∧
        ∀ k, convolution (fun i => |(p.coeff i).val|) (fun j => |(q.coeff j).val|) k <
          halfRange w) →
      ∃ r, p.tryMul q = .ok r) := by
  constructor
  · intro r hr k
    exact coeff_tryMul hw hp hq hr k
  · rintro (rfl | rfl | ⟨⟨m, n, hm, hn, hmn⟩, hbound⟩)
    · exact ⟨zero, zero_tryMul q⟩
    · exact ⟨zero, tryMul_zero p⟩
    · refine tryMul_eq_ok hp hq (fun s hs t ht => ?_) hbound
      have hsm : s.exponent.val ≤ m.val := exponent_le_of_degree hp hm hs
      have htn : t.exponent.val ≤ n.val := exponent_le_of_degree hq hn ht
      omega

/-- The products of `x + 1` and `x - 1` at the first power cancel. -/
theorem tryMul_exact_convolution_cancelling :
    let p : SparsePoly (Signed 32) := ⟨[⟨0, ⟨1, by decide⟩⟩, ⟨1, ⟨1, by decide⟩⟩]⟩
    let q : SparsePoly (Signed 32) := ⟨[⟨0, ⟨-1, by decide⟩⟩, ⟨1, ⟨1, by decide⟩⟩]⟩
    ∃ r, p.tryMul q = .ok r ∧ r.size = 2 ∧ ∀ k, (r.coeff k).val =
      convolution (fun i => (p.coeff i).val) (fun j => (q.coeff j).val) k := by
  intro p q
  have hp : p.Canonical := by decide
  have hq : q.Canonical := by decide
  have hbound : ∀ k, convolution (fun i => |(p.coeff i).val|) (fun j => |(q.coeff j).val|) k <
      halfRange 32 := by
    intro k
    have hhalf : halfRange 32 = 2147483648 := rfl
    rw [← sum_pairValue hp hq abs_zero k, hhalf]
    simp only [p, q, termPairs, pairValue, List.flatMap_cons, List.flatMap_nil, List.map_cons,
      List.map_nil, List.append_nil, List.cons_append, List.nil_append, List.sum_cons, List.sum_nil]
    split_ifs <;> decide
  obtain ⟨hvalue, hreturn⟩ := tryMul_exact_convolution (by decide) hp hq
  obtain ⟨r, hr⟩ := hreturn (.inr (.inr ⟨⟨1, 1, rfl, rfl, by decide⟩, hbound⟩))
  have hsize : p.tryMul q = .ok ⟨[⟨0, ⟨-1, by decide⟩⟩, ⟨2, ⟨1, by decide⟩⟩]⟩ := by decide
  cases hr.symm.trans hsize
  exact ⟨_, hr, rfl, hvalue _ hr⟩

end SparsePoly

end Univariate
