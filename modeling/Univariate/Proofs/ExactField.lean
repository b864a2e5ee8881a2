import Mathlib.LinearAlgebra.Lagrange
import Univariate.Proofs.ExactReading
import Univariate.SparsePoly.Interpolation

/-! # Exact fields of coefficients

Over an exact field no operation on coefficients is stopped, so an operation on polynomials can only
be stopped by an exponent. -/

namespace Univariate

/-- The operations are those of the field; what a division by zero gives is left open. -/
structure ExactField (C : Type) [Field C] [FieldCoefficient C] : Prop where
  zero : (Coefficient.zero : C) = 0
  one : (Coefficient.one : C) = 1
  isZero_iff : ∀ x : C, Coefficient.isZero x = true ↔ x = 0
  add : ∀ x y : C, Coefficient.add x y = .ok (x + y)
  sub : ∀ x y : C, Coefficient.sub x y = .ok (x - y)
  mul : ∀ x y : C, Coefficient.mul x y = .ok (x * y)
  neg : ∀ x : C, Coefficient.neg x = .ok (-x)
  div : ∀ x y : C, y ≠ 0 → FieldCoefficient.div x y = .ok (x / y)

namespace ExactField

variable {C : Type} [Field C] [FieldCoefficient C] (exact : ExactField C)

def reading : ExactReading C C where
  value := id
  injective := Function.injective_id
  zero := exact.zero
  one := exact.one
  isZero_iff := exact.isZero_iff
  add h := Except.ok.inj (h.symm.trans (exact.add _ _))
  sub h := Except.ok.inj (h.symm.trans (exact.sub _ _))
  mul h := Except.ok.inj (h.symm.trans (exact.mul _ _))
  neg h := Except.ok.inj (h.symm.trans (exact.neg _))

@[simp] theorem value_reading (x : C) : exact.reading.value x = x := rfl

include exact

private theorem insertTerm_total (t : Term C) (l : List (Term C)) :
    ∃ m, SparsePoly.insertTerm t l = .ok m := by
  induction l with
  | nil => exact ⟨[t], rfl⟩
  | cons s l ih =>
    obtain ⟨m, hm⟩ := ih
    rw [SparsePoly.insertTerm, exact.add, hm]
    split
    · exact ⟨_, rfl⟩
    split
    · exact ⟨_, rfl⟩
    · exact ⟨_, rfl⟩

theorem addTerm_total (p : SparsePoly C) (t : Term C) : ∃ q, p.addTerm t = .ok q := by
  obtain ⟨m, hm⟩ := exact.insertTerm_total t p.terms
  rw [SparsePoly.addTerm, hm]
  split
  · exact ⟨p, rfl⟩
  · exact ⟨⟨m⟩, rfl⟩

theorem addTerms_total (p : SparsePoly C) (ts : List (Term C)) : ∃ q, p.addTerms ts = .ok q :=
  foldlM_total fun p t _ => exact.addTerm_total p t

theorem scale_total (p : SparsePoly C) (c : C) : ∃ q, p.scale c = .ok q := by
  rw [SparsePoly.scale]
  split
  · exact ⟨.zero, rfl⟩
  · apply foldlM_total
    intro sum t _
    rw [exact.mul, ok_bind]
    exact exact.addTerm_total sum _

theorem tryMul_total {p q : SparsePoly C}
    (h : ∀ s ∈ p.terms, ∀ t ∈ q.terms, s.exponent.val + t.exponent.val < 2 ^ 32) :
    ∃ r, p.tryMul q = .ok r := by
  apply foldlM_total
  intro sum pair hpair
  obtain ⟨hs, ht⟩ := SparsePoly.mem_termPairs.1 hpair
  let e : Exponent := ⟨_, h _ hs _ ht⟩
  obtain ⟨r, hr⟩ := exact.addTerm_total sum ⟨e, pair.1.coeff * pair.2.coeff⟩
  refine ⟨r, ?_⟩
  rw [SparsePoly.addProduct_of_add_eq (e := e) rfl, exact.mul, ok_bind, hr, attempt_ok]

theorem pow_eq (x : C) (n : Nat) : Coefficient.pow x n = .ok (x ^ n) := by
  obtain ⟨y, hy⟩ := binaryPower_total (fun a b => ⟨_, exact.mul a b⟩) Coefficient.one x n
  have hvalue : y = x ^ n := exact.reading.value_pow hy
  rw [← hvalue]
  exact hy

theorem eval_eq (p : SparsePoly C) (x : C) :
    p.eval x = .ok ((exact.reading.polynomial p).eval x) := by
  obtain ⟨y, hy⟩ : ∃ y, p.eval x = .ok y := by
    apply foldlM_total
    intro sum t _
    rw [exact.pow_eq, ok_bind, exact.mul, ok_bind]
    exact ⟨_, exact.add _ _⟩
  have hvalue : y = (exact.reading.polynomial p).eval x := exact.reading.value_eval hy
  rw [hy, hvalue]

theorem ofCoeffs_pair (c : C) :
    ∃ factor, SparsePoly.ofCoeffs [c, Coefficient.one] = .ok factor ∧
      exact.reading.polynomial factor = Polynomial.X + Polynomial.C c := by
  obtain ⟨factor, hf⟩ : ∃ factor, SparsePoly.ofTerms [⟨0, c⟩, ⟨1, Coefficient.one⟩] = .ok factor :=
    exact.addTerms_total .zero _
  refine ⟨factor, hf, ?_⟩
  rw [exact.reading.polynomial_ofTerms hf]
  simp [ExactReading.term, exact.one, add_comm, Polynomial.monomial_one_one_eq_X]

end ExactField

/-- The operations of a field; here a quotient by zero is zero. -/
abbrev fieldOperations (F : Type) [Field F] [DecidableEq F] : FieldCoefficient F where
  beq x y := decide (x = y)
  zero := 0
  one := 1
  isZero x := decide (x = 0)
  add x y := .ok (x + y)
  sub x y := .ok (x - y)
  mul x y := .ok (x * y)
  neg x := .ok (-x)
  ofInt n := n
  ofInt? n := some n
  inv? x := if x = 0 then none else some x⁻¹
  div x y := .ok (x / y)

theorem exactField_fieldOperations (F : Type) [Field F] [DecidableEq F] :
    @ExactField F _ (fieldOperations F) :=
  letI := fieldOperations F
  { zero := rfl
    one := rfl
    isZero_iff := fun _ => decide_eq_true_iff
    add := fun _ _ => rfl
    sub := fun _ _ => rfl
    mul := fun _ _ => rfl
    neg := fun _ => rfl
    div := fun _ _ _ => rfl }

end Univariate
