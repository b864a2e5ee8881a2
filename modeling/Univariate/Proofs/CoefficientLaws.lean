import Univariate.Coefficient.Signed
import Univariate.Proofs.FloatingUnits

/-! # What the coefficient types have in common

No coefficient type obeys the laws of a ring: words leave their range, and floating-point numbers
round.  Some laws hold for all of them nevertheless.  The test for zero is the comparison with zero,
a product with one is exact, and a product with minus one is the negative. -/

namespace Univariate

/-- The test for zero is the comparison with zero, from either side. -/
structure ExactZeroTest (C : Type) [Coefficient C] : Prop where
  zero_beq : ∀ x : C, (Coefficient.zero == x) = Coefficient.isZero x
  beq_zero : ∀ x : C, (x == Coefficient.zero) = Coefficient.isZero x
  isZero_zero : Coefficient.isZero (Coefficient.zero : C) = true

/-- A factor one has no effect.  A factor minus one has that of a negation, which is stopped where
the product is, though perhaps by another fault. -/
structure SignedUnits (C : Type) [Coefficient C] : Prop where
  isZero_one : Coefficient.isZero (Coefficient.one : C) = false
  isZero_negOne : Coefficient.isZero (Coefficient.ofInt (-1) : C) = false
  mul_one : ∀ x : C, Coefficient.mul x Coefficient.one = .ok x
  neg_eq_mul : ∀ x : C, (Coefficient.neg x).toOption =
    (Coefficient.mul x (Coefficient.ofInt (-1))).toOption
  neg_of_isZero : ∀ x : C, Coefficient.isZero x = true →
    ∃ y, Coefficient.neg x = .ok y ∧ Coefficient.isZero y = true

namespace Signed

variable {w : Nat}

theorem exactZeroTest : ExactZeroTest (Signed w) where
  zero_beq x := by
    rw [Bool.eq_iff_iff, beq_iff_eq, isZero_iff, Signed.ext_iff, eq_comm, val_zero]
  beq_zero x := by
    rw [Bool.eq_iff_iff, beq_iff_eq, isZero_iff, Signed.ext_iff, val_zero]
  isZero_zero := (isZero_iff _).2 rfl

theorem toOption_checked (first second : Operation) (n : Int) :
    (checked first n : Except Fault (Signed w)).toOption = (checked second n).toOption := by
  rw [checked, checked]
  split <;> rfl

theorem signedUnits (hw : 2 ≤ w) : SignedUnits (Signed w) where
  isZero_one := by
    rw [Bool.eq_false_iff, ne_eq, isZero_iff, val_one hw]
    decide
  isZero_negOne := by
    rw [Bool.eq_false_iff, ne_eq, isZero_iff, val_ofInt_neg_one hw]
    decide
  mul_one x := by
    rw [mul_def, checked_eq_ok_iff, val_one hw, Int.mul_one]
  neg_eq_mul x := by
    rw [neg_def, mul_def, val_ofInt_neg_one hw, Int.mul_neg_one]
    exact toOption_checked _ _ _
  neg_of_isZero x hx := by
    have hzero : x.val = 0 := (isZero_iff x).1 hx
    refine ⟨x, ?_, hx⟩
    rw [neg_def, checked_eq_ok_iff, hzero, Int.neg_zero]

end Signed

theorem exactZeroTest_single : ExactZeroTest Float32 where
  zero_beq x := zero_beq_eq .positive x.toModel.unpack
  beq_zero _ := rfl
  isZero_zero := by decide

theorem exactZeroTest_double : ExactZeroTest Float where
  zero_beq x := zero_beq_eq .positive x.toModel.unpack
  beq_zero _ := rfl
  isZero_zero := by decide

theorem signedUnits_single : SignedUnits Float32 where
  isZero_one := by decide
  isZero_negOne := by decide
  mul_one x := congrArg Except.ok (single_mul_one x)
  neg_eq_mul x := congrArg some (single_mul_neg_one x).symm
  neg_of_isZero x hx := ⟨-x, rfl, single_neg_zero hx⟩

theorem signedUnits_double : SignedUnits Float where
  isZero_one := by decide
  isZero_negOne := by decide
  mul_one x := congrArg Except.ok (double_mul_one x)
  neg_eq_mul x := congrArg some (double_mul_neg_one x).symm
  neg_of_isZero x hx := ⟨-x, rfl, double_neg_zero hx⟩

end Univariate
