import Univariate.Coefficient.Basic

/-! # Signed words

`Signed w` holds the integers that a two's complement word of `w` bits can hold.  Its arithmetic is
that of the integers as long as the result fits, and stops with a fault that names the operation
when it does not.  The lemmas give every operation in terms of the integer value. -/

namespace Univariate

/-- Half of the words of `w` bits, `2 ^ (w - 1)` of them, stand for integers below zero. -/
def halfRange (w : Nat) : Nat := Nat.pow 2 (w - 1)

theorem halfRange_pos (w : Nat) : 0 < halfRange w := Nat.two_pow_pos (w - 1)

theorem halfRange_succ (w : Nat) (hw : 0 < w) : halfRange (w + 1) = halfRange w * 2 := by
  obtain ⟨k, rfl⟩ : ∃ k, w = k + 1 := ⟨w - 1, by omega⟩
  rfl

/-- The integers of a signed word of `w` bits; the range is one longer below zero than above. -/
def Fits (w : Nat) (n : Int) : Prop := -(halfRange w : Int) ≤ n ∧ n < halfRange w

instance (w : Nat) (n : Int) : Decidable (Fits w n) := inferInstanceAs (Decidable (_ ∧ _))

/-- A signed word of `w` bits. -/
structure Signed (w : Nat) where
  val : Int
  fits : Fits w val
  deriving DecidableEq

namespace Signed

variable {w : Nat}

@[ext] theorem ext {x y : Signed w} (h : x.val = y.val) : x = y := by
  cases x; cases y; cases h; rfl

def ofInt? (n : Int) : Option (Signed w) := if h : Fits w n then some ⟨n, h⟩ else none

theorem ofInt?_eq_some_iff {n : Int} {x : Signed w} : ofInt? n = some x ↔ n = x.val := by
  rw [ofInt?]
  split
  · simp [Signed.ext_iff]
  · simp only [reduceCtorEq, false_iff]
    rintro rfl
    exact absurd x.fits ‹_›

theorem ofInt?_eq_none_iff {n : Int} : (ofInt? n : Option (Signed w)) = none ↔ ¬ Fits w n := by
  simp [ofInt?]

/-- The result of an operation whose exact value is `n`. -/
def checked (operation : Operation) (n : Int) : Except Fault (Signed w) :=
  if h : Fits w n then .ok ⟨n, h⟩ else .error (.arithmetic operation)

theorem checked_eq_ok_iff {operation : Operation} {n : Int} {x : Signed w} :
    checked operation n = .ok x ↔ n = x.val := by
  rw [checked]
  split
  · simp [Signed.ext_iff]
  · simp only [reduceCtorEq, false_iff]
    rintro rfl
    exact absurd x.fits ‹_›

theorem checked_eq_error_iff {operation : Operation} {n : Int} {f : Fault} :
    (checked operation n : Except Fault (Signed w)) = .error f ↔
      ¬ Fits w n ∧ f = .arithmetic operation := by
  rw [checked]
  split <;> simp_all [eq_comm]

/-- The word congruent to an integer modulo `2 ^ w`. -/
def wrap (n : Int) : Signed w where
  val := n.bmod (Nat.pow 2 w)
  fits := by
    have hpos : 0 < Nat.pow 2 w := Nat.two_pow_pos w
    have hlow := Int.le_bmod (x := n) hpos
    have hhigh := Int.bmod_lt (x := n) hpos
    cases w with
    | zero =>
      have hone : Nat.pow 2 0 = 1 := rfl
      have hhalf : halfRange 0 = 1 := rfl
      simp only [Fits]
      omega
    | succ k =>
      have hhalf : Nat.pow 2 (k + 1) = halfRange (k + 1) * 2 := rfl
      simp only [Fits]
      omega

theorem wrap_of_fits {n : Int} (hw : 0 < w) (h : Fits w n) : (wrap n : Signed w).val = n := by
  obtain ⟨k, rfl⟩ : ∃ k, w = k + 1 := ⟨w - 1, by omega⟩
  have hhalf : Nat.pow 2 (k + 1) = halfRange (k + 1) * 2 := rfl
  obtain ⟨hlow, hhigh⟩ := h
  exact Int.bmod_eq_of_le (by omega) (by omega)

theorem fits_zero : Fits w 0 := by
  have hpos := halfRange_pos w
  exact ⟨by omega, by omega⟩

/-- The word with no counterpart above zero. -/
def least : Signed w where
  val := -halfRange w
  fits := by
    have hpos := halfRange_pos w
    exact ⟨by omega, by omega⟩

instance : Coefficient (Signed w) where
  zero := ⟨0, fits_zero⟩
  one := wrap 1
  isZero x := x.val == 0
  add x y := checked .add (x.val + y.val)
  sub x y := checked .subtract (x.val - y.val)
  mul x y := checked .multiply (x.val * y.val)
  neg x := checked .negate (-x.val)
  ofInt := wrap
  ofInt? := ofInt?

section Operations

variable (x y : Signed w)

theorem add_def : Coefficient.add x y = checked .add (x.val + y.val) := rfl

theorem mul_def : Coefficient.mul x y = checked .multiply (x.val * y.val) := rfl

theorem neg_def : Coefficient.neg x = checked .negate (-x.val) := rfl

@[simp] theorem val_zero : (Coefficient.zero : Signed w).val = 0 := rfl

theorem val_one (hw : 2 ≤ w) : (Coefficient.one : Signed w).val = 1 := by
  obtain ⟨k, rfl⟩ : ∃ k, w = k + 1 := ⟨w - 1, by omega⟩
  have hpos := halfRange_pos k
  have hhalf := halfRange_succ k (by omega)
  exact wrap_of_fits (by omega) ⟨by omega, by omega⟩

theorem val_ofInt_neg_one (hw : 2 ≤ w) : (Coefficient.ofInt (-1) : Signed w).val = -1 := by
  have hpos := halfRange_pos w
  exact wrap_of_fits (by omega) ⟨by omega, by omega⟩

theorem isZero_iff : Coefficient.isZero x = true ↔ x.val = 0 := beq_iff_eq

end Operations

instance : OrderedCoefficient (Signed w) where
  abs x := if x.val < 0 then Coefficient.neg x else .ok x
  sign x := if x.val < 0 then .negative else if x.val = 0 then .zero else .positive

/-- The decimal digits of the magnitude, after a minus sign below zero. -/
instance : WrittenCoefficient (Signed w) where
  text x :=
    if x.val < 0 then '-' :: Nat.toDigits 10 x.val.natAbs else Nat.toDigits 10 x.val.natAbs

section Magnitude

variable {x y : Signed w} {f : Fault}

theorem isNegative_iff : OrderedCoefficient.isNegative x = true ↔ x.val < 0 := by
  simp only [OrderedCoefficient.isNegative, OrderedCoefficient.sign]
  split
  · simp_all
  · split <;> simp_all

theorem val_of_abs (h : OrderedCoefficient.abs x = .ok y) : y.val = x.val.natAbs := by
  simp only [OrderedCoefficient.abs] at h
  split at h
  · rw [neg_def, checked_eq_ok_iff] at h
    omega
  · cases h
    omega

theorem abs_eq_error_iff :
    OrderedCoefficient.abs x = .error f ↔ f = .arithmetic .negate ∧ x = least := by
  have hpos := halfRange_pos w
  obtain ⟨hlow, hhigh⟩ := x.fits
  simp only [OrderedCoefficient.abs, Signed.ext_iff, least]
  split
  · rw [neg_def, checked_eq_error_iff, and_comm, Fits]
    refine and_congr_right fun _ => ?_
    omega
  · simp only [reduceCtorEq, false_iff, not_and]
    omega

theorem text_of_nonneg (h : 0 ≤ x.val) :
    WrittenCoefficient.text x = Nat.toDigits 10 x.val.natAbs := by
  simp only [WrittenCoefficient.text]
  rw [if_neg (by omega)]

end Magnitude

end Signed

end Univariate
