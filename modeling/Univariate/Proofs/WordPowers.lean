import Univariate.Proofs.ExactReading
import Univariate.Proofs.RunningSums

/-! # Powers of words

Every product that powering by squaring forms is itself a power of the base, and none is a higher
one than the result.  Where the result is a word the others are words too, so nothing but the result
itself can be out of range. -/

namespace Univariate

variable {w : Nat}

/-- Where a power is a word, so are the lower ones: they are nearer to zero, or all powers are among
-1, 0 and 1. -/
theorem fits_pow_of_le (hw : 2 ≤ w) {x : ℤ} {m n : ℕ} (hmn : m ≤ n) (h : Fits w (x ^ n)) :
    Fits w (x ^ m) := by
  rcases hmn.eq_or_lt with rfl | hlt
  · exact h
  apply fits_of_abs_lt
  rw [abs_pow]
  by_cases hx : |x| ≤ 1
  · have hhalf : 2 ≤ halfRange w := Nat.pow_le_pow_right (by decide : 0 < 2) (by omega : 1 ≤ w - 1)
    have hone : |x| ^ m ≤ 1 := pow_le_one₀ (abs_nonneg x) hx
    omega
  · calc |x| ^ m
        < |x| ^ n := pow_lt_pow_right₀ (not_le.1 hx) hlt
      _ = |x ^ n| := (abs_pow x n).symm
      _ ≤ halfRange w := abs_le_of_fits h

namespace Signed

private theorem mul_eq_ok_of_pow {a b : Signed w} {x : ℤ} {i j : ℕ} (ha : a.val = x ^ i)
    (hb : b.val = x ^ j) (h : Fits w (x ^ (i + j))) :
    Coefficient.mul a b = .ok ⟨x ^ (i + j), h⟩ := by
  rw [mul_def, checked_eq_ok_iff, ha, hb]
  exact (pow_add x i j).symm

/-- The products on the way are lower powers of the same base. -/
theorem exists_pow (hw : 2 ≤ w) {x : Signed w} {n : ℕ} (h : Fits w (x.val ^ n)) :
    ∃ y, Coefficient.pow x n = .ok y := by
  have hmul : ∀ i j (a b : Signed w), i + j ≤ n → a.val = x.val ^ i → b.val = x.val ^ j →
      Ends (fun y : Signed w => y.val = x.val ^ (i + j)) (fun _ => False) (Coefficient.mul a b) :=
    fun i j a b hij ha hb =>
      ends_false_iff.2 ⟨_, mul_eq_ok_of_pow ha hb (fits_pow_of_le hw hij h), rfl⟩
  have hone : (Coefficient.one : Signed w).val = x.val ^ 0 := by rw [val_one hw, pow_zero]
  have hpower := binaryPower_ends (A := fun i (y : Signed w) => y.val = x.val ^ i)
    hmul (fun j b hj hb => hmul j j b b hj hb hb) hone (pow_one x.val).symm
  exact (ends_false_iff.1 hpower).imp fun _ hy => hy.1

theorem pow_eq_ok_iff (hw : 2 ≤ w) {x y : Signed w} {n : ℕ} :
    Coefficient.pow x n = .ok y ↔ x.val ^ n = y.val := by
  constructor
  · intro h
    exact ((reading hw).value_pow h).symm
  · intro h
    obtain ⟨z, hz⟩ := exists_pow hw (h ▸ y.fits)
    have hvalue : z.val = x.val ^ n := (reading hw).value_pow hz
    rw [hz, Signed.ext (hvalue.trans h)]

theorem mul_ends (a b : Signed w) :
    Ends (fun _ => True) (fun f => f = .arithmetic .multiply) (Coefficient.mul a b) :=
  ends_iff.2 ⟨fun _ _ => trivial, fun _ hf => (checked_eq_error_iff.1 hf).2⟩

theorem pow_ends (x : Signed w) (n : ℕ) :
    Ends (fun _ => True) (fun f => f = .arithmetic .multiply) (Coefficient.pow x n) :=
  binaryPower_ends (A := fun _ _ => True) (B := fun _ _ => True)
    (fun _ _ a b _ _ _ => mul_ends a b) (fun _ b _ _ => mul_ends b b) trivial trivial

theorem pow_eq_error_iff (hw : 2 ≤ w) {x : Signed w} {n : ℕ} {f : Fault} :
    Coefficient.pow x n = .error f ↔ f = .arithmetic .multiply ∧ ¬ Fits w (x.val ^ n) := by
  have hreturn : (∃ y, Coefficient.pow x n = .ok y) ↔ Fits w (x.val ^ n) := by
    constructor
    · rintro ⟨y, hy⟩
      rw [(pow_eq_ok_iff hw).1 hy]
      exact y.fits
    · exact exists_pow hw
  rw [eq_error_iff_of_unique (ends_iff.1 (pow_ends x n)).2, hreturn]

/-- A power that is a word is returned, and one that is no word is stopped by a multiplication.  The
power zero is one, also that of zero. -/
theorem pow_returns_or_overflows (hw : 2 ≤ w) (x : Signed w) (n : ℕ) :
    (∀ h : Fits w (x.val ^ n), Coefficient.pow x n = .ok ⟨x.val ^ n, h⟩) ∧
    (Coefficient.pow x n = .error (.arithmetic .multiply) ↔ ¬ Fits w (x.val ^ n)) ∧
    ∃ y, Coefficient.pow x 0 = .ok y ∧ y.val = 1 :=
  ⟨fun _ => (pow_eq_ok_iff hw).2 rfl, (pow_eq_error_iff hw).trans (and_iff_right rfl),
    Coefficient.one, Coefficient.pow_zero x, val_one hw⟩

/-- The least word of 64 bits is a power of -2, and the same power of 2 is one too large. -/
theorem pow_returns_or_overflows_at_limits :
    let x : Signed 64 := ⟨-2, by decide⟩
    let y : Signed 64 := ⟨2, by decide⟩
    let z : Signed 64 := ⟨0, by decide⟩
    Coefficient.pow x 63 = .ok least ∧ Coefficient.pow y 63 = .error (.arithmetic .multiply) ∧
      ∃ u, Coefficient.pow z 0 = .ok u ∧ u.val = 1 := by
  intro x y z
  obtain ⟨hleast, -⟩ := pow_returns_or_overflows (by decide) x 63
  obtain ⟨-, hlarge, -⟩ := pow_returns_or_overflows (by decide) y 63
  obtain ⟨-, -, hzero⟩ := pow_returns_or_overflows (by decide) z 0
  have hvalue : (⟨x.val ^ 63, by decide⟩ : Signed 64) = least := by decide
  exact ⟨hvalue ▸ hleast (by decide), hlarge.2 (by decide), hzero⟩

end Signed

end Univariate
