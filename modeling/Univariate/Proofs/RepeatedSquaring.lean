import Mathlib.Algebra.Group.Nat.Defs
import Mathlib.Tactic.Ring
import Univariate.Coefficient.Basic
import Univariate.Sequencing

/-! # Repeated squaring

The loop forms no products but those of powers of the base, and none of them is a higher power than
the result.  What holds of such products therefore holds of the result: the form of what is
multiplied, its exact value, and that nothing fails. -/

namespace Univariate

variable {ε α : Type} {mul : α → α → Except ε α} {acc base r : α} {n : ℕ}

/-- In every round the accumulator has taken in `i` factors, the square stands for `j` of them, and
the exponent that is left makes up the rest. -/
private theorem binaryPower_round {A B : ℕ → α → Prop} {Q : ε → Prop} {last i j : ℕ}
    (hmul : ∀ i j a b, i + j ≤ last → A i a → B j b → Ends (A (i + j)) Q (mul a b))
    (hsquare : ∀ j b, j + j ≤ last → B j b → Ends (B (j + j)) Q (mul b b))
    (hacc : A i acc) (hbase : B j base) (hlast : i + j * n ≤ last) :
    Ends (A (i + j * n)) Q (binaryPower mul acc base n) := by
  induction n using Nat.strongRecOn generalizing i j acc base with
  | ind n ih =>
    by_cases hn : n = 0
    · subst hn
      rw [binaryPower_zero]
      exact hacc
    have hbits : j * n = j * (n % 2) + (j + j) * (n / 2) := by
      conv_lhs => rw [← Nat.mod_add_div n 2]
      ring
    have hround : Ends (A (i + j * (n % 2))) Q (if n % 2 = 1 then mul acc base else .ok acc) := by
      split
      · rename_i hodd
        rw [hodd, mul_one] at hbits ⊢
        exact hmul i j acc base (by omega) hacc hbase
      · rename_i heven
        rw [show n % 2 = 0 by omega, mul_zero]
        exact hacc
    rw [binaryPower_of_ne_zero _ _ _ hn, hbits, ← add_assoc]
    refine hround.bind fun acc' hacc' => ?_
    split
    · rename_i hhalf
      rw [hhalf, mul_zero]
      exact hacc'
    · rename_i hhalf
      have hdouble : j + j ≤ (j + j) * (n / 2) :=
        Nat.le_mul_of_pos_right _ (Nat.pos_of_ne_zero hhalf)
      exact (hsquare j base (by omega) hbase).bind fun square hsq =>
        ih (n / 2) (by omega) hacc' hsq (by omega)

theorem binaryPower_ends {A B : ℕ → α → Prop} {Q : ε → Prop}
    (hmul : ∀ i j a b, i + j ≤ n → A i a → B j b → Ends (A (i + j)) Q (mul a b))
    (hsquare : ∀ j b, j + j ≤ n → B j b → Ends (B (j + j)) Q (mul b b))
    (hacc : A 0 acc) (hbase : B 1 base) : Ends (A n) Q (binaryPower mul acc base n) := by
  have h := binaryPower_round (n := n) hmul hsquare hacc hbase (by omega)
  rwa [zero_add, one_mul] at h

theorem binaryPower_keeps {P : α → Prop} (hmul : ∀ a b c, P a → P b → mul a b = .ok c → P c)
    (hacc : P acc) (hbase : P base) (h : binaryPower mul acc base n = .ok r) : P r := by
  have hends : ∀ a b, P a → P b → Ends P (fun _ => True) (mul a b) := fun a b ha hb =>
    ends_true_iff.2 fun c => hmul a b c ha hb
  have hpower : Ends P (fun _ => True) (binaryPower mul acc base n) :=
    binaryPower_ends (A := fun _ => P) (B := fun _ => P)
      (fun _ _ a b _ => hends a b) (fun _ b _ hb => hends b b hb hb) hacc hbase
  exact ends_true_iff.1 hpower r h

theorem binaryPower_total (hmul : ∀ a b, ∃ c, mul a b = .ok c) (acc base : α) (n : ℕ) :
    ∃ r, binaryPower mul acc base n = .ok r := by
  have hends : ∀ a b, Ends (fun _ => True) (fun _ => False) (mul a b) := fun a b =>
    ends_false_iff.2 ((hmul a b).imp fun _ hc => ⟨hc, trivial⟩)
  have hpower : Ends (fun _ => True) (fun _ => False) (binaryPower mul acc base n) :=
    binaryPower_ends (A := fun _ _ => True) (B := fun _ _ => True)
      (fun _ _ a b _ _ _ => hends a b) (fun _ b _ _ => hends b b) trivial trivial
  exact (ends_false_iff.1 hpower).imp fun _ hr => hr.1

theorem binaryPower_exact {M : Type} [CommMonoid M] {V : α → M}
    (hmul : ∀ a b c, mul a b = .ok c → V c = V a * V b) (h : binaryPower mul acc base n = .ok r) :
    V r = V acc * V base ^ n := by
  have hpower : Ends (fun a => V a = V acc * V base ^ n) (fun _ => True)
      (binaryPower mul acc base n) := by
    apply binaryPower_ends (A := fun i a => V a = V acc * V base ^ i)
      (B := fun j b => V b = V base ^ j)
    · intro i j a b _ ha hb
      refine ends_true_iff.2 fun c hc => ?_
      rw [hmul a b c hc, ha, hb, pow_add, mul_assoc]
    · intro j b _ hb
      refine ends_true_iff.2 fun c hc => ?_
      rw [hmul b b c hc, hb, pow_add]
    · rw [pow_zero, mul_one]
    · rw [pow_one]
  exact ends_true_iff.1 hpower r h

end Univariate
