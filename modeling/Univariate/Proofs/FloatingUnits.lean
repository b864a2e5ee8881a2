import Mathlib.Algebra.Group.Nat.Defs
import Univariate.Coefficient.Floating

/-! # Units of the floating-point formats

A product with one or minus one is rounded from a mantissa that ends in as many zeros as the format
has places behind the point.  The rounding takes these zeros away and nothing else, so the number
comes back unchanged, or with the other sign. -/

namespace Univariate

open Float.Model (Format UnpackedFloat totalExponent)
open Float.Model.UnpackedFloat

variable {F : Format}

private theorem shiftRight_zeros (m k : Nat) :
    (⟨m * 2 ^ k, false, false⟩ : ExtendedMantissa) >>> k = ⟨m, false, false⟩ := by
  induction k generalizing m with
  | zero => simp [HShiftRight.hShiftRight, Nat.repeat]
  | succ k ih =>
    have hlast : (⟨m * 2, false, false⟩ : ExtendedMantissa).shiftRightOne = ⟨m, false, false⟩ := by
      simp [ExtendedMantissa.shiftRightOne]
    rw [show m * 2 ^ (k + 1) = m * 2 * 2 ^ k by rw [Nat.pow_succ', Nat.mul_assoc]]
    exact (congrArg ExtendedMantissa.shiftRightOne (ih (m * 2))).trans hlast

private theorem log2_zeros {m : Nat} (hm : 0 < m) (k : Nat) : (m * 2 ^ k).log2 = m.log2 + k := by
  have hne : m ≠ 0 := Nat.ne_of_gt hm
  have hpow : 0 < 2 ^ k := Nat.two_pow_pos k
  refine (Nat.log2_eq_iff (Nat.ne_of_gt (Nat.mul_pos hm hpow))).2 ⟨?_, ?_⟩
  · rw [Nat.pow_add]
    exact Nat.mul_le_mul_right _ (Nat.log2_self_le hne)
  · rw [Nat.add_right_comm, Nat.pow_add]
    exact Nat.mul_lt_mul_of_pos_right Nat.lt_log2_self hpow

/-- The exponent of a finite number is the one that the format asks for. -/
def Rounded (F : Format) : UnpackedFloat → Prop
  | .finite _ m e _ => F.targetExponent (totalExponent m e) = e
  | _ => True

/-- The zeros at the end are shifted out, and the second shift has nothing left to do. -/
theorem roundWithAccuracy_zeros {s : UnpackedFloat.Sign} {m : Nat} {e : Int} (hm : 0 < m)
    (h : Rounded F (.finite s m e hm)) (t : UnpackedFloat.Sign) (k : Nat) :
    roundWithAccuracy F t (m * 2 ^ k) (e - k) .exact = .finite t m e hm := by
  have hshift : ∀ n : Nat,
      shiftToTargetExponent F (m * 2 ^ n) (e - n) .exact = (⟨m, false, false⟩, e) := by
    intro n
    have htotal : totalExponent (m * 2 ^ n) (e - n) = totalExponent m e := by
      simp only [totalExponent, log2_zeros hm]
      omega
    have htarget : F.targetExponent (totalExponent (m * 2 ^ n) (e - n)) = e := htotal ▸ h
    have hamount : (e - (e - n)).toNat = n := by omega
    simp only [shiftToTargetExponent, htarget, shiftToExponent, hamount,
      ExtendedMantissa.ofMantissaAndAccuracy, shiftRight_zeros, Int.sub_add_cancel]
  have hsecond : shiftToTargetExponent F m e .exact = (⟨m, false, false⟩, e) := by
    simpa using hshift 0
  have hexact : ExtendedMantissa.roundedMantissa ⟨m, false, false⟩ = m := rfl
  rw [roundWithAccuracy, hshift]
  dsimp only
  rw [hexact, hsecond]
  exact dif_neg (Nat.ne_of_gt hm)

theorem mul_unit {x : UnpackedFloat} (hx : Rounded F x) (t : UnpackedFloat.Sign) {k : Nat}
    (hk : 0 < 2 ^ k) : UnpackedFloat.mul F x (.finite t (2 ^ k) (-k) hk) =
      match t with
      | .positive => x
      | .negative => x.neg := by
  cases x with
  | notANumber => cases t <;> rfl
  | infinity s => cases t <;> cases s <;> rfl
  | zero s => cases t <;> cases s <;> rfl
  | finite s m e hm =>
    have hround := roundWithAccuracy_zeros hm hx (s * t) k
    cases t <;> cases s <;> exact hround

private theorem toNat_implicit {n : Nat} (m : BitVec n) : (1#1 ++ m).toNat = 2 ^ n + m.toNat := by
  rw [BitVec.toNat_append, ← Nat.shiftLeft_add_eq_or_of_lt m.isLt]
  simp [Nat.shiftLeft_eq]

private theorem log2_implicit {n : Nat} (m : BitVec n) : (1#1 ++ m).toNat.log2 = n := by
  have hlt : m.toNat < 2 ^ n := m.isLt
  have hpos : 0 < 2 ^ n := Nat.two_pow_pos n
  rw [toNat_implicit, Nat.log2_eq_iff (by omega), Nat.pow_succ]
  omega

private theorem log2_toNat_lt {n : Nat} {m : BitVec n} (hm : m ≠ 0#n) : m.toNat.log2 < n := by
  have hne : m.toNat ≠ 0 := fun h => hm (BitVec.eq_of_toNat_eq h)
  exact (Nat.log2_lt hne).2 m.isLt

private theorem mantissaBits_eq (F : Format) :
    F.mantissaBits = 1 + F.mantissaBitsWithoutImplicit := rfl

private theorem minExponent_eq (F : Format) :
    F.minExponent = 1 - (F.exponentBias + F.mantissaBitsWithoutImplicit : Int) := by
  have hpos : 0 < 2 ^ (F.exponentBits - 1) := Nat.two_pow_pos _
  have hbias : (2 : Int) ^ (F.exponentBits - 1) = F.exponentBias + 1 := by
    rw [Format.exponentBias]
    norm_cast
    omega
  rw [Format.minExponent, hbias, mantissaBits_eq]
  omega

theorem rounded_unpack (b : BitVec F.numBits) : Rounded F (unpack F b) := by
  have hmin := minExponent_eq F
  unfold unpack
  dsimp only
  by_cases hinfinite : unpackExponent b = -1#_
  · rw [if_pos hinfinite]
    split <;> trivial
  rw [if_neg hinfinite]
  by_cases hexponent : unpackExponent b = 0#_
  · rw [if_pos hexponent]
    by_cases hmantissa : unpackMantissa b = 0#_
    · rw [dif_pos hmantissa]
      trivial
    · rw [dif_neg hmantissa]
      have hlog := log2_toNat_lt hmantissa
      change F.targetExponent (totalExponent _ _) = _
      simp only [Format.targetExponent, totalExponent, mantissaBits_eq, hexponent, hmin,
        BitVec.toNat_zero]
      omega
  · rw [if_neg hexponent]
    have hpos : (unpackExponent b).toNat ≠ 0 := fun h => hexponent (BitVec.eq_of_toNat_eq h)
    change F.targetExponent (totalExponent _ _) = _
    simp only [Format.targetExponent, totalExponent, mantissaBits_eq, log2_implicit, hmin]
    omega

private theorem packComponents_self (b : BitVec F.numBits) :
    packComponents F (.ofBitVec (unpackSign b)) (unpackExponent b) (unpackMantissa b) = b := by
  have hsign : ∀ v : BitVec 1, (UnpackedFloat.Sign.ofBitVec v).toBitVec = v := by decide
  apply BitVec.eq_of_getLsbD_eq
  intro i hi
  unfold packComponents unpackSign unpackExponent unpackMantissa
  rw [hsign]
  simp only [BitVec.getLsbD_append, BitVec.getLsbD_cast, BitVec.getLsbD_extractLsb]
  -- The place is in the fraction, in the exponent or the sign.
  split
  · rw [decide_eq_true (by omega), Bool.true_and, Nat.zero_add]
  split
  · rw [decide_eq_true (by omega), Bool.true_and, Nat.add_sub_cancel' (by omega)]
  · have hsum : F.mantissaBitsWithoutImplicit + F.exponentBits +
        (i - F.mantissaBitsWithoutImplicit - F.exponentBits) = i := by omega
    have hlast : i < 1 + F.exponentBits + F.mantissaBitsWithoutImplicit := hi
    rw [decide_eq_true (by omega), Bool.true_and, hsum]

/-- Below the infinities the exponent is stored exactly if the mantissa has all its places. -/
private theorem pack_finite {s : UnpackedFloat.Sign} {m : Nat} {e : Int} (hm : 0 < m) {n : Nat}
    (he : e + (F.exponentBias + F.mantissaBitsWithoutImplicit) = n)
    (hn : n + 1 < 2 ^ F.exponentBits) :
    pack F (.finite s m e hm) = packComponents F s
      (if m.log2 = F.mantissaBitsWithoutImplicit then BitVec.ofNat _ n else 0#_)
      (BitVec.ofNat _ m) := by
  have hbiased : (e + F.exponentBias + F.mantissaBitsWithoutImplicit).toNat = n := by omega
  unfold pack
  dsimp only
  rw [hbiased, if_neg (Nat.not_le.2 hn)]
  by_cases hlog : m.log2 = F.mantissaBitsWithoutImplicit
  · rw [if_pos hlog, if_pos (by rw [mantissaBits_eq, hlog, Nat.add_comm])]
  · rw [if_neg hlog, if_neg (by rw [mantissaBits_eq]; omega)]

theorem pack_subnormal (hF : 2 ≤ F.exponentBits) (s : UnpackedFloat.Sign) {e : Int}
    {m : BitVec F.mantissaBitsWithoutImplicit} (hm : 0 < m.toNat)
    (he : e + (F.exponentBias + F.mantissaBitsWithoutImplicit) = 1) :
    pack F (.finite s m.toNat e hm) = packComponents F s 0#_ m := by
  have hpow : 2 ^ 2 ≤ 2 ^ F.exponentBits := Nat.pow_le_pow_right (by decide) hF
  have hlog : m.toNat.log2 < F.mantissaBitsWithoutImplicit :=
    (Nat.log2_lt (Nat.ne_of_gt hm)).2 m.isLt
  rw [pack_finite (n := 1) hm he (by omega), if_neg (Nat.ne_of_lt hlog), BitVec.ofNat_toNat,
    BitVec.setWidth_eq]

theorem pack_normal (s : UnpackedFloat.Sign) {e : Int} {v : BitVec F.exponentBits}
    {m : BitVec F.mantissaBitsWithoutImplicit} (hm : 0 < (1#1 ++ m).toNat) (hv : v ≠ -1#_)
    (he : e + (F.exponentBias + F.mantissaBitsWithoutImplicit) = v.toNat) :
    pack F (.finite s (1#1 ++ m).toNat e hm) = packComponents F s v m := by
  have hfinite : v.toNat + 1 < 2 ^ F.exponentBits := by
    have hlt : v.toNat < 2 ^ F.exponentBits := v.isLt
    have hne : v.toNat ≠ 2 ^ F.exponentBits - 1 := by
      intro h
      apply hv
      rw [BitVec.neg_one_eq_allOnes]
      exact BitVec.eq_of_toNat_eq (h.trans BitVec.toNat_allOnes.symm)
    omega
  have hmantissa : BitVec.ofNat F.mantissaBitsWithoutImplicit (1#1 ++ m).toNat = m := by
    apply BitVec.eq_of_toNat_eq
    rw [toNat_implicit, BitVec.toNat_ofNat, Nat.add_mod_left, Nat.mod_eq_of_lt m.isLt]
  rw [pack_finite hm he hfinite, if_pos (log2_implicit m), hmantissa, BitVec.ofNat_toNat,
    BitVec.setWidth_eq]

/-- A pattern is made up again from what is read from it; of the patterns that are no number only
one is valid. -/
theorem pack_unpack (hF : 2 ≤ F.exponentBits) {b : BitVec F.numBits} (hb : F.Valid b) :
    pack F (unpack F b) = b := by
  have hparts := packComponents_self b
  unfold unpack
  dsimp only
  by_cases hinfinite : unpackExponent b = -1#_
  · rw [if_pos hinfinite]
    rw [hinfinite] at hparts
    by_cases hmantissa : unpackMantissa b = 0#_
    · rw [hmantissa] at hparts
      rw [if_pos hmantissa]
      exact hparts
    · rw [if_neg hmantissa]
      exact (hb.eq_packedNaN hinfinite hmantissa).symm
  rw [if_neg hinfinite]
  by_cases hexponent : unpackExponent b = 0#_
  · rw [if_pos hexponent]
    rw [hexponent] at hparts
    by_cases hmantissa : unpackMantissa b = 0#_
    · rw [hmantissa] at hparts
      rw [dif_pos hmantissa]
      exact hparts
    · rw [dif_neg hmantissa, pack_subnormal hF _ _ (by rw [hexponent, BitVec.toNat_zero]; omega)]
      exact hparts
  · rw [if_neg hexponent, pack_normal _ _ hinfinite (by omega)]
    exact hparts

private theorem beq_zero_iff {x : UnpackedFloat} {s : UnpackedFloat.Sign} :
    x.beq (.zero s) = true ↔ ∃ t, x = .zero t := by
  constructor
  · intro h
    cases x with
    | notANumber => exact Bool.noConfusion h
    | infinity t => cases t <;> exact Bool.noConfusion h
    | zero t => exact ⟨t, rfl⟩
    | finite t m e hm => cases t <;> exact Bool.noConfusion h
  · rintro ⟨t, rfl⟩
    rfl

theorem zero_beq_eq (s : UnpackedFloat.Sign) (x : UnpackedFloat) :
    UnpackedFloat.beq (.zero s) x = x.beq (.zero s) := by
  cases x with
  | notANumber => rfl
  | infinity t => cases t <;> rfl
  | zero t => rfl
  | finite t m e hm => cases t <;> rfl

theorem double_pack_unpack (x : Float) : Float.ofModel (.pack x.toModel.unpack) = x := by
  obtain ⟨⟨bits, hvalid⟩⟩ := x
  have hpattern := pack_unpack (F := .binary64) (by decide) hvalid
  have hmodel : Float.Model.pack (unpack .binary64 bits.toBitVec) = ⟨bits, hvalid⟩ := by
    exact (Float.Model.mk.injEq ..).mpr (congrArg UInt64.ofBitVec hpattern)
  exact congrArg Float.ofModel hmodel

theorem double_mul_one (x : Float) : x * 1 = x := by
  have hunit := mul_unit (rounded_unpack (F := .binary64) x.toModel.toBits.toBitVec) .positive
    (Nat.two_pow_pos 52)
  exact (congrArg (fun u => Float.ofModel (.pack u)) hunit).trans (double_pack_unpack x)

theorem double_mul_neg_one (x : Float) : x * Float.ofInt (-1) = -x := by
  have hunit := mul_unit (rounded_unpack (F := .binary64) x.toModel.toBits.toBitVec) .negative
    (Nat.two_pow_pos 52)
  exact congrArg Float.ofModel (congrArg Float.Model.pack hunit)

theorem double_eq_zero {x : Float} (hx : (x == 0) = true) : x = 0 ∨ x = -0 := by
  obtain ⟨s, hs⟩ := beq_zero_iff.1 (show x.toModel.unpack.beq (.zero .positive) = true from hx)
  rw [← double_pack_unpack x, hs]
  cases s with
  | positive => exact .inl rfl
  | negative => exact .inr rfl

theorem double_neg_zero {x : Float} (hx : (x == 0) = true) : (-x == 0) = true := by
  obtain ⟨s, hs⟩ := beq_zero_iff.1 (show x.toModel.unpack.beq (.zero .positive) = true from hx)
  have hneg : -x = ⟨.pack (UnpackedFloat.neg (.zero s))⟩ := by
    rw [← hs]
    rfl
  rw [hneg]
  cases s <;> rfl

theorem single_pack_unpack (x : Float32) : Float32.ofModel (.pack x.toModel.unpack) = x := by
  obtain ⟨⟨bits, hvalid⟩⟩ := x
  have hpattern := pack_unpack (F := .binary32) (by decide) hvalid
  have hmodel : Float32.Model.pack (unpack .binary32 bits.toBitVec) = ⟨bits, hvalid⟩ := by
    exact (Float32.Model.mk.injEq ..).mpr (congrArg UInt32.ofBitVec hpattern)
  exact congrArg Float32.ofModel hmodel

theorem single_mul_one (x : Float32) : x * 1 = x := by
  have hunit := mul_unit (rounded_unpack (F := .binary32) x.toModel.toBits.toBitVec) .positive
    (Nat.two_pow_pos 23)
  exact (congrArg (fun u => Float32.ofModel (.pack u)) hunit).trans (single_pack_unpack x)

theorem single_mul_neg_one (x : Float32) : x * Float32.ofInt (-1) = -x := by
  have hunit := mul_unit (rounded_unpack (F := .binary32) x.toModel.toBits.toBitVec) .negative
    (Nat.two_pow_pos 23)
  exact congrArg Float32.ofModel (congrArg Float32.Model.pack hunit)

theorem single_eq_zero {x : Float32} (hx : (x == 0) = true) : x = 0 ∨ x = -0 := by
  obtain ⟨s, hs⟩ := beq_zero_iff.1 (show x.toModel.unpack.beq (.zero .positive) = true from hx)
  rw [← single_pack_unpack x, hs]
  cases s with
  | positive => exact .inl rfl
  | negative => exact .inr rfl

theorem single_neg_zero {x : Float32} (hx : (x == 0) = true) : (-x == 0) = true := by
  obtain ⟨s, hs⟩ := beq_zero_iff.1 (show x.toModel.unpack.beq (.zero .positive) = true from hx)
  have hneg : -x = ⟨.pack (UnpackedFloat.neg (.zero s))⟩ := by
    rw [← hs]
    rfl
  rw [hneg]
  cases s <;> rfl

end Univariate
