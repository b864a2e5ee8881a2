import Univariate.Proofs.Derivation
import Univariate.Proofs.RunningSums

/-! # Exact derivatives

A derivative multiplies each coefficient by its exponent and lowers the exponent.  No two of the
products meet, so nothing but a product itself can be out of range.  The exponent is embedded into
the words before it is multiplied with.  Words of 33 bits and more hold every exponent.  In narrower
ones the large exponents are wrapped, and the products are not those of the exponents. -/

namespace Univariate

namespace SparsePoly

section Terms

variable {C : Type} [Coefficient C] {p r : SparsePoly C}

def IsDerivative (t u : Term C) : Prop :=
  u.exponent = t.exponent.lower ∧ Coefficient.timesInt t.coeff t.exponent.val = .ok u.coeff

private theorem foldlM_isDerivative {ts us : List (Term C)} (h : List.Forall₂ IsDerivative ts us)
    (sum : SparsePoly C) : ts.foldlM
      (fun sum t => do
        sum.addTerm ⟨t.exponent.lower, ← Coefficient.timesInt t.coeff t.exponent.val⟩) sum =
      sum.addTerms us := by
  induction h generalizing sum with
  | nil => rfl
  | @cons t u ts us hu hus ih =>
    rw [List.foldlM_cons, addTerms_cons, hu.2, ok_bind, ← hu.1]
    cases sum.addTerm u with
    | error f => rfl
    | ok q => exact ih q

private theorem map_lower_of_isDerivative {ts us : List (Term C)}
    (h : List.Forall₂ IsDerivative ts us) :
    us.map (·.exponent) = ts.map (·.exponent.lower) := by
  induction h with
  | nil => rfl
  | cons hu _ ih => rw [List.map_cons, List.map_cons, hu.1, ih]

private theorem isDerivative_iff_eq_ok {t u : Term C} :
    (do return ⟨t.exponent.lower, ← Coefficient.timesInt t.coeff t.exponent.val⟩) = Except.ok u ↔
      IsDerivative t u := by
  rw [IsDerivative, bind_eq_ok_iff]
  constructor
  · rintro ⟨c, hc, hu⟩
    cases hu
    exact ⟨rfl, hc⟩
  · rintro ⟨hexp, hc⟩
    exact ⟨u.coeff, hc, by rw [← hexp]; rfl⟩

/-- Lowering keeps the terms apart, so that no coefficients are ever added. -/
theorem derivative_eq_mapM (hp : p.Canonical) : p.derivative =
    (p.terms.filter (0 < ·.exponent)).mapM
      (fun t => do return ⟨t.exponent.lower, ← Coefficient.timesInt t.coeff t.exponent.val⟩) >>=
    fun us => .ok ⟨us.filter fun u => !Coefficient.isZero u.coeff⟩ := by
  have hlower : (([] : List (Term C)).map (·.exponent) ++
      (p.terms.filter (0 < ·.exponent)).map (·.exponent.lower)).Pairwise (· < ·) := by
    rw [List.map_nil, List.nil_append, List.pairwise_map]
    refine (hp.1.filter _).imp_of_mem fun hs _ hst => ?_
    have hpos : 0 < _ := of_decide_eq_true (List.mem_filter.1 hs).2
    exact Exponent.lower_lt_lower hpos hst
  exact foldlM_addTerm_ascending (fun t => Coefficient.timesInt t.coeff t.exponent.val) hlower

theorem derivative_eq_ok_iff (hp : p.Canonical) : p.derivative = .ok r ↔
    ∃ us, List.Forall₂ IsDerivative (p.terms.filter (0 < ·.exponent)) us ∧
      r = ⟨us.filter fun u => !Coefficient.isZero u.coeff⟩ := by
  rw [derivative_eq_mapM hp, bind_eq_ok_iff]
  simp only [mapM_eq_ok_iff, isDerivative_iff_eq_ok, Except.ok.injEq, eq_comm (b := r)]

theorem exists_of_derivative_eq_error (hp : p.Canonical) {f : Fault}
    (h : p.derivative = .error f) :
    ∃ t ∈ p.terms, Coefficient.timesInt t.coeff t.exponent.val = .error f := by
  rw [derivative_eq_mapM hp] at h
  rcases bind_eq_error_iff.1 h with h | ⟨_, -, h⟩
  · obtain ⟨t, ht, h⟩ := exists_of_mapM_eq_error h
    rcases bind_eq_error_iff.1 h with h | ⟨_, -, h⟩
    · exact ⟨t, (List.mem_filter.1 ht).1, h⟩
    · cases h
  · cases h

end Terms

end SparsePoly

variable {w : Nat}

/-- The factor that stands for an exponent among the words of `w` bits. -/
def embedded (w : Nat) (e : Exponent) : ℤ := (e.val : ℤ).bmod (2 ^ w)

private theorem embedded_eq_iff (hw : 0 < w) {e : Exponent} :
    embedded w e = e.val ↔ e.val < halfRange w := by
  have hval : (Signed.wrap e.val : Signed w).val = embedded w e := rfl
  constructor
  · intro h
    have hhigh := (Signed.wrap e.val : Signed w).fits.2
    rw [hval, h] at hhigh
    omega
  · intro h
    exact Signed.wrap_of_fits hw ⟨by omega, by omega⟩

namespace SparsePoly

variable {p r : SparsePoly (Signed w)}

private theorem isDerivative_iff {t u : Term (Signed w)} (hpos : 0 < t.exponent) :
    IsDerivative t u ↔
      u.exponent = t.exponent.lower ∧ embedded w t.exponent * t.coeff.val = u.coeff.val := by
  have hne : ¬ (t.exponent.val : ℤ) = 0 := by
    have hlt : 0 < t.exponent.val := hpos
    omega
  rw [IsDerivative, Coefficient.timesInt, if_neg hne, Signed.mul_def, Signed.checked_eq_ok_iff,
    mul_comm]
  rfl

theorem exists_isDerivative_iff {t : Term (Signed w)} (hpos : 0 < t.exponent) :
    (∃ u, IsDerivative t u) ↔ Fits w (embedded w t.exponent * t.coeff.val) := by
  simp only [isDerivative_iff hpos]
  constructor
  · rintro ⟨u, -, hu⟩
    exact hu ▸ u.coeff.fits
  · intro h
    exact ⟨⟨t.exponent.lower, ⟨_, h⟩⟩, rfl, rfl⟩

theorem exactSum_of_isDerivative {ts us : List (Term (Signed w))}
    (h : List.Forall₂ IsDerivative (ts.filter (0 < ·.exponent)) us) {e : Exponent} (he : 0 < e) :
    exactSum us e.lower = embedded w e * exactSum ts e := by
  induction ts generalizing us with
  | nil =>
    cases h
    simp
  | cons t ts ih =>
    rw [exactSum_cons]
    by_cases hpos : 0 < t.exponent
    · rw [List.filter_cons_of_pos (by simpa using hpos)] at h
      obtain ⟨u, us, hu, hus, rfl⟩ := List.forall₂_cons_left_iff.1 h
      obtain ⟨hexp, hcoeff⟩ := (isDerivative_iff hpos).1 hu
      rw [exactSum_cons, ih hus, hexp, ← hcoeff, mul_add]
      by_cases hte : t.exponent = e
      · rw [if_pos hte, if_pos (congrArg _ hte), hte]
      · rw [if_neg hte, if_neg (mt (Exponent.lower_inj hpos he).1 hte), mul_zero]
    · rw [List.filter_cons_of_neg (by simpa using hpos)] at h
      have hte : t.exponent ≠ e := fun hte => hpos (hte ▸ he)
      rw [if_neg hte, zero_add, ih h]

/-- The derivative returns exactly if the product of every coefficient with the factor for its
exponent is a word, and then it has these products as its coefficients and no other terms. -/
def DerivesBy (factor : Exponent → ℤ) (p : SparsePoly (Signed w)) : Prop :=
  ((∃ r, p.derivative = .ok r) ↔
    ∀ t ∈ p.terms, 0 < t.exponent → Fits w (factor t.exponent * t.coeff.val)) ∧
  ∀ r, p.derivative = .ok r →
    (∀ e, 0 < e → (r.coeff e.lower).val = factor e * (p.coeff e).val) ∧
      ∀ u ∈ r.terms, ∃ t ∈ p.terms, 0 < t.exponent ∧ u.exponent = t.exponent.lower

theorem derivesBy_embedded (hp : p.Canonical) : p.DerivesBy (embedded w) := by
  constructor
  · simp only [derivative_eq_ok_iff hp]
    rw [exists_comm]
    simp only [exists_and_left, exists_eq, and_true, exists_forall₂_iff, List.mem_filter,
      decide_eq_true_eq, and_imp]
    exact forall₂_congr fun t _ => forall_congr' exists_isDerivative_iff
  · intro r hr
    obtain ⟨us, hus, rfl⟩ := (derivative_eq_ok_iff hp).1 hr
    constructor
    · intro e he
      have hsum : ofTerms us = .ok _ := (foldlM_isDerivative hus zero).symm.trans hr
      rw [coeff_ofTerms hsum, exactSum_of_isDerivative hus he, exactSum_terms hp]
    · intro u hu
      have hmem : u.exponent ∈ us.map (·.exponent) :=
        List.mem_map_of_mem (List.mem_filter.1 hu).1
      rw [map_lower_of_isDerivative hus] at hmem
      obtain ⟨t, ht, hlower⟩ := List.mem_map.1 hmem
      obtain ⟨htp, hpos⟩ := List.mem_filter.1 ht
      exact ⟨t, htp, of_decide_eq_true hpos, hlower.symm⟩

theorem DerivesBy.congr {f g : Exponent → ℤ} (hfg : ∀ t ∈ p.terms, f t.exponent = g t.exponent)
    (h : p.DerivesBy f) : p.DerivesBy g := by
  obtain ⟨hreturn, hvalue⟩ := h
  refine ⟨hreturn.trans (forall₂_congr fun t ht => by rw [hfg t ht]), fun r hr => ?_⟩
  obtain ⟨hcoeff, hplace⟩ := hvalue r hr
  refine ⟨fun e he => ?_, hplace⟩
  rw [hcoeff e he]
  rcases mem_terms_or_coeff_eq_zero p e with hstored | hzero
  · exact congrArg (· * _) (hfg _ hstored)
  · rw [hzero, Signed.val_zero, mul_zero, mul_zero]

/-- The derivative is exact for words of 33 bits and more, and for polynomials whose exponents are
all held by the words.  In general the factor is what the embedding makes of the exponent, which is
another number for every exponent that is not held. -/
theorem derivative_exact (hw : 0 < w) (hp : p.Canonical) :
    (33 ≤ w → p.DerivesBy fun e => e.val) ∧
    ((∀ t ∈ p.terms, t.exponent.val < halfRange w) → p.DerivesBy fun e => e.val) ∧
    p.DerivesBy (embedded w) ∧
    ∀ e : Exponent, embedded w e = e.val ↔ e.val < halfRange w := by
  have hembedded := derivesBy_embedded hp
  refine ⟨fun hwide => ?_, fun hheld => ?_, hembedded, fun e => embedded_eq_iff hw⟩
  · exact hembedded.congr fun t _ => Signed.embedsExponents_reading hwide t.exponent
  · exact hembedded.congr fun t ht => (embedded_eq_iff hw).2 (hheld t ht)

/-- The highest exponent of all is exact among words of 64 bits, and among words of 32 bits the
highest one that they hold. -/
theorem derivative_exact_at_limits :
    let p : SparsePoly (Signed 64) :=
      ⟨[⟨0, ⟨5, by decide⟩⟩, ⟨4294967295, ⟨2147483648, by decide⟩⟩]⟩
    let q : SparsePoly (Signed 32) := ⟨[⟨2147483647, ⟨-1, by decide⟩⟩]⟩
    (∃ r, p.derivative = .ok r ∧ (r.coeff 4294967294).val = 9223372034707292160) ∧
      ∃ r, q.derivative = .ok r ∧ (r.coeff 2147483646).val = -2147483647 := by
  intro p q
  obtain ⟨hlong, -⟩ := derivative_exact (p := p) (by decide) (by decide)
  obtain ⟨-, hshort, -⟩ := derivative_exact (p := q) (by decide) (by decide)
  obtain ⟨hreturn, hvalue⟩ := hlong (by decide)
  obtain ⟨hreturn', hvalue'⟩ := hshort (by decide)
  obtain ⟨r, hr⟩ := hreturn.2 (by decide)
  obtain ⟨s, hs⟩ := hreturn'.2 (by decide)
  exact ⟨⟨r, hr, (hvalue r hr).1 4294967295 (by decide)⟩,
    ⟨s, hs, (hvalue' s hs).1 2147483647 (by decide)⟩⟩

/-- Among words of 32 bits the factor for the highest exponent is minus one, and the factor for the
lowest exponent that is not held is negative.  The first derivative returns although the exact
product is no word, and the second one is stopped although it is. -/
theorem derivative_wrapped_exponents :
    let p : SparsePoly (Signed 32) := ⟨[⟨4294967295, ⟨1, by decide⟩⟩]⟩
    let q : SparsePoly (Signed 32) := ⟨[⟨2147483648, ⟨-1, by decide⟩⟩]⟩
    p.Canonical ∧ p.derivative = .ok ⟨[⟨4294967294, ⟨-1, by decide⟩⟩]⟩ ∧
      ¬ Fits 32 (4294967295 * 1) ∧ (¬ p.DerivesBy fun e => e.val) ∧
    q.Canonical ∧ q.derivative = .error (.arithmetic .multiply) ∧
      Fits 32 (2147483648 * -1) ∧ ¬ q.DerivesBy fun e => e.val := by
  intro p q
  have hp : p.derivative = .ok ⟨[⟨4294967294, ⟨-1, by decide⟩⟩]⟩ := by decide
  have hq : q.derivative = .error (.arithmetic .multiply) := by decide
  refine ⟨by decide, hp, by decide, fun h => ?_, by decide, hq, by decide, fun h => ?_⟩
  · have hfits : Fits 32 (4294967295 * 1) := h.1.1 ⟨_, hp⟩ _ List.mem_cons_self (by decide)
    exact absurd hfits (by decide)
  · obtain ⟨r, hr⟩ := h.1.2 (by decide)
    cases hq.symm.trans hr

end SparsePoly

end Univariate
