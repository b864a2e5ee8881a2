import Univariate.Proofs.RepeatedSquaring
import Univariate.SparsePoly.Calculus
import Univariate.SparsePoly.Interpolation

/-! # Canonical form is kept by every operation

No law of the coefficients is used: a sum or a product may be any coefficient at all.  What keeps
the form is the test for zero in front of every insertion and behind every sum. -/

namespace Univariate

namespace SparsePoly

variable {C : Type} [Coefficient C] {p q r : SparsePoly C}

@[simp] theorem canonical_zero : (zero : SparsePoly C).Canonical := by simp [Canonical, zero]

theorem canonical_cons {s : Term C} {l : List (Term C)} :
    Canonical ⟨s :: l⟩ ↔ (∀ t ∈ l, s.exponent < t.exponent) ∧
      Coefficient.isZero s.coeff = false ∧ Canonical ⟨l⟩ := by
  simp only [Canonical, List.pairwise_cons, List.forall_mem_cons]
  constructor
  · rintro ⟨⟨hlt, hl⟩, hs, hz⟩
    exact ⟨hlt, hs, hl, hz⟩
  · rintro ⟨hlt, hs, hl, hz⟩
    exact ⟨⟨hlt, hl⟩, hs, hz⟩

theorem Canonical.sublist {l m : List (Term C)} (hm : Canonical ⟨m⟩) (h : l.Sublist m) :
    Canonical ⟨l⟩ :=
  ⟨hm.1.sublist h, fun t ht => hm.2 t (h.subset ht)⟩

private theorem exponent_of_mem_insertTerm {t u : Term C} {l m : List (Term C)}
    (h : insertTerm t l = .ok m) (hu : u ∈ m) :
    u.exponent = t.exponent ∨ ∃ s ∈ l, u.exponent = s.exponent := by
  induction l generalizing m with
  | nil =>
    cases h
    exact .inl (by rw [List.mem_singleton.1 hu])
  | cons s l ih =>
    rw [insertTerm] at h
    split at h
    · cases h
      rcases List.mem_cons.1 hu with rfl | hu
      · exact .inl rfl
      · exact .inr ⟨u, hu, rfl⟩
    split at h
    · obtain ⟨sum, -, h⟩ := bind_eq_ok_iff.1 h
      cases h
      split at hu
      · exact .inr ⟨u, List.mem_cons_of_mem _ hu, rfl⟩
      · rcases List.mem_cons.1 hu with rfl | hu
        · exact .inr ⟨s, List.mem_cons_self, rfl⟩
        · exact .inr ⟨u, List.mem_cons_of_mem _ hu, rfl⟩
    · obtain ⟨l', hl', h⟩ := bind_eq_ok_iff.1 h
      cases h
      rcases List.mem_cons.1 hu with rfl | hu
      · exact .inr ⟨u, List.mem_cons_self, rfl⟩
      · rcases ih hl' hu with he | ⟨v, hv, he⟩
        · exact .inl he
        · exact .inr ⟨v, List.mem_cons_of_mem _ hv, he⟩

theorem exponent_of_mem_addTerm {t u : Term C} (h : p.addTerm t = .ok q) (hu : u ∈ q.terms) :
    u.exponent = t.exponent ∨ ∃ s ∈ p.terms, u.exponent = s.exponent := by
  rw [addTerm] at h
  split at h
  · cases h
    exact .inr ⟨u, hu, rfl⟩
  · cases hi : insertTerm t p.terms with
    | error f =>
      rw [hi] at h
      cases h
    | ok l =>
      rw [hi] at h
      cases h
      exact exponent_of_mem_insertTerm hi hu

/-- A term cannot be added, since at its exponent a coefficient is stored that cannot be added to
its own. -/
def AdditionFault (p : SparsePoly C) (t : Term C) (f : Fault) : Prop :=
  ∃ s ∈ p.terms, s.exponent = t.exponent ∧ Coefficient.add s.coeff t.coeff = .error f

private theorem additionFault_of_insertTerm {t : Term C} {l : List (Term C)} {f : Fault}
    (h : insertTerm t l = .error f) : AdditionFault ⟨l⟩ t f := by
  induction l with
  | nil => cases h
  | cons s l ih =>
    rw [insertTerm] at h
    split at h
    · cases h
    split at h
    · rename_i hexponent
      rcases bind_eq_error_iff.1 h with hadd | ⟨sum, -, h⟩
      · exact ⟨s, List.mem_cons_self, hexponent.symm, hadd⟩
      · cases h
    · rcases bind_eq_error_iff.1 h with h | ⟨l', -, h⟩
      · obtain ⟨u, hu, hadd⟩ := ih h
        exact ⟨u, List.mem_cons_of_mem _ hu, hadd⟩
      · cases h

theorem additionFault_of_addTerm {t : Term C} {f : Fault} (h : p.addTerm t = .error f) :
    p.AdditionFault t f := by
  rw [addTerm] at h
  split at h
  · cases h
  · cases hinsert : insertTerm t p.terms with
    | ok l =>
      rw [hinsert] at h
      cases h
    | error g =>
      rw [hinsert] at h
      cases h
      exact additionFault_of_insertTerm hinsert

theorem Canonical.insertTerm {t : Term C} {l m : List (Term C)} (hl : Canonical ⟨l⟩)
    (ht : Coefficient.isZero t.coeff = false) (h : insertTerm t l = .ok m) : Canonical ⟨m⟩ := by
  induction l generalizing m with
  | nil =>
    cases h
    exact canonical_cons.2 ⟨by simp, ht, hl⟩
  | cons s l ih =>
    obtain ⟨hlt, hs, hrest⟩ := canonical_cons.1 hl
    rw [SparsePoly.insertTerm] at h
    split at h
    · rename_i hts
      cases h
      refine canonical_cons.2 ⟨?_, ht, hl⟩
      intro u hu
      rcases List.mem_cons.1 hu with rfl | hu
      · exact hts
      · exact Fin.lt_trans hts (hlt u hu)
    split at h
    · obtain ⟨sum, -, h⟩ := bind_eq_ok_iff.1 h
      cases h
      split
      · exact hrest
      · rename_i hsum
        exact canonical_cons.2 ⟨hlt, Bool.eq_false_iff.2 hsum, hrest⟩
    · rename_i hts hne
      have hst : s.exponent < t.exponent :=
        Nat.lt_of_le_of_ne (Fin.not_lt.1 hts) fun he => hne (Fin.ext he.symm)
      obtain ⟨l', hl', h⟩ := bind_eq_ok_iff.1 h
      cases h
      refine canonical_cons.2 ⟨?_, hs, ih hrest hl'⟩
      intro u hu
      rcases exponent_of_mem_insertTerm hl' hu with he | ⟨v, hv, he⟩
      · exact he ▸ hst
      · exact he ▸ hlt v hv

theorem Canonical.addTerm {t : Term C} (hp : p.Canonical) (h : p.addTerm t = .ok q) :
    q.Canonical := by
  rw [SparsePoly.addTerm] at h
  split at h
  · cases h
    exact hp
  · rename_i ht
    obtain ⟨l, hl, rfl⟩ : ∃ l, SparsePoly.insertTerm t p.terms = .ok l ∧ q = ⟨l⟩ := by
      cases hi : SparsePoly.insertTerm t p.terms with
      | error f => simp [hi, Except.map] at h
      | ok l =>
        rw [hi] at h
        cases h
        exact ⟨l, rfl, rfl⟩
    exact Canonical.insertTerm hp (Bool.eq_false_iff.2 ht) hl

theorem Canonical.addTerms {ts : List (Term C)} (hp : p.Canonical) (h : p.addTerms ts = .ok q) :
    q.Canonical :=
  foldlM_keeps (fun _ _ _ _ => Canonical.addTerm) hp h

theorem canonical_monomial (c : C) (n : Exponent) : (monomial c n).Canonical := by
  rw [monomial]
  split
  · exact canonical_zero
  · rename_i hc
    exact canonical_cons.2 ⟨by simp, Bool.eq_false_iff.2 hc, canonical_zero⟩

theorem canonical_constant (c : C) : (constant c).Canonical := canonical_monomial c 0

theorem canonical_ofTerms {ts : List (Term C)} (h : ofTerms ts = .ok p) : p.Canonical :=
  canonical_zero.addTerms h

theorem canonical_ofCoeffs {cs : List C} (h : ofCoeffs cs = .ok p) : p.Canonical := by
  rw [ofCoeffs] at h
  split at h
  · exact canonical_ofTerms h
  · cases h

theorem Canonical.addScalar {c : C} (hp : p.Canonical) (h : p.addScalar c = .ok q) :
    q.Canonical :=
  hp.addTerm h

theorem canonical_scale {c : C} (h : p.scale c = .ok q) : q.Canonical := by
  rw [scale] at h
  split at h
  · cases h
    exact canonical_zero
  · apply foldlM_keeps _ canonical_zero h
    intro b d t _ hb hd
    obtain ⟨x, -, hd⟩ := bind_eq_ok_iff.1 hd
    exact hb.addTerm hd

theorem Canonical.sub (hp : p.Canonical) (h : p.sub q = .ok r) : r.Canonical := by
  obtain ⟨n, -, h⟩ := bind_eq_ok_iff.1 h
  exact hp.addTerms h

theorem Canonical.subScalar {c : C} (hp : p.Canonical) (h : p.subScalar c = .ok q) :
    q.Canonical := by
  obtain ⟨n, -, h⟩ := bind_eq_ok_iff.1 h
  exact hp.addTerm h

theorem Canonical.addProduct {s t : Term C} (hp : p.Canonical) (h : p.addProduct s t = .ok q) :
    q.Canonical := by
  obtain ⟨e, -, h⟩ := bind_eq_ok_iff.1 h
  obtain ⟨c, -, h⟩ := bind_eq_ok_iff.1 (attempt_eq_ok_iff.1 h)
  exact hp.addTerm h

theorem canonical_tryMul (h : p.tryMul q = .ok r) : r.Canonical :=
  foldlM_keeps (fun _ _ _ _ => Canonical.addProduct) canonical_zero h

theorem canonical_tryMulMonomial {c : C} {n : Exponent} (h : p.tryMulMonomial c n = .ok q) :
    q.Canonical := by
  rw [tryMulMonomial] at h
  split at h
  · cases h
    exact canonical_zero
  · exact foldlM_keeps (fun _ _ _ _ => Canonical.addProduct) canonical_zero h

theorem Canonical.tryShift {n : Exponent} (hp : p.Canonical) (h : p.tryShift n = .ok q) :
    q.Canonical := by
  rw [SparsePoly.tryShift] at h
  split at h
  · cases h
    exact hp
  · exact canonical_tryMulMonomial h

theorem Canonical.tryPow {n : Nat} (hp : p.Canonical) (h : p.tryPow n = .ok q) :
    q.Canonical := by
  rw [SparsePoly.tryPow] at h
  split at h
  · cases h
    exact canonical_constant _
  split at h
  · cases h
    exact hp
  · exact binaryPower_keeps (fun _ _ _ _ _ => canonical_tryMul) (canonical_constant _) hp h

theorem canonical_derivative (h : p.derivative = .ok q) : q.Canonical := by
  apply foldlM_keeps _ canonical_zero h
  intro b d t _ hb hd
  obtain ⟨x, -, hd⟩ := bind_eq_ok_iff.1 hd
  exact hb.addTerm hd

theorem Canonical.nthDerivative {n : Nat} (hp : p.Canonical) (h : p.nthDerivative n = .ok q) :
    q.Canonical := by
  induction n generalizing p with
  | zero =>
    cases h
    exact hp
  | succ n ih =>
    rw [SparsePoly.nthDerivative] at h
    split at h
    · cases h
      exact hp
    · obtain ⟨d, hd, h⟩ := bind_eq_ok_iff.1 h
      exact ih (canonical_derivative hd) h

end SparsePoly

/-- Both polynomials of the state are kept canonical from one sample to the next. -/
theorem SparsePoly.canonical_interpolateFrom {C : Type} [FieldCoefficient C] {start : C}
    {samples : List C} {p : SparsePoly C} (h : interpolateFrom start samples = .ok p) :
    p.Canonical := by
  obtain ⟨s, hs, h⟩ := bind_eq_ok_iff.1 h
  cases h
  refine (foldlM_keeps (P := fun s : Newton C => s.fit.Canonical ∧ s.basis.Canonical) ?_
    ⟨canonical_zero, canonical_constant _⟩ hs).1
  intro s s' y _ hcan hstep
  obtain ⟨_, _, _, _, _, _, _, -, -, -, -, -, hfit, -, -, hbasis, -⟩ :=
    Newton.step_eq_ok_iff.1 hstep
  exact ⟨hcan.1.addTerms hfit, canonical_tryMul (mul_eq_ok_iff.1 hbasis)⟩

end Univariate
