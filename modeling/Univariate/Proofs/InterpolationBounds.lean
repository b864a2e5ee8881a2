import Univariate.Coefficient.Floating
import Univariate.Proofs.CanonicalForm

/-! # The exponents of an interpolation

No law of the coefficients is used, so any rounding is covered: a coefficient may vanish, become
infinite or be no number at all.  A step multiplies the basis by a factor of degree one at most, and
adds a multiple of the basis to the fit.  So behind `k` samples the basis has no exponent above `k`
and the fit none from `k` on, and no step needs a sum of exponents that is out of range. -/

namespace Univariate

inductive CoefficientFault (C : Type) [FieldCoefficient C] : Fault → Prop
  | add {x y : C} {f : Fault} (h : Coefficient.add x y = .error f) : CoefficientFault C f
  | sub {x y : C} {f : Fault} (h : Coefficient.sub x y = .error f) : CoefficientFault C f
  | mul {x y : C} {f : Fault} (h : Coefficient.mul x y = .error f) : CoefficientFault C f
  | neg {x : C} {f : Fault} (h : Coefficient.neg x = .error f) : CoefficientFault C f
  | div {x y : C} {f : Fault} (h : FieldCoefficient.div x y = .error f) : CoefficientFault C f

theorem not_coefficientFault_double (f : Fault) : ¬ CoefficientFault Float f := by
  rintro (h | h | h | h | h) <;> cases h

theorem not_coefficientFault_single (f : Fault) : ¬ CoefficientFault Float32 f := by
  rintro (h | h | h | h | h) <;> cases h

private theorem ends_of_fault {ε α : Type} {Q : ε → Prop} {x : Except ε α}
    (h : ∀ {e}, x = .error e → Q e) : Ends (fun _ => True) Q x :=
  ends_iff.2 ⟨fun _ _ => trivial, fun _ => h⟩

section Ends

variable {α : Type} {P : α → Prop} {Q : Fault → Prop}

private theorem attempt_ends {ε : Type} {x : Except Fault α} (h : Ends P Q x) :
    Ends P (fun e => ∃ f, e = .stopped f ∧ Q f) (attempt (ε := ε) x) := by
  cases x with
  | ok a => exact h
  | error f => exact ⟨f, rfl, h⟩

theorem SparsePoly.orStop_ends {x : SparsePoly.ExponentChecked α}
    (h : Ends P (fun e => ∃ f, e = .stopped f ∧ Q f) x) : Ends P Q (SparsePoly.orStop x) := by
  cases x with
  | ok a => exact h
  | error e =>
    obtain ⟨f, rfl, hf⟩ := h
    exact hf

end Ends

namespace SparsePoly

variable {C : Type} [FieldCoefficient C] {p q : SparsePoly C} {t : Term C} {m n : Nat}

omit [FieldCoefficient C] in
def Below (n : Nat) (p : SparsePoly C) : Prop := ∀ t ∈ p.terms, t.exponent.val < n

omit [FieldCoefficient C] in
@[simp] theorem below_zero (n : Nat) : (zero : SparsePoly C).Below n := by simp [Below, zero]

omit [FieldCoefficient C] in
theorem Below.mono (hp : p.Below m) (h : m ≤ n) : p.Below n := fun t ht =>
  Nat.lt_of_lt_of_le (hp t ht) h

theorem below_constant (c : C) : (constant c).Below 1 := by
  rw [constant, monomial]
  split <;> simp [Below]

theorem addTerm_ends (hp : p.Below n) (ht : t.exponent.val < n) :
    Ends (Below n) (CoefficientFault C) (p.addTerm t) := by
  refine ends_iff.2 ⟨fun q hq u hu => ?_, fun f hf => ?_⟩
  · rcases exponent_of_mem_addTerm hq hu with he | ⟨s, hs, he⟩
    · rwa [he]
    · rw [he]
      exact hp s hs
  · obtain ⟨s, -, -, hadd⟩ := additionFault_of_addTerm hf
    exact .add hadd

theorem addTerms_ends (hp : p.Below n) {ts : List (Term C)} (hts : ∀ t ∈ ts, t.exponent.val < n) :
    Ends (Below n) (CoefficientFault C) (p.addTerms ts) :=
  foldlM_ends (fun _ t ht hq => addTerm_ends hq (hts t ht)) hp

theorem ofCoeffs_ends {cs : List C} (h : cs.length < 4294967295) :
    Ends (Below cs.length) (CoefficientFault C) (ofCoeffs cs) := by
  rw [ofCoeffs, dif_pos h]
  apply addTerms_ends (below_zero _)
  intro t ht
  obtain ⟨i, hi, rfl⟩ := List.mem_mapFinIdx.1 ht
  exact hi

theorem scale_ends (hp : p.Below n) (c : C) :
    Ends (Below n) (CoefficientFault C) (p.scale c) := by
  rw [scale]
  split
  · exact below_zero n
  · refine foldlM_ends (fun sum t ht hsum => ?_) (below_zero n)
    exact (ends_of_fault .mul).bind fun _ _ => addTerm_ends hsum (hp t ht)

theorem pow_ends (x : C) (k : Nat) :
    Ends (fun _ => True) (CoefficientFault C) (Coefficient.pow x k) :=
  binaryPower_ends (A := fun _ _ => True) (B := fun _ _ => True)
    (fun _ _ _ _ _ _ _ => ends_of_fault .mul) (fun _ _ _ _ => ends_of_fault .mul) trivial trivial

theorem eval_ends (p : SparsePoly C) (x : C) :
    Ends (fun _ => True) (CoefficientFault C) (p.eval x) := by
  refine foldlM_ends (fun sum t _ _ => ?_) trivial
  exact (pow_ends x _).bind fun _ _ => (ends_of_fault .mul).bind fun _ _ => ends_of_fault .add

/-- The exponents of every pair have a sum, and it is below the sum of the bounds. -/
theorem mul_ends (hp : p.Below (m + 1)) (hq : q.Below (n + 1)) (hmn : m + n < 2 ^ 32) :
    Ends (Below (m + n + 1)) (CoefficientFault C) (p.mul q) := by
  apply orStop_ends
  refine foldlM_ends (fun sum pair hpair hsum => ?_) (below_zero _)
  obtain ⟨hs, ht⟩ := mem_termPairs.1 hpair
  have hs := hp _ hs
  have ht := hq _ ht
  let e : Exponent := ⟨pair.1.exponent.val + pair.2.exponent.val, by omega⟩
  have he : e.val < m + n + 1 := by
    simp only [e]
    omega
  rw [addProduct_of_add_eq (e := e) rfl]
  exact attempt_ends ((ends_of_fault .mul).bind fun _ _ => addTerm_ends hsum he)

/-- Behind `k` samples the basis has exponents up to `k`, and those of the fit are lower. -/
structure Newton.Bounded (k : Nat) (s : Newton C) : Prop where
  fit : s.fit.Below k
  basis : s.basis.Below (k + 1)

theorem Newton.bounded_start (node : C) : Newton.Bounded 0 (Newton.start node) :=
  ⟨below_zero 0, below_constant _⟩

theorem Newton.Bounded.step_ends {k : Nat} {s : Newton C} (h : s.Bounded k) (hk : k + 1 < 2 ^ 32)
    (y : C) : Ends (Newton.Bounded (k + 1)) (CoefficientFault C) (s.step y) := by
  rw [Newton.step]
  refine (eval_ends _ _).bind fun value _ => (ends_of_fault .sub).bind fun residual _ => ?_
  refine (eval_ends _ _).bind fun divisor _ => (ends_of_fault .div).bind fun multiple _ => ?_
  refine (scale_ends h.basis multiple).bind fun scaled hscaled => ?_
  refine (addTerms_ends (h.fit.mono k.le_succ) hscaled).bind fun fit hfit => ?_
  refine (ends_of_fault .neg).bind fun root _ => ?_
  refine (ofCoeffs_ends (by simp)).bind fun factor hfactor => ?_
  refine (mul_ends h.basis hfactor hk).bind fun basis hbasis => ?_
  exact (ends_of_fault .add).bind fun node _ => ⟨hfit, hbasis⟩

theorem Newton.Bounded.run_ends {k : Nat} {s : Newton C} (h : s.Bounded k) (samples : List C)
    (hk : k + samples.length < 2 ^ 32) :
    Ends (Newton.Bounded (k + samples.length)) (CoefficientFault C)
      (samples.foldlM Newton.step s) := by
  induction samples generalizing k s with
  | nil => exact h
  | cons y samples ih =>
    have hlength : k + (y :: samples).length = k + 1 + samples.length := by
      rw [List.length_cons]
      omega
    rw [hlength] at hk ⊢
    rw [List.foldlM_cons]
    exact (h.step_ends (by omega) y).bind fun s' h' => ih h' hk

theorem Newton.samples_ends (start : C) (samples : List C) (h : samples.length < 2 ^ 32) :
    Ends (Newton.Bounded samples.length) (CoefficientFault C)
      (samples.foldlM Newton.step (Newton.start start)) := by
  have hrun := (Newton.bounded_start start).run_ends samples (by omega)
  rwa [Nat.zero_add] at hrun

/-- Whatever the operations on coefficients do, nothing else stops an interpolation; its exponents
are below the number of samples, and behind each sample those of the basis are at most the number of
samples taken. -/
theorem interpolateFrom_below_length (start : C) (samples : List C)
    (hlength : samples.length < 2 ^ 32) :
    (∀ f, interpolateFrom start samples = .error f → CoefficientFault C f) ∧
    ((∀ f, ¬ CoefficientFault C f) → ∃ p, interpolateFrom start samples = .ok p) ∧
    (∀ p, interpolateFrom start samples = .ok p →
      ∀ t ∈ p.terms, t.exponent.val < samples.length) ∧
    ∀ done todo s, samples = done ++ todo →
      done.foldlM Newton.step (Newton.start start) = .ok s →
        ∀ t ∈ s.basis.terms, t.exponent.val ≤ done.length := by
  have hends : Ends (Below samples.length) (CoefficientFault C) (interpolateFrom start samples) :=
    (Newton.samples_ends start samples hlength).bind fun s h => h.fit
  obtain ⟨hbelow, hfault⟩ := ends_iff.1 hends
  refine ⟨hfault, fun htotal => ?_, hbelow, ?_⟩
  · cases h : interpolateFrom start samples with
    | ok p => exact ⟨p, rfl⟩
    | error f => exact absurd (hfault f h) (htotal f)
  · rintro done todo s rfl hs t ht
    rw [List.length_append] at hlength
    have hdone := (ends_iff.1 (Newton.samples_ends start done (by omega))).1 s hs
    exact Nat.le_of_lt_succ (hdone.basis t ht)

/-- Samples that are no number or infinite, at nodes that are not told apart. -/
theorem interpolateFrom_below_length_infinite :
    (∃ p, interpolateFrom (1 / 0 : Float) [0 / 0, 1 / 0, 3] = .ok p ∧
      ∀ t ∈ p.terms, t.exponent.val < 3) ∧
    ∃ p, interpolateFrom (1 / 0 : Float32) [0 / 0, 1 / 0, 3] = .ok p ∧
      ∀ t ∈ p.terms, t.exponent.val < 3 := by
  constructor
  · obtain ⟨-, hreturn, hbelow, -⟩ :=
      interpolateFrom_below_length (1 / 0 : Float) [0 / 0, 1 / 0, 3] (by simp)
    obtain ⟨p, hp⟩ := hreturn not_coefficientFault_double
    exact ⟨p, hp, hbelow p hp⟩
  · obtain ⟨-, hreturn, hbelow, -⟩ :=
      interpolateFrom_below_length (1 / 0 : Float32) [0 / 0, 1 / 0, 3] (by simp)
    obtain ⟨p, hp⟩ := hreturn not_coefficientFault_single
    exact ⟨p, hp, hbelow p hp⟩

end SparsePoly

end Univariate
