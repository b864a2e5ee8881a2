import Univariate.Proofs.ExactReading
import Univariate.Proofs.RunningSums
import Univariate.SparsePoly.Arithmetic

/-! # Sums, multiples and differences of coefficients

A sum has the exact sums of the coefficients, and it is stopped exactly if one of them is no word;
the same holds of multiples and of negatives.  A difference is the sum with a negative.  The
negative of the least word is no word, so this word cannot be subtracted, even from a negative one
where the difference would be a word again. -/

namespace Univariate.SparsePoly

variable {w : Nat} {p q r s : SparsePoly (Signed w)}

/-- A computation returns the exact coefficients, or it is stopped by `operation` because one of
them is no word. -/
def Computes (operation : Operation) (exact : Exponent → ℤ)
    (x : Except Fault (SparsePoly (Signed w))) : Prop :=
  Ends (fun r => ∀ e, (r.coeff e).val = exact e)
    (fun f => f = .arithmetic operation ∧ ∃ e, ¬ Fits w (exact e)) x

theorem Computes.coeff_eq {operation : Operation} {exact : Exponent → ℤ}
    {x : Except Fault (SparsePoly (Signed w))} (h : Computes operation exact x) :
    ∀ r, x = .ok r → ∀ e, (r.coeff e).val = exact e :=
  (ends_iff.1 h).1

theorem Computes.eq_error_iff {operation : Operation} {exact : Exponent → ℤ}
    {x : Except Fault (SparsePoly (Signed w))} (h : Computes operation exact x) (f : Fault) :
    x = .error f ↔ f = .arithmetic operation ∧ ∃ e, ¬ Fits w (exact e) := by
  constructor
  · exact (ends_iff.1 h).2 f
  · rintro ⟨rfl, e, he⟩
    cases hx : x with
    | ok r => exact absurd (h.coeff_eq r hx e ▸ (r.coeff e).fits) he
    | error g => rw [((ends_iff.1 h).2 g hx).1]

/-- On the way to a sum each coefficient is the old one or the new one. -/
private theorem exactSum_take_terms (hq : q.Canonical) (n : ℕ) (e : Exponent) :
    exactSum (q.terms.take n) e = 0 ∨ exactSum (q.terms.take n) e = (q.coeff e).val := by
  have htake : Canonical ⟨q.terms.take n⟩ := hq.sublist (List.take_sublist n q.terms)
  rw [exactSum_terms htake]
  rcases mem_terms_or_coeff_eq_zero (⟨q.terms.take n⟩ : SparsePoly (Signed w)) e with hmem | hzero
  · exact .inr (congrArg Signed.val (hq.coeff_of_mem (List.mem_of_mem_take hmem)).symm)
  · exact .inl (congrArg Signed.val hzero)

theorem computes_add (hp : p.Canonical) (hq : q.Canonical) :
    Computes .add (fun e => (p.coeff e).val + (q.coeff e).val) (p.add q) := by
  by_cases h : ∀ e, Fits w ((p.coeff e).val + (q.coeff e).val)
  · have hway : ∀ n e, Fits w ((p.coeff e).val + exactSum (q.terms.take n) e) := by
      intro n e
      rcases exactSum_take_terms hq n e with hold | hnew
      · rw [hold, add_zero]
        exact (p.coeff e).fits
      · rw [hnew]
        exact h e
    obtain ⟨r, hr, hcoeff⟩ := addTerms_eq_ok hp hway
    rw [add, hr]
    intro e
    rw [hcoeff, exactSum_terms hq]
  · push Not at h
    obtain ⟨e, he⟩ := h
    have hlast : ¬ Fits w ((p.coeff e).val + exactSum (q.terms.take q.terms.length) e) := by
      rwa [List.take_length, exactSum_terms hq]
    rw [add, addTerms_eq_error hp hlast]
    exact ⟨rfl, e, he⟩

/-- No two products meet, so nothing but a product can fail. -/
private theorem scale_eq_mapM {C : Type} [Coefficient C] {p : SparsePoly C} (hp : p.Canonical)
    {c : C}
    (hc : Coefficient.isZero c = false) : p.scale c =
      p.terms.mapM (fun t => do return ⟨t.exponent, ← Coefficient.mul t.coeff c⟩) >>= fun ts =>
        .ok ⟨ts.filter fun t => !Coefficient.isZero t.coeff⟩ := by
  have hascending : (([] : List (Term C)).map (·.exponent) ++
      p.terms.map (·.exponent)).Pairwise (· < ·) := by
    rw [List.map_nil, List.nil_append, List.pairwise_map]
    exact hp.1
  rw [scale, hc]
  exact foldlM_addTerm_ascending (fun t => Coefficient.mul t.coeff c) hascending

theorem coeff_scale (hw : 2 ≤ w) (hp : p.Canonical) {c : Signed w} (h : p.scale c = .ok r)
    (e : Exponent) : (r.coeff e).val = (p.coeff e).val * c.val := by
  have hr := (Signed.reading hw).coeff_polynomial (canonical_scale h) e
  rw [ExactReading.polynomial_scale _ h, Polynomial.coeff_mul_C,
    ExactReading.coeff_polynomial _ hp] at hr
  exact hr.symm

theorem computes_scale (hw : 2 ≤ w) (hp : p.Canonical) (c : Signed w) :
    Computes .multiply (fun e => (p.coeff e).val * c.val) (p.scale c) := by
  refine ends_iff.2 ⟨fun r hr => coeff_scale hw hp hr, fun f hf => ?_⟩
  have hc : Coefficient.isZero c = false := by
    by_contra hzero
    rw [scale, if_pos (Bool.eq_true_of_not_eq_false hzero)] at hf
    cases hf
  rw [scale_eq_mapM hp hc] at hf
  rcases bind_eq_error_iff.1 hf with hf | ⟨_, -, hf⟩
  · obtain ⟨t, ht, hf⟩ := exists_of_mapM_eq_error hf
    rcases bind_eq_error_iff.1 hf with hf | ⟨_, -, hf⟩
    · obtain ⟨hfits, rfl⟩ := Signed.checked_eq_error_iff.1 hf
      rw [← hp.coeff_of_mem ht] at hfits
      exact ⟨rfl, t.exponent, hfits⟩
    · cases hf
  · cases hf

private theorem fits_neg_iff {x : Signed w} : Fits w (-x.val) ↔ x ≠ Signed.least := by
  have hpos := halfRange_pos w
  obtain ⟨hlow, hhigh⟩ := x.fits
  rw [Fits, ne_eq, Signed.ext_iff, Signed.least]
  dsimp only
  omega

theorem computes_neg (hw : 2 ≤ w) (hp : p.Canonical) :
    Computes .multiply (fun e => -(p.coeff e).val) p.neg := by
  have h := computes_scale hw hp (Coefficient.ofInt (-1))
  simp only [Signed.val_ofInt_neg_one hw, mul_neg_one] at h
  exact h

/-- Sums, multiples and negatives have the exact coefficients, and they are refused if and only if
one of these is no word.  Of the negatives only that of the least word is none. -/
theorem sum_multiple_negative_exact (hw : 2 ≤ w) (hp : p.Canonical) (hq : q.Canonical)
    (c : Signed w) :
    ((∀ f, p.add q = .error f ↔
        f = .arithmetic .add ∧ ∃ e, ¬ Fits w ((p.coeff e).val + (q.coeff e).val)) ∧
      ∀ r, p.add q = .ok r → ∀ e, (r.coeff e).val = (p.coeff e).val + (q.coeff e).val) ∧
    ((∀ f, p.scale c = .error f ↔
        f = .arithmetic .multiply ∧ ∃ e, ¬ Fits w (c.val * (p.coeff e).val)) ∧
      ∀ r, p.scale c = .ok r → ∀ e, (r.coeff e).val = c.val * (p.coeff e).val) ∧
    (∀ f, p.neg = .error f ↔ f = .arithmetic .multiply ∧ ∃ e, p.coeff e = Signed.least) ∧
      ∀ r, p.neg = .ok r → ∀ e, (r.coeff e).val = -(p.coeff e).val := by
  have hadd := computes_add hp hq
  have hscale := computes_scale hw hp c
  have hneg := computes_neg hw hp
  simp only [mul_comm _ c.val] at hscale
  refine ⟨⟨hadd.eq_error_iff, hadd.coeff_eq⟩, ⟨hscale.eq_error_iff, hscale.coeff_eq⟩, ?_,
    hneg.coeff_eq⟩
  intro f
  simp only [hneg.eq_error_iff, fits_neg_iff, ne_eq, not_not]

/-- The sum is the largest word, and its other place is freed; one more is refused.  The multiple is
the least word, of which neither the same multiple nor the negative is a word. -/
theorem sum_multiple_negative_exact_at_limits :
    let p : SparsePoly (Signed 32) := ⟨[⟨0, ⟨1073741824, by decide⟩⟩, ⟨7, ⟨-5, by decide⟩⟩]⟩
    let q : SparsePoly (Signed 32) := ⟨[⟨0, ⟨1073741823, by decide⟩⟩, ⟨7, ⟨5, by decide⟩⟩]⟩
    let c : Signed 32 := ⟨-2, by decide⟩
    let s : SparsePoly (Signed 32) := ⟨[⟨0, Signed.least⟩, ⟨7, ⟨10, by decide⟩⟩]⟩
    (∃ r, p.add q = .ok r ∧ r.size = 1 ∧ (r.coeff 0).val = 2147483647) ∧
      p.add p = .error (.arithmetic .add) ∧ p.scale c = .ok s ∧ (s.coeff 0).val = -2147483648 ∧
      s.scale c = .error (.arithmetic .multiply) ∧ s.neg = .error (.arithmetic .multiply) := by
  intro p q c s
  have hp : p.Canonical := by decide
  obtain ⟨⟨-, hsum⟩, ⟨-, hmultiple⟩, -⟩ :=
    sum_multiple_negative_exact (q := q) (by decide) hp (by decide) c
  obtain ⟨⟨hdouble, -⟩, -⟩ := sum_multiple_negative_exact (by decide) hp hp c
  obtain ⟨-, ⟨hlarge, -⟩, hnegative, -⟩ :=
    sum_multiple_negative_exact (p := s) (by decide) (by decide) hp c
  have hr : p.add q = .ok ⟨[⟨0, ⟨2147483647, by decide⟩⟩]⟩ := by decide
  have hs : p.scale c = .ok s := by decide
  exact ⟨⟨_, hr, rfl, hsum _ hr 0⟩, (hdouble _).2 ⟨rfl, 0, by decide⟩, hs, hmultiple _ hs 0,
    (hlarge _).2 ⟨rfl, 0, by decide⟩, (hnegative _).2 ⟨rfl, 0, rfl⟩⟩

/-- The least word is not zero, so it is stored where it is a coefficient. -/
private theorem forall_fits_neg_iff (hq : q.Canonical) :
    (∀ e, Fits w (-(q.coeff e).val)) ↔ ∀ t ∈ q.terms, t.coeff ≠ Signed.least := by
  constructor
  · intro h t ht
    rw [← hq.coeff_of_mem ht]
    exact fits_neg_iff.1 (h t.exponent)
  · intro h e
    rcases mem_terms_or_coeff_eq_zero q e with hmem | hzero
    · exact fits_neg_iff.2 (h _ hmem)
    · rw [hzero, Signed.val_zero, neg_zero]
      exact Signed.fits_zero

/-- The negative is formed first, and nothing is left to add if it is refused. -/
theorem sub_ends (hw : 2 ≤ w) (hp : p.Canonical) (hq : q.Canonical) :
    Ends (fun r => (∀ t ∈ q.terms, t.coeff ≠ Signed.least) ∧
        ∀ e, (r.coeff e).val = (p.coeff e).val - (q.coeff e).val)
      (fun f => (f = .arithmetic .multiply ∧ ¬ ∀ t ∈ q.terms, t.coeff ≠ Signed.least) ∨
        (f = .arithmetic .add ∧ (∀ t ∈ q.terms, t.coeff ≠ Signed.least) ∧
          ∃ e, ¬ Fits w ((p.coeff e).val - (q.coeff e).val)))
      (p.sub q) := by
  have hneg := computes_neg hw hq
  rw [← forall_fits_neg_iff hq, sub]
  cases hn : q.neg with
  | error f =>
    rw [hn] at hneg
    obtain ⟨rfl, hfits⟩ := hneg
    exact .inl ⟨rfl, not_forall.2 hfits⟩
  | ok n =>
    rw [hn] at hneg
    have hcoeff : ∀ e, (n.coeff e).val = -(q.coeff e).val := hneg
    have hfits : ∀ e, Fits w (-(q.coeff e).val) := fun e => hcoeff e ▸ (n.coeff e).fits
    have hadd := computes_add hp (canonical_scale hn)
    simp only [hcoeff, ← sub_eq_add_neg] at hadd
    obtain ⟨hok, herror⟩ := ends_iff.1 hadd
    exact ends_iff.2 ⟨fun r hr => ⟨hfits, hok r hr⟩,
      fun f hf => .inr ⟨(herror f hf).1, hfits, (herror f hf).2⟩⟩

theorem coeff_sub (hw : 2 ≤ w) (hp : p.Canonical) (hq : q.Canonical) (h : p.sub q = .ok r)
    (e : Exponent) : (r.coeff e).val = (p.coeff e).val - (q.coeff e).val :=
  ((ends_iff.1 (sub_ends hw hp hq)).1 r h).2 e

theorem exists_sub_iff (hw : 2 ≤ w) (hp : p.Canonical) (hq : q.Canonical) :
    (∃ r, p.sub q = .ok r) ↔ (∀ t ∈ q.terms, t.coeff ≠ Signed.least) ∧
      ∀ e, Fits w ((p.coeff e).val - (q.coeff e).val) := by
  obtain ⟨hok, herror⟩ := ends_iff.1 (sub_ends hw hp hq)
  constructor
  · rintro ⟨r, hr⟩
    obtain ⟨hleast, hcoeff⟩ := hok r hr
    exact ⟨hleast, fun e => hcoeff e ▸ (r.coeff e).fits⟩
  · rintro ⟨hleast, hfits⟩
    cases h : p.sub q with
    | ok r => exact ⟨r, rfl⟩
    | error f =>
      rcases herror f h with ⟨-, hnot⟩ | ⟨-, -, e, he⟩
      · exact absurd hleast hnot
      · exact absurd (hfits e) he

theorem sub_of_least (hw : 2 ≤ w) (hp : p.Canonical) (hq : q.Canonical) {t : Term (Signed w)}
    (ht : t ∈ q.terms) (hleast : t.coeff = Signed.least) :
    p.sub q = .error (.arithmetic .multiply) := by
  obtain ⟨hok, herror⟩ := ends_iff.1 (sub_ends hw hp hq)
  cases h : p.sub q with
  | ok r => exact absurd hleast ((hok r h).1 t ht)
  | error f =>
    rcases herror f h with ⟨rfl, -⟩ | ⟨-, hnone, -⟩
    · rfl
    · exact absurd hleast (hnone t ht)

theorem sub_of_add (hw : 2 ≤ w) (hp : p.Canonical) (hq : q.Canonical) (h : p.add q = .ok s) :
    s.sub q = .ok p ↔ ∀ t ∈ q.terms, t.coeff ≠ Signed.least := by
  have hs : s.Canonical := hp.addTerms h
  have hback : ∀ e, (s.coeff e).val - (q.coeff e).val = (p.coeff e).val := fun e => by
    rw [coeff_add hp hq h, add_sub_cancel_right]
  constructor
  · intro hsub
    exact ((exists_sub_iff hw hs hq).1 ⟨p, hsub⟩).1
  · intro hleast
    obtain ⟨r, hr⟩ := (exists_sub_iff hw hs hq).2 ⟨hleast, fun e => hback e ▸ (p.coeff e).fits⟩
    have hrp : r = p := by
      apply (hs.sub hr).ext isZero_zero hp
      intro e
      rw [Signed.ext_iff, coeff_sub hw hs hq hr, hback]
    rw [hr, hrp]

/-- A difference that is returned is exact.  It is returned if and only if all its coefficients are
words and the right operand does not store the least word.  A polynomial that stores it is refused,
also by the sums that it is an operand of. -/
theorem sub_exact_unless_least (hw : 2 ≤ w) (hp : p.Canonical) (hq : q.Canonical) :
    ((∃ r, p.sub q = .ok r) ↔ (∀ t ∈ q.terms, t.coeff ≠ Signed.least) ∧
      ∀ e, Fits w ((p.coeff e).val - (q.coeff e).val)) ∧
    (∀ r, p.sub q = .ok r → ∀ e, (r.coeff e).val = (p.coeff e).val - (q.coeff e).val) ∧
    (∀ t ∈ q.terms, t.coeff = Signed.least → p.sub q = .error (.arithmetic .multiply)) ∧
    ∀ s, p.add q = .ok s → (s.sub q = .ok p ↔ ∀ t ∈ q.terms, t.coeff ≠ Signed.least) :=
  ⟨exists_sub_iff hw hp hq, fun _ => coeff_sub hw hp hq, fun _ => sub_of_least hw hp hq,
    fun _ => sub_of_add hw hp hq⟩

/-- The sum has lost its constant term, and its other term is next to the least word; the difference
brings back the largest word and the least one. -/
theorem sub_exact_unless_least_at_limits :
    let p : SparsePoly (Signed 32) := ⟨[⟨0, ⟨2147483647, by decide⟩⟩, ⟨1, Signed.least⟩]⟩
    let q : SparsePoly (Signed 32) := ⟨[⟨0, ⟨-2147483647, by decide⟩⟩, ⟨1, ⟨1, by decide⟩⟩]⟩
    ∃ s, p.add q = .ok s ∧ s.size = 1 ∧ s.sub q = .ok p := by
  intro p q
  obtain ⟨-, -, -, hback⟩ :=
    sub_exact_unless_least (p := p) (q := q) (by decide) (by decide) (by decide)
  have hsum : p.add q = .ok ⟨[⟨1, ⟨-2147483647, by decide⟩⟩]⟩ := by decide
  exact ⟨_, hsum, rfl, (hback _ hsum).2 (by decide)⟩

/-- The difference would be the largest word, and it is what the sum was formed from. -/
theorem sub_least_word_refused :
    let p : SparsePoly (Signed 32) := ⟨[⟨0, ⟨2147483647, by decide⟩⟩]⟩
    let q : SparsePoly (Signed 32) := ⟨[⟨0, Signed.least⟩]⟩
    let s : SparsePoly (Signed 32) := ⟨[⟨0, ⟨-1, by decide⟩⟩]⟩
    p.Canonical ∧ q.Canonical ∧ s.Canonical ∧ p.add q = .ok s ∧
      (∀ e, Fits 32 ((s.coeff e).val - (q.coeff e).val)) ∧
      s.sub q = .error (.arithmetic .multiply) := by
  intro p q s
  have hp : p.Canonical := by decide
  have hq : q.Canonical := by decide
  have hsum : p.add q = .ok s := by decide
  refine ⟨hp, hq, by decide, hsum, fun e => ?_, by decide⟩
  rw [coeff_add hp hq hsum, add_sub_cancel_right]
  exact (p.coeff e).fits

end Univariate.SparsePoly
