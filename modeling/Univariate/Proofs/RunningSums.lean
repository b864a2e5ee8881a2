import Mathlib.Algebra.BigOperators.Group.List.Basic
import Mathlib.Algebra.Ring.Int.Defs
import Mathlib.Data.List.Forall2
import Univariate.Coefficient.Signed
import Univariate.Proofs.StoredCoefficients

/-! # Running sums of signed words

Adding terms one after another keeps the exact sum at every exponent.  It is stopped exactly when
one of the sums on the way leaves the range of the words, even if a later term would bring it
back. -/

namespace Univariate

variable {w : Nat}

theorem exists_forall₂_iff {α β : Type} {R : α → β → Prop} {as : List α} :
    (∃ bs, List.Forall₂ R as bs) ↔ ∀ a ∈ as, ∃ b, R a b := by
  induction as with
  | nil => simp
  | cons a as ih =>
    rw [List.forall_mem_cons, ← ih]
    constructor
    · rintro ⟨_, _ | ⟨ha, has⟩⟩
      exact ⟨⟨_, ha⟩, _, has⟩
    · rintro ⟨⟨b, hb⟩, bs, hbs⟩
      exact ⟨b :: bs, .cons hb hbs⟩

section Traversal

variable {ε α β : Type} {f : α → Except ε β} {as : List α}

theorem mapM_eq_ok_iff {bs : List β} :
    as.mapM f = .ok bs ↔ List.Forall₂ (fun a b => f a = .ok b) as bs := by
  induction as generalizing bs with
  | nil => simp [pure, Except.pure, eq_comm]
  | cons a as ih =>
    rw [List.mapM_cons, bind_eq_ok_iff, List.forall₂_cons_left_iff]
    simp only [bind_eq_ok_iff, ih, pure, Except.pure, Except.ok.injEq]
    constructor
    · rintro ⟨b, hb, bs, hbs, rfl⟩
      exact ⟨b, bs, hb, hbs, rfl⟩
    · rintro ⟨b, bs, hb, hbs, rfl⟩
      exact ⟨b, hb, bs, hbs, rfl⟩

theorem exists_of_mapM_eq_error {e : ε} (h : as.mapM f = .error e) : ∃ a ∈ as, f a = .error e := by
  induction as with
  | nil => cases h
  | cons a as ih =>
    rw [List.mapM_cons] at h
    rcases bind_eq_error_iff.1 h with h | ⟨b, -, h⟩
    · exact ⟨a, List.mem_cons_self, h⟩
    rcases bind_eq_error_iff.1 h with h | ⟨bs, -, h⟩
    · obtain ⟨a', ha', he⟩ := ih h
      exact ⟨a', List.mem_cons_of_mem _ ha', he⟩
    · cases h

end Traversal

/-- The exact sum of the coefficients at an exponent. -/
def exactSum (ts : List (Term (Signed w))) (e : Exponent) : Int :=
  (ts.map fun t => if t.exponent = e then t.coeff.val else 0).sum

@[simp] theorem exactSum_nil (e : Exponent) : exactSum ([] : List (Term (Signed w))) e = 0 := rfl

@[simp] theorem exactSum_cons (t : Term (Signed w)) (ts : List (Term (Signed w))) (e : Exponent) :
    exactSum (t :: ts) e = (if t.exponent = e then t.coeff.val else 0) + exactSum ts e := by
  simp [exactSum]

private theorem exactSum_eq_zero {ts : List (Term (Signed w))} {e : Exponent}
    (h : ∀ t ∈ ts, t.exponent ≠ e) : exactSum ts e = 0 := by
  induction ts with
  | nil => rfl
  | cons t ts ih =>
    rw [exactSum_cons, if_neg (h t List.mem_cons_self), zero_add]
    exact ih fun u hu => h u (List.mem_cons_of_mem _ hu)

theorem exactSum_perm {ts us : List (Term (Signed w))} (h : ts.Perm us) (e : Exponent) :
    exactSum ts e = exactSum us e :=
  (h.map _).sum_eq

namespace SparsePoly

variable {p q : SparsePoly (Signed w)}

theorem isZero_zero : Coefficient.isZero (Coefficient.zero : Signed w) = true :=
  Signed.isZero_iff _ |>.2 rfl

/-- Whether the place is vacant or occupied, the exact sum at it decides. -/
theorem insertTerm_eq_ok {t : Term (Signed w)} {l : List (Term (Signed w))} (hl : Canonical ⟨l⟩)
    (h : Fits w ((coeff ⟨l⟩ t.exponent).val + t.coeff.val)) :
    ∃ m, insertTerm t l = .ok m ∧ ∀ e, (coeff ⟨m⟩ e).val =
      (coeff ⟨l⟩ e).val + if t.exponent = e then t.coeff.val else 0 := by
  by_cases hstored : ∃ s ∈ l, s.exponent = t.exponent
  · obtain ⟨s, hs, he⟩ := hstored
    have hcoeff : coeff ⟨l⟩ t.exponent = s.coeff := he ▸ hl.coeff_of_mem hs
    rw [hcoeff] at h
    have hadd : Coefficient.add s.coeff t.coeff = .ok ⟨s.coeff.val + t.coeff.val, h⟩ :=
      Signed.checked_eq_ok_iff.2 rfl
    obtain ⟨m, hm, hsum⟩ := insertTerm_occupied hl hs he hadd
    refine ⟨m, hm, fun e => ?_⟩
    rw [hsum]
    by_cases hte : t.exponent = e
    · rw [if_pos hte, if_pos hte, ← hte, hcoeff]
      split
      · rename_i hzero
        exact ((Signed.isZero_iff _).1 hzero).symm
      · rfl
    · rw [if_neg hte, if_neg hte, add_zero]
  · push Not at hstored
    obtain ⟨m, hm, hsum⟩ := insertTerm_vacant hstored
    refine ⟨m, hm, fun e => ?_⟩
    rw [hsum]
    by_cases hte : t.exponent = e
    · rw [if_pos hte, if_pos hte, ← hte, coeff_eq_zero_of_forall_ne hstored, Signed.val_zero,
        zero_add]
    · rw [if_neg hte, if_neg hte, add_zero]

private theorem insertTerm_eq_error {t : Term (Signed w)} {l : List (Term (Signed w))}
    (hl : Canonical ⟨l⟩) (h : ¬ Fits w ((coeff ⟨l⟩ t.exponent).val + t.coeff.val)) :
    insertTerm t l = .error (.arithmetic .add) := by
  by_cases hstored : ∃ s ∈ l, s.exponent = t.exponent
  · obtain ⟨s, hs, he⟩ := hstored
    have hcoeff : coeff ⟨l⟩ t.exponent = s.coeff := he ▸ hl.coeff_of_mem hs
    rw [hcoeff] at h
    exact insertTerm_occupied_error hl hs he (Signed.checked_eq_error_iff.2 ⟨h, rfl⟩)
  · push Not at hstored
    rw [coeff_eq_zero_of_forall_ne hstored, Signed.val_zero, zero_add] at h
    exact absurd t.coeff.fits h

private theorem addTerm_eq_error (hp : p.Canonical) {t : Term (Signed w)}
    (h : ¬ Fits w ((p.coeff t.exponent).val + t.coeff.val)) :
    p.addTerm t = .error (.arithmetic .add) := by
  rw [addTerm, insertTerm_eq_error hp h, if_neg]
  · rfl
  · intro hzero
    rw [(Signed.isZero_iff _).1 hzero, add_zero] at h
    exact h (p.coeff t.exponent).fits

theorem addTerm_eq_ok (hp : p.Canonical) {t : Term (Signed w)}
    (h : Fits w ((p.coeff t.exponent).val + t.coeff.val)) :
    ∃ q, p.addTerm t = .ok q ∧ ∀ e, (q.coeff e).val =
      (p.coeff e).val + if t.exponent = e then t.coeff.val else 0 := by
  rw [addTerm]
  split
  · rename_i hzero
    refine ⟨p, rfl, fun e => ?_⟩
    rw [(Signed.isZero_iff _).1 hzero, ite_self, add_zero]
  · obtain ⟨m, hm, hcoeff⟩ := insertTerm_eq_ok hp h
    exact ⟨⟨m⟩, by rw [hm]; rfl, hcoeff⟩

theorem addTerms_cons {C : Type} [Coefficient C] (p : SparsePoly C) (t : Term C)
    (ts : List (Term C)) : p.addTerms (t :: ts) = p.addTerm t >>= fun q => q.addTerms ts :=
  List.foldlM_cons

theorem addTerms_eq_ok (hp : p.Canonical) {ts : List (Term (Signed w))}
    (h : ∀ n e, Fits w ((p.coeff e).val + exactSum (ts.take n) e)) :
    ∃ q, p.addTerms ts = .ok q ∧ ∀ e, (q.coeff e).val = (p.coeff e).val + exactSum ts e := by
  induction ts generalizing p with
  | nil => exact ⟨p, rfl, fun e => by rw [exactSum_nil, add_zero]⟩
  | cons t ts ih =>
    have hfits : Fits w ((p.coeff t.exponent).val + t.coeff.val) := by simpa using h 1 t.exponent
    obtain ⟨q, hq, hcoeff⟩ := addTerm_eq_ok hp hfits
    have hrest : ∀ n e, Fits w ((q.coeff e).val + exactSum (ts.take n) e) := by
      intro n e
      rw [hcoeff, add_assoc, ← exactSum_cons, ← List.take_succ_cons]
      exact h (n + 1) e
    obtain ⟨r, hr, hsum⟩ := ih (hp.addTerm hq) hrest
    refine ⟨r, by rw [addTerms_cons, hq, ok_bind, hr], fun e => ?_⟩
    rw [hsum, hcoeff, exactSum_cons, add_assoc]

theorem addTerms_eq_error (hp : p.Canonical) {ts : List (Term (Signed w))} {n : Nat}
    {e : Exponent} (h : ¬ Fits w ((p.coeff e).val + exactSum (ts.take n) e)) :
    p.addTerms ts = .error (.arithmetic .add) := by
  -- If the first term is added, the sum that is out of range is that of a longer prefix.
  induction ts generalizing p n with
  | nil =>
    rw [List.take_nil, exactSum_nil, add_zero] at h
    exact absurd (p.coeff e).fits h
  | cons t ts ih =>
    by_cases hfits : Fits w ((p.coeff t.exponent).val + t.coeff.val)
    · obtain ⟨q, hq, hcoeff⟩ := addTerm_eq_ok hp hfits
      rw [addTerms_cons, hq, ok_bind]
      cases n with
      | zero =>
        rw [List.take_zero, exactSum_nil, add_zero] at h
        exact absurd (p.coeff e).fits h
      | succ n =>
        rw [List.take_succ_cons, exactSum_cons, ← add_assoc, ← hcoeff] at h
        exact ih (hp.addTerm hq) h
    · rw [addTerms_cons, addTerm_eq_error hp hfits, error_bind]

theorem coeff_addTerms (hp : p.Canonical) {ts : List (Term (Signed w))} (h : p.addTerms ts = .ok q)
    (e : Exponent) : (q.coeff e).val = (p.coeff e).val + exactSum ts e := by
  by_cases hfits : ∀ n e, Fits w ((p.coeff e).val + exactSum (ts.take n) e)
  · obtain ⟨r, hr, hcoeff⟩ := addTerms_eq_ok hp hfits
    cases h.symm.trans hr
    exact hcoeff e
  · push Not at hfits
    obtain ⟨n, e, hne⟩ := hfits
    cases h.symm.trans (addTerms_eq_error hp hne)

theorem ofTerms_eq_ok {ts : List (Term (Signed w))} (h : ∀ n e, Fits w (exactSum (ts.take n) e)) :
    ∃ p, ofTerms ts = .ok p ∧ ∀ e, (p.coeff e).val = exactSum ts e := by
  have hfits : ∀ n e, Fits w (((zero : SparsePoly (Signed w)).coeff e).val +
      exactSum (ts.take n) e) := by
    intro n e
    rw [zero, coeff_nil, Signed.val_zero, zero_add]
    exact h n e
  obtain ⟨p, hp, hcoeff⟩ := addTerms_eq_ok canonical_zero hfits
  refine ⟨p, hp, fun e => ?_⟩
  rw [hcoeff, zero, coeff_nil, Signed.val_zero, zero_add]

theorem ofTerms_eq_error {ts : List (Term (Signed w))} {n : Nat} {e : Exponent}
    (h : ¬ Fits w (exactSum (ts.take n) e)) : ofTerms ts = .error (.arithmetic .add) := by
  have hfits : ¬ Fits w (((zero : SparsePoly (Signed w)).coeff e).val +
      exactSum (ts.take n) e) := by
    rw [zero, coeff_nil, Signed.val_zero, zero_add]
    exact h
  exact addTerms_eq_error canonical_zero hfits

/-- The sum of a list of terms is stopped by the first prefix that is out of range somewhere. -/
theorem ofTerms_eq_error_iff {ts : List (Term (Signed w))} {f : Fault} :
    ofTerms ts = .error f ↔ f = .arithmetic .add ∧ ∃ n e, ¬ Fits w (exactSum (ts.take n) e) := by
  constructor
  · intro h
    by_cases hfits : ∀ n e, Fits w (exactSum (ts.take n) e)
    · obtain ⟨p, hp, -⟩ := ofTerms_eq_ok hfits
      cases h.symm.trans hp
    · push Not at hfits
      obtain ⟨n, e, hne⟩ := hfits
      cases h.symm.trans (ofTerms_eq_error hne)
      exact ⟨rfl, n, e, hne⟩
  · rintro ⟨rfl, n, e, hne⟩
    exact ofTerms_eq_error hne

theorem coeff_ofTerms {ts : List (Term (Signed w))} (h : ofTerms ts = .ok p) (e : Exponent) :
    (p.coeff e).val = exactSum ts e := by
  rw [coeff_addTerms canonical_zero h, zero, coeff_nil, Signed.val_zero, zero_add]

private theorem fits_exactSum {ts : List (Term (Signed w))}
    (h : ts.Pairwise fun s t => s.exponent ≠ t.exponent) (e : Exponent) :
    Fits w (exactSum ts e) := by
  induction ts with
  | nil => exact Signed.fits_zero
  | cons t ts ih =>
    obtain ⟨hne, hts⟩ := List.pairwise_cons.1 h
    rw [exactSum_cons]
    by_cases he : t.exponent = e
    · rw [if_pos he, exactSum_eq_zero fun u hu => he ▸ (hne u hu).symm, add_zero]
      exact t.coeff.fits
    · rw [if_neg he, zero_add]
      exact ih hts

theorem exactSum_terms (hp : p.Canonical) (e : Exponent) :
    exactSum p.terms e = (p.coeff e).val := by
  obtain ⟨l⟩ := p
  induction l with
  | nil => rfl
  | cons t l ih =>
    obtain ⟨hlt, -, hl⟩ := canonical_cons.1 hp
    rw [exactSum_cons, coeff_cons]
    by_cases he : t.exponent = e
    · rw [if_pos he, if_pos he, exactSum_eq_zero fun u hu => he ▸ ne_of_gt (hlt u hu), add_zero]
    · rw [if_neg he, if_neg he, zero_add]
      exact ih hl

theorem coeff_add {r : SparsePoly (Signed w)} (hp : p.Canonical) (hq : q.Canonical)
    (h : p.add q = .ok r) (e : Exponent) : (r.coeff e).val = (p.coeff e).val + (q.coeff e).val := by
  rw [coeff_addTerms hp h, exactSum_terms hq]

theorem ofTerms_perm (hp : p.Canonical) {ts : List (Term (Signed w))} (h : ts.Perm p.terms) :
    ofTerms ts = .ok p := by
  have hdistinct : ts.Pairwise fun s t => s.exponent ≠ t.exponent :=
    (h.pairwise_iff fun hst => hst.symm).2 (hp.1.imp fun hst => ne_of_lt hst)
  obtain ⟨q, hq, hcoeff⟩ := ofTerms_eq_ok fun n e =>
    fits_exactSum (hdistinct.sublist (List.take_sublist n ts)) e
  have hpq : q = p := by
    apply (canonical_ofTerms hq).ext isZero_zero hp
    intro e
    rw [Signed.ext_iff, hcoeff, exactSum_perm h, exactSum_terms hp]
  rw [hq, hpq]

/-- A list of terms is refused if and only if the exact sum of some prefix is out of range at some
exponent.  Otherwise the sum is exact, so the order decides at most whether there is one.  The terms
of a canonical polynomial have one in every order. -/
theorem ofTerms_exact_in_any_order (ts : List (Term (Signed w))) :
    (∀ f, ofTerms ts = .error f ↔
      f = .arithmetic .add ∧ ∃ n e, ¬ Fits w (exactSum (ts.take n) e)) ∧
    (∀ p, ofTerms ts = .ok p → ∀ e, (p.coeff e).val = exactSum ts e) ∧
    (∀ us p q, ts.Perm us → ofTerms ts = .ok p → ofTerms us = .ok q → p = q) ∧
    ∀ p : SparsePoly (Signed w), p.Canonical → ts.Perm p.terms → ofTerms ts = .ok p := by
  refine ⟨fun f => ofTerms_eq_error_iff, fun p => coeff_ofTerms, ?_,
    fun p hp => ofTerms_perm hp⟩
  intro us p q hperm hp hq
  apply (canonical_ofTerms hp).ext isZero_zero (canonical_ofTerms hq)
  intro e
  rw [Signed.ext_iff, coeff_ofTerms hp, coeff_ofTerms hq, exactSum_perm hperm]

/-- The terms at the third power cancel and are stored again.  In another order the largest word is
exceeded on the way, although the exact sum of the whole list is a word. -/
theorem ofTerms_exact_in_any_order_cancelling :
    let ts : List (Term (Signed 32)) := [⟨3, ⟨1, by decide⟩⟩, ⟨0, ⟨5, by decide⟩⟩,
      ⟨3, ⟨-1, by decide⟩⟩, ⟨3, ⟨2147483647, by decide⟩⟩]
    let us : List (Term (Signed 32)) := [⟨3, ⟨2147483647, by decide⟩⟩, ⟨3, ⟨1, by decide⟩⟩,
      ⟨3, ⟨-1, by decide⟩⟩, ⟨0, ⟨5, by decide⟩⟩]
    let p : SparsePoly (Signed 32) := ⟨[⟨0, ⟨5, by decide⟩⟩, ⟨3, ⟨2147483647, by decide⟩⟩]⟩
    ofTerms ts = .ok p ∧ (∀ q, ofTerms ts.reverse = .ok q → p = q) ∧
      ofTerms p.terms.reverse = .ok p ∧ ofTerms us = .error (.arithmetic .add) := by
  intro ts us p
  obtain ⟨-, -, horder, -⟩ := ofTerms_exact_in_any_order ts
  obtain ⟨-, -, -, hterms⟩ := ofTerms_exact_in_any_order p.terms.reverse
  obtain ⟨hrefused, -⟩ := ofTerms_exact_in_any_order us
  have hp : ofTerms ts = .ok p := by decide
  exact ⟨hp, fun q hq => horder _ p q ts.reverse_perm.symm hp hq,
    hterms p (by decide) p.terms.reverse_perm, (hrefused _).2 ⟨rfl, 2, 3, by decide⟩⟩

end SparsePoly

end Univariate
