import Univariate.Proofs.CoefficientLaws
import Univariate.Proofs.LibraryRuns
import Univariate.Proofs.StoredCoefficients

/-! # Equality is extensional

The equality test compares the stored terms one after another.  On canonical polynomials it tells
whether all coefficients are equal, absent ones included, by the equality test of their type.  A
coefficient that differs from itself makes both differ from themselves. -/

namespace Univariate

namespace Term

variable {C : Type}

private theorem beq_eq [BEq C] (s t : Term C) :
    (s == t) = (s.exponent == t.exponent && s.coeff == t.coeff) := rfl

private theorem beq_iff [BEq C] [LawfulBEq C] {s t : Term C} : (s == t) = true ↔ s = t := by
  obtain ⟨m, x⟩ := s
  obtain ⟨n, y⟩ := t
  rw [beq_eq, Bool.and_eq_true, beq_iff_eq, beq_iff_eq, Term.mk.injEq]

end Term

namespace SparsePoly

section Canonical

variable {C : Type} [Coefficient C] {p q : SparsePoly C}

private theorem beq_cons (s t : Term C) (l m : List (Term C)) :
    ((⟨s :: l⟩ : SparsePoly C) == ⟨t :: m⟩) =
      (s.exponent == t.exponent && s.coeff == t.coeff && (⟨l⟩ : SparsePoly C) == ⟨m⟩) := rfl

private theorem coeff_eq_zero_of_lt {l : List (Term C)} {e : Exponent}
    (h : ∀ t ∈ l, e < t.exponent) :
    coeff ⟨l⟩ e = Coefficient.zero :=
  coeff_eq_zero_of_forall_ne fun t ht => ne_of_gt (h t ht)

private theorem not_forall_coeff_beq (exact : ExactZeroTest C) {s : Term C} {l m : List (Term C)}
    (hl : Canonical ⟨s :: l⟩) (hm : ∀ t ∈ m, s.exponent < t.exponent) :
    (¬ ∀ e, (coeff ⟨s :: l⟩ e == coeff ⟨m⟩ e) = true) ∧
      ¬ ∀ e, (coeff ⟨m⟩ e == coeff ⟨s :: l⟩ e) = true := by
  have hs : ¬ Coefficient.isZero s.coeff = true := Bool.eq_false_iff.1 (canonical_cons.1 hl).2.1
  have hstored : coeff ⟨s :: l⟩ s.exponent = s.coeff := by rw [coeff_cons, if_pos rfl]
  constructor
  · intro h
    have hsame := h s.exponent
    rw [hstored, coeff_eq_zero_of_lt hm, exact.beq_zero] at hsame
    exact hs hsame
  · intro h
    have hsame := h s.exponent
    rw [hstored, coeff_eq_zero_of_lt hm, exact.zero_beq] at hsame
    exact hs hsame

private theorem forall_coeff_beq_cons (exact : ExactZeroTest C) {s t : Term C} {l m : List (Term C)}
    (hl : Canonical ⟨s :: l⟩) (hm : Canonical ⟨t :: m⟩) (heq : s.exponent = t.exponent) :
    (∀ e, (coeff ⟨s :: l⟩ e == coeff ⟨t :: m⟩ e) = true) ↔
      (s.coeff == t.coeff) = true ∧ ∀ e, (coeff ⟨l⟩ e == coeff ⟨m⟩ e) = true := by
  have hzero : (Coefficient.zero == (Coefficient.zero : C)) = true :=
    (exact.zero_beq _).trans exact.isZero_zero
  simp only [coeff_cons, ← heq]
  constructor
  · intro h
    refine ⟨by simpa using h s.exponent, fun e => ?_⟩
    by_cases he : s.exponent = e
    · have hleft : coeff ⟨l⟩ e = Coefficient.zero :=
        coeff_eq_zero_of_lt (he ▸ (canonical_cons.1 hl).1)
      have hright : coeff ⟨m⟩ e = Coefficient.zero :=
        coeff_eq_zero_of_lt (he ▸ heq ▸ (canonical_cons.1 hm).1)
      rw [hleft, hright]
      exact hzero
    · simpa only [if_neg he] using h e
  · rintro ⟨hfirst, hrest⟩ e
    by_cases he : s.exponent = e
    · simpa only [if_pos he] using hfirst
    · simpa only [if_neg he] using hrest e

/-- The terms are compared in ascending order; the first exponent that only one side stores decides
the comparison of the coefficients as well. -/
theorem beq_iff_coeff_beq (exact : ExactZeroTest C) (hp : p.Canonical) (hq : q.Canonical) :
    (p == q) = true ↔ ∀ e, (p.coeff e == q.coeff e) = true := by
  obtain ⟨l⟩ := p
  obtain ⟨m⟩ := q
  induction l generalizing m with
  | nil =>
    cases m with
    | nil => exact ⟨fun _ _ => (exact.zero_beq _).trans exact.isZero_zero, fun _ => rfl⟩
    | cons t m =>
      have hne := (not_forall_coeff_beq exact hq (m := []) (by simp)).2
      exact ⟨fun h => (Bool.false_ne_true h).elim, fun h => (hne h).elim⟩
  | cons s l ih =>
    cases m with
    | nil =>
      have hne := (not_forall_coeff_beq exact hp (m := []) (by simp)).1
      exact ⟨fun h => (Bool.false_ne_true h).elim, fun h => (hne h).elim⟩
    | cons t m =>
      have hrest := ih (canonical_cons.1 hp).2.2 m (canonical_cons.1 hq).2.2
      rw [beq_cons, Bool.and_eq_true, Bool.and_eq_true, beq_iff_eq]
      rcases lt_trichotomy s.exponent t.exponent with hlt | heq | hgt
      · have hne := (not_forall_coeff_beq exact hp (m := t :: m) (List.forall_mem_cons.2
          ⟨hlt, fun u hu => hlt.trans ((canonical_cons.1 hq).1 u hu)⟩)).1
        exact ⟨fun h => absurd h.1.1 hlt.ne, fun h => (hne h).elim⟩
      · rw [forall_coeff_beq_cons exact hp hq heq, hrest, and_assoc]
        exact and_iff_right heq
      · have hne := (not_forall_coeff_beq exact hq (m := s :: l) (List.forall_mem_cons.2
          ⟨hgt, fun u hu => hgt.trans ((canonical_cons.1 hp).1 u hu)⟩)).2
        exact ⟨fun h => absurd h.1.1 hgt.ne', fun h => (hne h).elim⟩

end Canonical

section Words

variable {w : Nat} {p q : SparsePoly (Signed w)}

theorem beq_words_iff : (p == q) = true ↔ p = q := by
  have : LawfulBEq (Term (Signed w)) :=
    { eq_of_beq := Term.beq_iff.1
      rfl := Term.beq_iff.2 rfl }
  obtain ⟨l⟩ := p
  obtain ⟨m⟩ := q
  exact (beq_iff_eq (a := l)).trans (SparsePoly.mk.injEq l m ▸ Iff.rfl)

theorem equivalence_beq_words : Equivalence fun p q : SparsePoly (Signed w) => (p == q) = true where
  refl _ := beq_words_iff.2 rfl
  symm h := beq_words_iff.2 (beq_words_iff.1 h).symm
  trans h h' := beq_words_iff.2 ((beq_words_iff.1 h).trans (beq_words_iff.1 h'))

theorem beq_words_iff_coeff_eq (hp : p.Canonical) (hq : q.Canonical) :
    (p == q) = true ↔ p.coeff = q.coeff := by
  rw [beq_iff_coeff_beq Signed.exactZeroTest hp hq]
  simp only [beq_iff_eq, funext_iff]

end Words

/-- Two polynomials that runs return are equal if and only if all their coefficients are.  Over
words this is an equivalence that knows nothing but the coefficients. -/
theorem beq_extensional :
    (∀ (C : Type) [Coefficient C], ExactZeroTest C → ∀ first second : List (Call C),
      ∀ p ∈ run first, ∀ q ∈ run second,
        ((p == q) = true ↔ ∀ e, (p.coeff e == q.coeff e) = true)) ∧
    (∀ w, ExactZeroTest (Signed w)) ∧ ExactZeroTest Float32 ∧ ExactZeroTest Float ∧
    (∀ w, Equivalence fun p q : SparsePoly (Signed w) => (p == q) = true) ∧
    ∀ (w : Nat) (first second : List (Call (Signed w))),
      ∀ p ∈ run first, ∀ q ∈ run second, ((p == q) = true ↔ p.coeff = q.coeff) := by
  refine ⟨?_, fun _ => Signed.exactZeroTest, exactZeroTest_single, exactZeroTest_double,
    fun _ => equivalence_beq_words, ?_⟩
  · intro C _ exact first second p hp q hq
    exact beq_iff_coeff_beq exact (canonical_run first p hp)
      (canonical_run second q hq)
  · intro w first second p hp q hq
    exact beq_words_iff_coeff_eq (canonical_run first p hp)
      (canonical_run second q hq)

/-- A product and a list of terms make up equal polynomials.  A monomial whose coefficient is no
number is not even equal to itself. -/
theorem beq_extensional_two_histories :
    let product : List (Call (Signed 64)) :=
      [.ofCoeffs [⟨1, by decide⟩, ⟨1, by decide⟩], .ofCoeffs [⟨-1, by decide⟩, ⟨1, by decide⟩],
        .mul 0 1]
    let terms : List (Call (Signed 64)) := [.ofTerms [⟨2, ⟨1, by decide⟩⟩, ⟨0, ⟨-1, by decide⟩⟩]]
    let nan : Float := 0 / 0
    (∃ p ∈ run product, ∃ q ∈ run terms, p.size = 2 ∧ (p == q) = true) ∧
      ∃ p ∈ run [Call.monomial nan 3], p.size = 1 ∧ (p == p) = false := by
  intro product terms nan
  obtain ⟨hall, -, -, hdouble, -, hwords⟩ := beq_extensional
  constructor
  · let p : SparsePoly (Signed 64) := ⟨[⟨0, ⟨-1, by decide⟩⟩, ⟨2, ⟨1, by decide⟩⟩]⟩
    have hproduct : p ∈ run product :=
      List.mem_of_getElem? (show (run product)[2]? = some p by decide)
    have hterms : p ∈ run terms := List.mem_of_getElem? (show (run terms)[0]? = some p by decide)
    exact ⟨p, hproduct, p, hterms, rfl, (hwords 64 product terms p hproduct p hterms).2 rfl⟩
  · let p : SparsePoly Float := ⟨[⟨3, nan⟩]⟩
    have hp : p ∈ run [Call.monomial nan 3] :=
      List.mem_of_getElem? (show (run [Call.monomial nan 3])[0]? = some p by decide +kernel)
    refine ⟨p, hp, rfl, Bool.eq_false_iff.2 fun h => ?_⟩
    have hnan : (nan == nan) = true := (hall Float hdouble _ _ p hp p hp).1 h 3
    exact absurd hnan (by decide +kernel)

end SparsePoly

end Univariate
