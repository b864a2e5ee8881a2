import Mathlib.Order.Bounds.Basic
import Univariate.Failure
import Univariate.Proofs.Convolution
import Univariate.Proofs.SpecialisedOperations

/-! # Reports of exponents without a sum

A product looks at the exponents of each pair of terms before it touches the coefficients, and it
visits the pairs in lexicographic order.  The report is therefore determined by the exponents alone:
it names the least exponent of the left operand that has no sum with the degree of the right one,
and then the least exponent of the right operand that has no sum with that one.  No cancellation and
no underflow can hide such a pair, and a product that is returned has only sums as exponents. -/

namespace Univariate.SparsePoly

variable {C : Type} [Coefficient C] {p q r sum : SparsePoly C} {m n : Exponent}

theorem addExponents_eq_reported_iff {a b : Exponent} {o : ExponentOverflow} :
    addExponents a b = .error (.reported o) ↔ 2 ^ 32 ≤ a.val + b.val ∧ o = ⟨a, b⟩ := by
  have hnone : a.sum? b = none ↔ 2 ^ 32 ≤ a.val + b.val := Exponent.sum?_eq_none_iff
  rw [addExponents, ← hnone]
  cases a.sum? b <;> simp [eq_comm]

theorem addProduct_eq_reported_iff {s t : Term C} {o : ExponentOverflow} :
    sum.addProduct s t = .error (.reported o) ↔
      2 ^ 32 ≤ s.exponent.val + t.exponent.val ∧ o = ⟨s.exponent, t.exponent⟩ := by
  rw [addProduct, bind_eq_error_iff, addExponents_eq_reported_iff]
  simp

private theorem exponents_of_addProduct {s t : Term C} (h : sum.addProduct s t = .ok r) :
    s.exponent.val + t.exponent.val < 2 ^ 32 := by
  obtain ⟨e, he, -⟩ := bind_eq_ok_iff.1 h
  rw [addExponents_eq_ok_iff] at he
  exact he ▸ e.isLt

private theorem pairwise_termPairs (hp : p.Canonical) (hq : q.Canonical) :
    (termPairs p q).Pairwise fun a b => a.1.exponent < b.1.exponent ∨
      a.1.exponent = b.1.exponent ∧ a.2.exponent < b.2.exponent := by
  rw [termPairs, List.pairwise_flatMap]
  constructor
  · intro s _
    rw [List.pairwise_map]
    exact hq.1.imp fun htu => .inr ⟨rfl, htu⟩
  · refine hp.1.imp fun hst a ha b hb => ?_
    obtain ⟨_, -, rfl⟩ := List.mem_map.1 ha
    obtain ⟨_, -, rfl⟩ := List.mem_map.1 hb
    exact .inl hst

/-- The stored exponents that have no sum with `n`. -/
def overflowing (p : SparsePoly C) (n : Exponent) : Set Exponent :=
  {e | (∃ t ∈ p.terms, t.exponent = e) ∧ 2 ^ 32 ≤ e.val + n.val}

private theorem exists_first_pair (hp : p.Canonical) (hq : q.Canonical) {o : ExponentOverflow}
    (h : p.tryMul q = .error (.reported o)) :
    ∃ s ∈ p.terms, ∃ t ∈ q.terms, s.exponent = o.lhs ∧ t.exponent = o.rhs ∧
      2 ^ 32 ≤ o.lhs.val + o.rhs.val ∧
      ∀ s' ∈ p.terms, ∀ t' ∈ q.terms, 2 ^ 32 ≤ s'.exponent.val + t'.exponent.val →
        o.lhs < s'.exponent ∨ o.lhs = s'.exponent ∧ o.rhs ≤ t'.exponent := by
  obtain ⟨before, ⟨s, t⟩, after, sum, hsplit, hbefore, hstep⟩ := foldlM_eq_error h
  obtain ⟨hst, rfl⟩ := addProduct_eq_reported_iff.1 hstep
  have hmem : (s, t) ∈ termPairs p q := by simp [hsplit]
  obtain ⟨hs, ht⟩ := mem_termPairs.1 hmem
  refine ⟨s, hs, t, ht, rfl, rfl, hst, fun s' hs' t' ht' hst' => ?_⟩
  have hpair : (s', t') ∈ termPairs p q := mem_termPairs.2 ⟨hs', ht'⟩
  have horder := pairwise_termPairs hp hq
  rw [hsplit] at hpair horder
  rcases List.mem_append.1 hpair with hpair | hpair
  · obtain ⟨_, _, hreturn⟩ := exists_of_foldlM_eq_ok hbefore hpair
    exact absurd (exponents_of_addProduct hreturn) (not_lt.2 hst')
  rcases List.mem_cons.1 hpair with hsame | hpair
  · cases hsame
    exact .inr ⟨rfl, le_rfl⟩
  · rcases (List.pairwise_cons.1 (List.pairwise_append.1 horder).2.1).1 _ hpair with hlt | hle
    · exact .inl hlt
    · exact .inr ⟨hle.1, hle.2.le⟩

private theorem isLeast_of_tryMul (hp : p.Canonical) (hq : q.Canonical) (hn : q.degree = .ok n)
    {o : ExponentOverflow} (h : p.tryMul q = .error (.reported o)) :
    IsLeast (p.overflowing n) o.lhs ∧ IsLeast (q.overflowing o.lhs) o.rhs := by
  obtain ⟨s, hs, t, ht, hlhs, hrhs, hover, hfirst⟩ := exists_first_pair hp hq h
  obtain ⟨u, hu, rfl⟩ := exists_term_of_degree hn
  have htu : t.exponent.val ≤ u.exponent.val := exponent_le_of_degree hq hn ht
  rw [hrhs] at htu
  constructor
  · refine ⟨⟨⟨s, hs, hlhs⟩, by omega⟩, ?_⟩
    rintro _ ⟨⟨s', hs', rfl⟩, hover⟩
    rcases hfirst s' hs' u hu hover with hlt | hle
    · exact hlt.le
    · exact hle.1.le
  · refine ⟨⟨⟨t, ht, hrhs⟩, by omega⟩, ?_⟩
    rintro _ ⟨⟨t', ht', rfl⟩, hover⟩
    rcases hfirst s hs t' ht' (by rw [hlhs]; omega) with hlt | hle
    · exact absurd hlt (hlhs ▸ lt_irrefl _)
    · exact hle.2

private theorem tryMul_ne_ok {s t : Term C} (hs : s ∈ p.terms) (ht : t ∈ q.terms)
    (hst : 2 ^ 32 ≤ s.exponent.val + t.exponent.val) : p.tryMul q ≠ .ok r := by
  intro h
  have hpair : (s, t) ∈ termPairs p q := mem_termPairs.2 ⟨hs, ht⟩
  obtain ⟨_, _, hstep⟩ := exists_of_foldlM_eq_ok h hpair
  exact absurd (exponents_of_addProduct hstep) (not_lt.2 hst)

private theorem exists_reported (hrun : ∀ f, p.tryMul q ≠ .error (.stopped f)) {s t : Term C}
    (hs : s ∈ p.terms) (ht : t ∈ q.terms) (hst : 2 ^ 32 ≤ s.exponent.val + t.exponent.val) :
    ∃ o, p.tryMul q = .error (.reported o) := by
  cases h : p.tryMul q with
  | ok r => exact absurd h (tryMul_ne_ok hs ht hst)
  | error e =>
    cases e with
    | reported o => exact ⟨o, rfl⟩
    | stopped f => exact absurd h (hrun f)

theorem tryMul_eq_reported_iff (hp : p.Canonical) (hq : q.Canonical) (hn : q.degree = .ok n)
    (hrun : ∀ f, p.tryMul q ≠ .error (.stopped f)) {o : ExponentOverflow} :
    p.tryMul q = .error (.reported o) ↔
      IsLeast (p.overflowing n) o.lhs ∧ IsLeast (q.overflowing o.lhs) o.rhs := by
  refine ⟨isLeast_of_tryMul hp hq hn, fun ⟨hleft, hright⟩ => ?_⟩
  obtain ⟨⟨s, hs, hso⟩, -⟩ := hleft.1
  obtain ⟨⟨t, ht, hto⟩, hover⟩ := hright.1
  obtain ⟨o', ho'⟩ := exists_reported hrun hs ht (by rw [hso, hto]; omega)
  obtain ⟨hleft', hright'⟩ := isLeast_of_tryMul hp hq hn ho'
  have hlhs : o'.lhs = o.lhs := hleft'.unique hleft
  rw [hlhs] at hright'
  have hrhs : o'.rhs = o.rhs := hright'.unique hright
  have hsame : o' = o := by
    cases o
    cases o'
    exact congrArg₂ ExponentOverflow.mk hlhs hrhs
  rw [ho', hsame]

theorem exists_reported_iff (hp : p.Canonical) (hq : q.Canonical) (hm : p.degree = .ok m)
    (hn : q.degree = .ok n) (hrun : ∀ f, p.tryMul q ≠ .error (.stopped f)) :
    (∃ o, p.tryMul q = .error (.reported o)) ↔ 2 ^ 32 ≤ m.val + n.val := by
  constructor
  · rintro ⟨o, ho⟩
    obtain ⟨⟨⟨s, hs, hso⟩, hover⟩, -⟩ := (isLeast_of_tryMul hp hq hn ho).1
    have hsm : s.exponent.val ≤ m.val := exponent_le_of_degree hp hm hs
    rw [hso] at hsm
    omega
  · intro hover
    obtain ⟨s, hs, rfl⟩ := exists_term_of_degree hm
    obtain ⟨t, ht, rfl⟩ := exists_term_of_degree hn
    exact exists_reported hrun hs ht hover

/-- A checked operation and its plain form fail because of exponents exactly if the degree of the
result is no exponent.  What the former reports is described by `First`; the latter is stopped with
the text of the report. -/
structure ReportsOverflow (checked : ExponentChecked (SparsePoly C))
    (plain : Except Fault (SparsePoly C)) (degree : ℕ) (First : ExponentOverflow → Prop) :
    Prop where
  exists_iff : (∃ o, checked = .error (.reported o)) ↔ 2 ^ 32 ≤ degree
  reported_iff : ∀ o, checked = .error (.reported o) ↔ First o
  text_iff : ∀ text, (∃ f, plain = .error f ∧ f.message = text) ↔
    ∃ o : ExponentOverflow, checked = .error (.reported o) ∧ PolyError.message o = text

private theorem message_orStop_iff {α : Type} {x : ExponentChecked α}
    (hrun : ∀ f, x ≠ .error (.stopped f)) (text : String) :
    (∃ f, orStop x = .error f ∧ f.message = text) ↔
      ∃ o : ExponentOverflow, x = .error (.reported o) ∧ PolyError.message o = text := by
  constructor
  · rintro ⟨f, hf, htext⟩
    rcases orStop_eq_error_iff.1 hf with hf | ⟨o, rfl, ho⟩
    · exact absurd hf (hrun f)
    · exact ⟨o, ho, htext⟩
  · rintro ⟨o, ho, htext⟩
    exact ⟨.exponent o, orStop_eq_error_iff.2 (.inr ⟨o, rfl, ho⟩), htext⟩

theorem reportsOverflow_tryMul (hp : p.Canonical) (hq : q.Canonical) (hm : p.degree = .ok m)
    (hn : q.degree = .ok n) (hrun : ∀ f, p.tryMul q ≠ .error (.stopped f)) :
    ReportsOverflow (p.tryMul q) (p.mul q) (m.val + n.val) fun o =>
      IsLeast (p.overflowing n) o.lhs ∧ IsLeast (q.overflowing o.lhs) o.rhs where
  exists_iff := exists_reported_iff hp hq hm hn hrun
  reported_iff _ := tryMul_eq_reported_iff hp hq hn hrun
  text_iff := message_orStop_iff hrun

section Monomial

variable {c : C} {k : Exponent}

theorem degree_monomial (hc : Coefficient.isZero c = false) (k : Exponent) :
    (monomial c k).degree = .ok k := by
  rw [degree, leadingTerm?, terms_monomial hc]
  rfl

private theorem isLeast_overflowing_monomial (hc : Coefficient.isZero c = false) {e : Exponent} :
    IsLeast ((monomial c k).overflowing n) e ↔ e = k ∧ 2 ^ 32 ≤ k.val + n.val := by
  have hmem : ∀ e, e ∈ (monomial c k).overflowing n ↔ k = e ∧ 2 ^ 32 ≤ e.val + n.val := by
    intro e
    simp [overflowing, terms_monomial hc]
  constructor
  · rintro ⟨he, -⟩
    obtain ⟨rfl, hover⟩ := (hmem e).1 he
    exact ⟨rfl, hover⟩
  · rintro ⟨rfl, hover⟩
    exact ⟨(hmem e).2 ⟨rfl, hover⟩, fun e' he' => ((hmem e').1 he').1.le⟩

theorem reportsOverflow_tryMulMonomial (hp : p.Canonical) (hm : p.degree = .ok m)
    (hc : Coefficient.isZero c = false) (hrun : ∀ f, p.tryMulMonomial c k ≠ .error (.stopped f)) :
    ReportsOverflow (p.tryMulMonomial c k) (p.mulMonomial c k) (m.val + k.val) fun o =>
      IsLeast (p.overflowing k) o.lhs ∧ o.rhs = k := by
  rw [mulMonomial]
  rw [tryMulMonomial_eq] at hrun ⊢
  obtain ⟨hexists, hreported, htext⟩ := reportsOverflow_tryMul hp (canonical_monomial c k) hm
    (degree_monomial hc k) hrun
  refine ⟨hexists, fun o => (hreported o).trans (and_congr_right fun hleft => ?_), htext⟩
  have hover : 2 ^ 32 ≤ o.lhs.val + k.val := hleft.1.2
  rw [isLeast_overflowing_monomial hc, Nat.add_comm, and_iff_left hover]

theorem reportsOverflow_tryShift (hone : Coefficient.isZero (Coefficient.one : C) = false)
    (hp : p.Canonical) (hm : p.degree = .ok m)
    (hrun : ∀ f, p.tryShift k ≠ .error (.stopped f)) :
    ReportsOverflow (p.tryShift k) (p.shift k) (m.val + k.val) fun o =>
      IsLeast (p.overflowing k) o.lhs ∧ o.rhs = k := by
  by_cases hk : k = 0
  · subst hk
    have hsmall : ∀ e : Exponent, ¬ 2 ^ 32 ≤ e.val + (0 : Exponent).val := fun e => by
      rw [Fin.val_zero, Nat.add_zero]
      exact not_le.2 e.isLt
    refine ⟨⟨?_, fun hover => absurd hover (hsmall m)⟩, fun o => ⟨?_, ?_⟩, message_orStop_iff hrun⟩
    · rintro ⟨o, ho⟩
      cases ho
    · intro ho
      cases ho
    · rintro ⟨hleft, -⟩
      exact absurd hleft.1.2 (hsmall o.lhs)
  · rw [shift]
    rw [tryShift, if_neg hk] at hrun ⊢
    exact reportsOverflow_tryMulMonomial hp hm hone hrun

end Monomial

private theorem exponent_of_mem_tryMul (h : p.tryMul q = .ok r) :
    ∀ u ∈ r.terms, ∃ s ∈ p.terms, ∃ t ∈ q.terms,
      u.exponent.val = s.exponent.val + t.exponent.val := by
  refine foldlM_keeps (P := fun sum : SparsePoly C => ∀ u ∈ sum.terms, ∃ s ∈ p.terms,
    ∃ t ∈ q.terms, u.exponent.val = s.exponent.val + t.exponent.val) ?_ (by simp [zero]) h
  intro sum sum' pair hpair hsum hstep u hu
  obtain ⟨e, he, hstep⟩ := bind_eq_ok_iff.1 hstep
  obtain ⟨c, -, hstep⟩ := bind_eq_ok_iff.1 (attempt_eq_ok_iff.1 hstep)
  rcases exponent_of_mem_addTerm hstep hu with hue | ⟨v, hv, hue⟩
  · obtain ⟨hs, ht⟩ := mem_termPairs.1 hpair
    exact ⟨pair.1, hs, pair.2, ht, by rw [hue, addExponents_eq_ok_iff.1 he]⟩
  · rw [hue]
    exact hsum v hv

private theorem exponent_of_mem_tryMulMonomial {c : C} {k : Exponent}
    (h : p.tryMulMonomial c k = .ok r) :
    ∀ u ∈ r.terms, ∃ s ∈ p.terms, u.exponent.val = s.exponent.val + k.val := by
  intro u hu
  rw [tryMulMonomial_eq] at h
  obtain ⟨s, hs, t, ht, hsum⟩ := exponent_of_mem_tryMul h u hu
  have hk : t.exponent = k := by
    rw [monomial] at ht
    split at ht
    · cases ht
    · rw [List.mem_singleton.1 ht]
  exact ⟨s, hs, hk ▸ hsum⟩

private theorem exponent_of_mem_tryShift {k : Exponent} (h : p.tryShift k = .ok r) :
    ∀ u ∈ r.terms, ∃ s ∈ p.terms, u.exponent.val = s.exponent.val + k.val := by
  rw [tryShift] at h
  split at h
  · rename_i hk
    cases h
    exact fun u hu => ⟨u, hu, by rw [hk, Fin.val_zero, Nat.add_zero]⟩
  · exact exponent_of_mem_tryMulMonomial h

/-- Unless a coefficient is out of range, a product of polynomials other than zero fails exactly if
its degree is no exponent, and it reports the first pair of exponents without a sum.  The same holds
of products with one term and of shifts, where the right exponent is that of the term.  Whatever is
returned has only sums as exponents. -/
theorem overflow_reported_exactly :
    (∀ (C : Type) [Coefficient C] (p q : SparsePoly C), p.Canonical → q.Canonical →
      p ≠ zero → q ≠ zero → ∃ m n, p.degree = .ok m ∧ q.degree = .ok n ∧
        ((∀ f, p.tryMul q ≠ .error (.stopped f)) →
          ReportsOverflow (p.tryMul q) (p.mul q) (m.val + n.val) fun o =>
            IsLeast (p.overflowing n) o.lhs ∧ IsLeast (q.overflowing o.lhs) o.rhs) ∧
        (∀ (c : C) (k : Exponent), Coefficient.isZero c = false →
          (∀ f, p.tryMulMonomial c k ≠ .error (.stopped f)) →
          ReportsOverflow (p.tryMulMonomial c k) (p.mulMonomial c k) (m.val + k.val) fun o =>
            IsLeast (p.overflowing k) o.lhs ∧ o.rhs = k) ∧
        ∀ k : Exponent, Coefficient.isZero (Coefficient.one : C) = false →
          (∀ f, p.tryShift k ≠ .error (.stopped f)) →
          ReportsOverflow (p.tryShift k) (p.shift k) (m.val + k.val) fun o =>
            IsLeast (p.overflowing k) o.lhs ∧ o.rhs = k) ∧
    (∀ (C : Type) [Coefficient C] (p q r : SparsePoly C) (c : C) (k : Exponent),
      (p.tryMul q = .ok r → ∀ u ∈ r.terms, ∃ s ∈ p.terms, ∃ t ∈ q.terms,
        u.exponent.val = s.exponent.val + t.exponent.val) ∧
      (p.tryMulMonomial c k = .ok r ∨ p.tryShift k = .ok r → ∀ u ∈ r.terms, ∃ s ∈ p.terms,
        u.exponent.val = s.exponent.val + k.val)) ∧
    (∀ w, 2 ≤ w → Coefficient.isZero (Coefficient.one : Signed w) = false) ∧
    Coefficient.isZero (Coefficient.one : Float32) = false ∧
    Coefficient.isZero (Coefficient.one : Float) = false := by
  refine ⟨?_, ?_, fun w hw => (Signed.signedUnits hw).isZero_one, signedUnits_single.isZero_one,
    signedUnits_double.isZero_one⟩
  · intro C _ p q hp hq hpz hqz
    obtain ⟨m, hm⟩ := exists_degree hpz
    obtain ⟨n, hn⟩ := exists_degree hqz
    exact ⟨m, n, hm, hn, reportsOverflow_tryMul hp hq hm hn,
      fun c k hc => reportsOverflow_tryMulMonomial hp hm hc,
      fun k hone => reportsOverflow_tryShift hone hp hm⟩
  · intro C _ p q r c k
    refine ⟨exponent_of_mem_tryMul, fun h => ?_⟩
    rcases h with h | h
    · exact exponent_of_mem_tryMulMonomial h
    · exact exponent_of_mem_tryShift h

/-- Of these nine pairs the sixth is the first without a sum.  The least double precision number
times itself is zero, but the exponents next to it are reported all the same. -/
theorem overflow_reported_at_limits :
    let x : Signed 32 := ⟨1, by decide⟩
    let p : SparsePoly (Signed 32) := ⟨[⟨0, x⟩, ⟨2147483648, x⟩, ⟨4294967295, x⟩]⟩
    let q : SparsePoly (Signed 32) := ⟨[⟨0, x⟩, ⟨2147483647, x⟩, ⟨2147483648, x⟩]⟩
    let tiny : Float := .ofBits 1
    let u : SparsePoly Float := ⟨[⟨4294967295, tiny⟩]⟩
    (IsLeast (p.overflowing 2147483648) 2147483648 ∧
      IsLeast (q.overflowing 2147483648) 2147483648 ∧
      ∃ f, p.mul q = .error f ∧
        f.message = "exponent x^2147483648 * x^2147483648 overflows") ∧
    Coefficient.isZero (tiny * tiny) = true ∧
      (∃ o, u.tryMulMonomial tiny 1 = .error (.reported o)) ∧
      ∃ o, u.tryShift 1 = .error (.reported o) := by
  intro x p q tiny u
  obtain ⟨hall, -⟩ := overflow_reported_exactly
  have hproduct : p.tryMul q = .error (.reported ⟨2147483648, 2147483648⟩) := by decide +kernel
  have hmonomial : u.tryMulMonomial tiny 1 = .error (.reported ⟨4294967295, 1⟩) := by
    decide +kernel
  have hshift : u.tryShift 1 = .error (.reported ⟨4294967295, 1⟩) := by decide +kernel
  obtain ⟨m, n, hm, hn, hmul, -⟩ :=
    hall (Signed 32) p q (by decide) (by decide) (by decide) (by decide)
  obtain ⟨m', n', hm', -, -, hone, hpower⟩ :=
    hall Float u u (by decide +kernel) (by decide +kernel) (by decide) (by decide)
  cases hn.symm.trans (rfl : q.degree = .ok 2147483648)
  cases hm'.symm.trans (rfl : u.degree = .ok 4294967295)
  have hreports := hmul fun f hf => by cases hf.symm.trans hproduct
  obtain ⟨hleft, hright⟩ := (hreports.reported_iff _).1 hproduct
  refine ⟨⟨hleft, hright, (hreports.text_iff _).2 ⟨_, hproduct, rfl⟩⟩, by decide +kernel, ?_, ?_⟩
  · refine (hone tiny 1 (by decide +kernel) fun f hf => ?_).exists_iff.2 (by decide)
    cases hf.symm.trans hmonomial
  · refine (hpower 1 (by decide) fun f hf => ?_).exists_iff.2 (by decide)
    cases hf.symm.trans hshift

end Univariate.SparsePoly
