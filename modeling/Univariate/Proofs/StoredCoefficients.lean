import Mathlib.Data.List.Sort
import Univariate.Proofs.CanonicalForm

/-! # The coefficients that a canonical polynomial stores

A canonical polynomial stores a term exactly where its coefficient is not zero.  It is therefore
determined by its coefficients, as far as the zero of the type passes the test for zero. -/

namespace Univariate.SparsePoly

variable {C : Type} [Coefficient C] {p q : SparsePoly C}

@[simp] theorem coeff_nil (e : Exponent) : coeff (C := C) ⟨[]⟩ e = Coefficient.zero := rfl

theorem coeff_cons (t : Term C) (l : List (Term C)) (e : Exponent) :
    coeff ⟨t :: l⟩ e = if t.exponent = e then t.coeff else coeff ⟨l⟩ e := by
  by_cases h : t.exponent = e
  · simp [coeff, h]
  · simp [coeff, h]

theorem coeff_eq_zero_of_forall_ne {l : List (Term C)} {e : Exponent}
    (h : ∀ t ∈ l, t.exponent ≠ e) : coeff ⟨l⟩ e = Coefficient.zero := by
  induction l with
  | nil => rfl
  | cons t l ih =>
    rw [coeff_cons, if_neg (h t List.mem_cons_self)]
    exact ih fun u hu => h u (List.mem_cons_of_mem _ hu)

theorem Canonical.coeff_of_mem (hp : p.Canonical) {t : Term C} (ht : t ∈ p.terms) :
    p.coeff t.exponent = t.coeff := by
  obtain ⟨l⟩ := p
  induction l with
  | nil => cases ht
  | cons s l ih =>
    obtain ⟨hlt, -, hl⟩ := canonical_cons.1 hp
    rw [coeff_cons]
    rcases List.mem_cons.1 ht with rfl | ht
    · rw [if_pos rfl]
    · rw [if_neg (Fin.ne_of_lt (hlt t ht)), ih hl ht]

theorem mem_terms_or_coeff_eq_zero (p : SparsePoly C) (e : Exponent) :
    ⟨e, p.coeff e⟩ ∈ p.terms ∨ p.coeff e = Coefficient.zero := by
  obtain ⟨l⟩ := p
  induction l with
  | nil => exact .inr rfl
  | cons s l ih =>
    rw [coeff_cons]
    by_cases he : s.exponent = e
    · subst he
      rw [if_pos rfl]
      exact .inl List.mem_cons_self
    · rw [if_neg he]
      exact ih.imp_left (List.mem_cons_of_mem _)

theorem Canonical.mem_terms_iff (hzero : Coefficient.isZero (Coefficient.zero : C) = true)
    (hp : p.Canonical) {t : Term C} :
    t ∈ p.terms ↔ Coefficient.isZero t.coeff = false ∧ p.coeff t.exponent = t.coeff := by
  constructor
  · intro ht
    exact ⟨hp.2 t ht, hp.coeff_of_mem ht⟩
  · rintro ⟨hnz, hc⟩
    rcases mem_terms_or_coeff_eq_zero p t.exponent with h | h
    · rwa [hc] at h
    · rw [← hc, h, hzero] at hnz
      cases hnz

theorem Canonical.ext (hzero : Coefficient.isZero (Coefficient.zero : C) = true)
    (hp : p.Canonical) (hq : q.Canonical) (h : ∀ e, p.coeff e = q.coeff e) : p = q := by
  have hmem : ∀ t, t ∈ p.terms ↔ t ∈ q.terms := by
    intro t
    rw [hp.mem_terms_iff hzero, hq.mem_terms_iff hzero, h]
  have : Std.Irrefl fun s t : Term C => s.exponent < t.exponent := ⟨fun t => lt_irrefl t.exponent⟩
  have : Std.Antisymm fun s t : Term C => s.exponent < t.exponent :=
    ⟨fun _ _ hst hts => absurd hst (lt_asymm hts)⟩
  exact congrArg SparsePoly.mk (hp.1.eq_of_mem_iff hq.1 hmem)

theorem insertTerm_vacant {t : Term C} {l : List (Term C)}
    (hfree : ∀ s ∈ l, s.exponent ≠ t.exponent) :
    ∃ m, insertTerm t l = .ok m ∧
      ∀ e, coeff ⟨m⟩ e = if t.exponent = e then t.coeff else coeff ⟨l⟩ e := by
  induction l with
  | nil => exact ⟨[t], rfl, coeff_cons t []⟩
  | cons s l ih =>
    have hs : s.exponent ≠ t.exponent := hfree s List.mem_cons_self
    obtain ⟨m, hm, hcoeff⟩ := ih fun u hu => hfree u (List.mem_cons_of_mem _ hu)
    by_cases hlt : t.exponent < s.exponent
    · rw [insertTerm, if_pos hlt]
      exact ⟨_, rfl, coeff_cons t (s :: l)⟩
    · rw [insertTerm, if_neg hlt, if_neg hs.symm, hm, ok_bind]
      refine ⟨_, rfl, fun e => ?_⟩
      rw [coeff_cons, coeff_cons, hcoeff]
      by_cases he : s.exponent = e
      · rw [if_pos he, if_neg (he ▸ hs.symm), if_pos he]
      · rw [if_neg he, if_neg he]

private theorem insertTerm_occupied_cons {s t u : Term C} {l : List (Term C)}
    (hl : Canonical ⟨s :: l⟩)
    (hu : u ∈ l) (he : u.exponent = t.exponent) :
    insertTerm t (s :: l) = insertTerm t l >>= fun m => .ok (s :: m) := by
  have hst : s.exponent < t.exponent := he ▸ (canonical_cons.1 hl).1 u hu
  rw [insertTerm, if_neg (not_lt_of_gt hst), if_neg (ne_of_gt hst)]

theorem insertTerm_occupied_error {s t : Term C} {l : List (Term C)} (hl : Canonical ⟨l⟩)
    (hs : s ∈ l) (he : s.exponent = t.exponent) {f : Fault}
    (hadd : Coefficient.add s.coeff t.coeff = .error f) : insertTerm t l = .error f := by
  induction l with
  | nil => cases hs
  | cons u l ih =>
    rcases List.mem_cons.1 hs with rfl | hs
    · rw [insertTerm, if_neg (by simp [he]), if_pos he.symm, hadd, error_bind]
    · rw [insertTerm_occupied_cons hl hs he, ih (canonical_cons.1 hl).2.2 hs, error_bind]

theorem insertTerm_occupied {s t : Term C} {l : List (Term C)} (hl : Canonical ⟨l⟩)
    (hs : s ∈ l) (he : s.exponent = t.exponent) {sum : C}
    (hadd : Coefficient.add s.coeff t.coeff = .ok sum) :
    ∃ m, insertTerm t l = .ok m ∧ ∀ e, coeff ⟨m⟩ e = if t.exponent = e then
      (if Coefficient.isZero sum then Coefficient.zero else sum) else coeff ⟨l⟩ e := by
  induction l with
  | nil => cases hs
  | cons u l ih =>
    obtain ⟨hlt, -, hrest⟩ := canonical_cons.1 hl
    rcases List.mem_cons.1 hs with rfl | hs
    · rw [insertTerm, if_neg (by simp [he]), if_pos he.symm, hadd, ok_bind]
      have hbehind : coeff ⟨l⟩ s.exponent = Coefficient.zero :=
        coeff_eq_zero_of_forall_ne fun u hu => ne_of_gt (hlt u hu)
      refine ⟨_, rfl, fun e => ?_⟩
      rw [coeff_cons, ← he]
      split
      · by_cases hse : s.exponent = e
        · rw [if_pos hse, ← hse, hbehind]
        · rw [if_neg hse, if_neg hse]
      · by_cases hse : s.exponent = e
        · rw [coeff_cons, if_pos hse, if_pos hse]
        · rw [coeff_cons, if_neg hse, if_neg hse, if_neg hse]
    · obtain ⟨m, hm, hcoeff⟩ := ih hrest hs
      have hut : u.exponent ≠ t.exponent := he ▸ ne_of_lt (hlt s hs)
      rw [insertTerm_occupied_cons hl hs he, hm, ok_bind]
      refine ⟨_, rfl, fun e => ?_⟩
      rw [coeff_cons, coeff_cons, hcoeff]
      by_cases hue : u.exponent = e
      · rw [if_pos hue, if_neg (hue ▸ hut.symm), if_pos hue]
      · rw [if_neg hue, if_neg hue]

private theorem insertTerm_last {t : Term C} {l : List (Term C)}
    (h : ∀ s ∈ l, s.exponent < t.exponent) : insertTerm t l = .ok (l ++ [t]) := by
  induction l with
  | nil => rfl
  | cons s l ih =>
    have hst : s.exponent < t.exponent := h s List.mem_cons_self
    have hrest := ih fun u hu => h u (List.mem_cons_of_mem _ hu)
    rw [insertTerm, if_neg (not_lt_of_gt hst), if_neg (ne_of_gt hst), hrest]
    rfl

/-- Terms that are computed at ascending places are put behind one another; nothing but their
computation can fail. -/
theorem foldlM_addTerm_ascending {α : Type} {place : α → Exponent}
    (coefficient : α → Except Fault C) {l : List (Term C)} {as : List α}
    (h : (l.map (·.exponent) ++ as.map place).Pairwise (· < ·)) :
    as.foldlM (fun sum a => do addTerm sum ⟨place a, ← coefficient a⟩) ⟨l⟩ =
      as.mapM (fun a => do return ⟨place a, ← coefficient a⟩) >>= fun ts =>
        .ok ⟨l ++ ts.filter fun t => !Coefficient.isZero t.coeff⟩ := by
  induction as generalizing l with
  | nil => simp [pure, Except.pure]
  | cons a as ih =>
    rw [List.foldlM_cons, List.mapM_cons]
    cases hc : coefficient a with
    | error f => rfl
    | ok c =>
      have hlast : ∀ s ∈ l, s.exponent < place a := fun s hs =>
        (List.pairwise_append.1 h).2.2 s.exponent (List.mem_map_of_mem hs) (place a)
          List.mem_cons_self
      simp only [ok_bind, bind_assoc, pure_bind]
      rw [addTerm]
      cases hzero : Coefficient.isZero c with
      | true =>
        have hrest := (List.sublist_cons_self (place a) (as.map place)).append_left
          (l.map (·.exponent))
        rw [if_pos rfl, ok_bind, ih (h.sublist hrest)]
        simp [hzero]
      | false =>
        have hrest : ((l ++ [(⟨place a, c⟩ : Term C)]).map (·.exponent) ++
            as.map place).Pairwise (· < ·) := by
          rw [List.map_append, List.map_singleton, List.append_assoc]
          exact h
        rw [if_neg Bool.false_ne_true, insertTerm_last hlast]
        refine (ih hrest).trans ?_
        simp [hzero]

theorem addTerms_ascending {l ts : List (Term C)}
    (h : (l ++ ts).Pairwise fun s t => s.exponent < t.exponent) :
    addTerms ⟨l⟩ ts = .ok ⟨l ++ ts.filter fun t => !Coefficient.isZero t.coeff⟩ := by
  have hall : ts.mapM Except.ok = (.ok ts : Except Fault (List (Term C))) :=
    List.mapM_pure.trans (congrArg _ (List.map_id ts))
  rw [← List.pairwise_map, List.map_append] at h
  have hfold := foldlM_addTerm_ascending (fun t : Term C => .ok t.coeff) h
  exact hfold.trans (congrArg (· >>= _) hall)

theorem Canonical.ofTerms_terms (hp : p.Canonical) : ofTerms p.terms = .ok p := by
  have hkept : p.terms.filter (fun t => !Coefficient.isZero t.coeff) = p.terms :=
    List.filter_eq_self.2 fun t ht => by simp [hp.2 t ht]
  rw [ofTerms, zero, addTerms_ascending hp.1, hkept, List.nil_append]

end Univariate.SparsePoly
