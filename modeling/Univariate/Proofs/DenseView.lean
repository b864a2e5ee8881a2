import Mathlib.Data.List.DropRight
import Mathlib.Data.List.GetD
import Univariate.Proofs.CoefficientLaws
import Univariate.Proofs.StoredCoefficients
import Univariate.SparsePoly.Calculus

/-! # The dense view and lists of coefficients

The dense view lists the coefficients up to the degree, and a list of coefficients makes up a
polynomial.  Either one undoes the other, up to what a polynomial does not keep: the zeros at the
end of a list and the signs of zeros.  The exponent behind the last entry of a list has to be an
exponent too, so the dense views of the two highest degrees are refused. -/

namespace Univariate

variable {C : Type} [Coefficient C]

namespace Coefficient

/-- A coefficient as a polynomial gives it back; of all zeros it knows one. -/
def plain (c : C) : C := if isZero c then zero else c

private theorem plain_of_isZero {c : C} (h : isZero c = true) : plain c = zero := if_pos h

private theorem plain_of_not_isZero {c : C} (h : isZero c = false) : plain c = c := by
  rw [plain, h]
  rfl

@[simp] theorem plain_zero : plain (zero : C) = zero := ite_self _

theorem plain_word {w : Nat} (x : Signed w) : plain x = x := by
  cases hx : isZero x with
  | false => exact plain_of_not_isZero hx
  | true => rw [plain_of_isZero hx, Signed.ext_iff, (Signed.isZero_iff x).1 hx, Signed.val_zero]

theorem plain_single (x : Float32) : plain x = x ∨ x = -0 ∧ plain x = 0 := by
  cases hx : isZero x with
  | false => exact .inl (plain_of_not_isZero hx)
  | true =>
    have hplain : plain x = 0 := plain_of_isZero hx
    rcases single_eq_zero hx with hpositive | hnegative
    · exact .inl (hplain.trans hpositive.symm)
    · exact .inr ⟨hnegative, hplain⟩

theorem plain_double (x : Float) : plain x = x ∨ x = -0 ∧ plain x = 0 := by
  cases hx : isZero x with
  | false => exact .inl (plain_of_not_isZero hx)
  | true =>
    have hplain : plain x = 0 := plain_of_isZero hx
    rcases double_eq_zero hx with hpositive | hnegative
    · exact .inl (hplain.trans hpositive.symm)
    · exact .inr ⟨hnegative, hplain⟩

end Coefficient

open Coefficient (plain plain_of_isZero plain_of_not_isZero plain_zero)

def Trimmed (cs : List C) : Prop := ∀ c, cs.getLast? = some c → Coefficient.isZero c = false

section Lists

variable {cs ds : List C}

theorem Trimmed.length_le (hzero : Coefficient.isZero (Coefficient.zero : C) = true)
    (hds : Trimmed ds)
    (h : ∀ i < ds.length, cs.getD i Coefficient.zero = ds.getD i Coefficient.zero) :
    ds.length ≤ cs.length := by
  by_contra hlt
  have hlast : ds.length - 1 < ds.length := by omega
  have hend : ds.getLast? = some ds[ds.length - 1] := by
    rw [List.getLast?_eq_getElem?, List.getElem?_eq_getElem hlast]
  have hsame := h _ hlast
  rw [List.getD_eq_default _ _ (by omega), List.getD_eq_getElem _ _ hlast] at hsame
  have hnz := hds _ hend
  rw [← hsame, hzero] at hnz
  cases hnz

theorem Trimmed.ext (hzero : Coefficient.isZero (Coefficient.zero : C) = true) (hcs : Trimmed cs)
    (hds : Trimmed ds) {n : ℕ} (hn : cs.length ≤ n) (hm : ds.length ≤ n)
    (h : ∀ i < n, cs.getD i Coefficient.zero = ds.getD i Coefficient.zero) : cs = ds := by
  have hlength : cs.length = ds.length :=
    le_antisymm (hcs.length_le hzero fun i hi => (h i (by omega)).symm)
      (hds.length_le hzero fun i hi => h i (by omega))
  apply List.ext_getElem hlength
  intro i hi hj
  have hsame := h i (by omega)
  rwa [List.getD_eq_getElem _ _ hi, List.getD_eq_getElem _ _ hj] at hsame

theorem trimmed_rdropWhile (cs : List C) :
    Trimmed ((cs.rdropWhile Coefficient.isZero).map plain) := by
  intro c hc
  rw [List.getLast?_map] at hc
  obtain ⟨b, hb, rfl⟩ := Option.map_eq_some_iff.1 hc
  obtain ⟨hne, rfl⟩ := List.mem_getLast?_eq_getLast hb
  have hnz := Bool.eq_false_iff.2 (List.rdropWhile_last_not Coefficient.isZero cs hne)
  rw [plain_of_not_isZero hnz]
  exact hnz

theorem getD_rdropWhile (cs : List C) (i : ℕ) :
    ((cs.rdropWhile Coefficient.isZero).map plain).getD i Coefficient.zero =
      plain (cs.getD i Coefficient.zero) := by
  have hmap := List.getD_map (cs.rdropWhile Coefficient.isZero) Coefficient.zero (n := i) plain
  rw [plain_zero] at hmap
  rw [hmap]
  conv_rhs => rw [← List.rdropWhile_append_rtakeWhile (p := Coefficient.isZero) (l := cs)]
  rcases lt_or_ge i (cs.rdropWhile Coefficient.isZero).length with hi | hi
  · rw [List.getD_append _ _ _ _ hi]
  · rw [List.getD_eq_default _ _ hi, List.getD_append_right _ _ _ _ hi, plain_zero]
    rcases lt_or_ge (i - (cs.rdropWhile Coefficient.isZero).length)
      (cs.rtakeWhile Coefficient.isZero).length with hj | hj
    · rw [List.getD_eq_getElem _ _ hj]
      exact (plain_of_isZero (List.mem_rtakeWhile_imp (List.getElem_mem hj))).symm
    · rw [List.getD_eq_default _ _ hj, plain_zero]

end Lists

namespace SparsePoly

variable {p q : SparsePoly C} {cs : List C}

theorem length_fill {l : List (Term C)} (hl : Canonical ⟨l⟩) {index : ℕ}
    (hindex : ∀ t ∈ l, index ≤ t.exponent.val) {d : Exponent} (hd : degree ⟨l⟩ = .ok d) :
    (fill index l).length = d.val + 1 - index := by
  induction l generalizing index with
  | nil => cases hd
  | cons t l ih =>
    have ht : index ≤ t.exponent.val := hindex t List.mem_cons_self
    rw [length_fill_cons]
    cases l with
    | nil =>
      obtain ⟨u, hu, rfl⟩ := exists_term_of_degree hd
      rw [fill_nil, List.length_nil, List.mem_singleton.1 hu]
      omega
    | cons s l =>
      obtain ⟨hlt, -, hrest⟩ := canonical_cons.1 hl
      rw [degree_cons_cons] at hd
      obtain ⟨u, hu, rfl⟩ := exists_term_of_degree hd
      have htu : t.exponent.val < u.exponent.val := hlt u hu
      rw [ih hrest (fun v hv => hlt v hv) hd]
      omega

theorem getLast?_fill (index : ℕ) (l : List (Term C)) :
    (fill index l).getLast? = l.getLast?.map (·.coeff) := by
  induction l generalizing index with
  | nil => rfl
  | cons t l ih =>
    rw [fill, List.getLast?_append, List.getLast?_cons, ih, List.getLast?_cons]
    cases l.getLast? <;> rfl

theorem trimmed_fill (hp : p.Canonical) : Trimmed (fill 0 p.terms) := by
  intro c hc
  rw [getLast?_fill] at hc
  obtain ⟨t, ht, rfl⟩ := Option.map_eq_some_iff.1 hc
  exact hp.2 t (List.mem_of_getLast? ht)

/-- Between two stored terms, and behind the last one, the default is read. -/
theorem getD_fill {l : List (Term C)} (hl : Canonical ⟨l⟩) {index : ℕ}
    (hindex : ∀ t ∈ l, index ≤ t.exponent.val) {e : Exponent} (he : index ≤ e.val) :
    (fill index l).getD (e.val - index) Coefficient.zero = coeff ⟨l⟩ e := by
  induction l generalizing index with
  | nil => rfl
  | cons t l ih =>
    obtain ⟨hlt, -, hrest⟩ := canonical_cons.1 hl
    have ht : index ≤ t.exponent.val := hindex t List.mem_cons_self
    rw [fill, coeff_cons]
    rcases lt_trichotomy e t.exponent with hbefore | rfl | hbehind
    · have hgap : e.val - index < t.exponent.val - index := Nat.sub_lt_sub_right he hbefore
      rw [List.getD_append _ _ _ _ (by rwa [List.length_replicate]), List.getD_replicate _ hgap,
        if_neg hbefore.ne', coeff_eq_zero_of_forall_ne fun u hu => (hbefore.trans (hlt u hu)).ne']
    · rw [List.getD_append_right _ _ _ _ (by rw [List.length_replicate]), List.length_replicate,
        Nat.sub_self, List.getD_cons_zero, if_pos rfl]
    · have hval : t.exponent.val < e.val := hbehind
      have hplace :
          e.val - index - (t.exponent.val - index) = e.val - (t.exponent.val + 1) + 1 := by
        omega
      rw [List.getD_append_right _ _ _ _ (by rw [List.length_replicate]; omega),
        List.length_replicate, hplace, List.getD_cons_succ, if_neg hbehind.ne]
      exact ih hrest (fun u hu => hlt u hu) hval

private theorem getD_fill_zero (hp : p.Canonical) (e : Exponent) :
    (fill 0 p.terms).getD e.val Coefficient.zero = p.coeff e :=
  getD_fill hp (fun _ _ => Nat.zero_le _) (Nat.zero_le _)

private theorem length_fill_zero (hp : p.Canonical) {d : Exponent} (hd : p.degree = .ok d) :
    (fill 0 p.terms).length = d.val + 1 :=
  length_fill hp (fun _ _ => Nat.zero_le _) hd

omit [Coefficient C] in
private theorem index_lt_of_length_lt (h : cs.length < 4294967295) {i : ℕ} (hi : i < cs.length) :
    i < 4294967296 := by
  omega

def entries (cs : List C) (h : cs.length < 4294967295) : List (Term C) :=
  cs.mapFinIdx fun i c hi => ⟨⟨i, index_lt_of_length_lt h hi⟩, c⟩

omit [Coefficient C] in
private theorem mem_entries (h : cs.length < 4294967295) {t : Term C} :
    t ∈ entries cs h ↔ cs[t.exponent.val]? = some t.coeff := by
  rw [entries, List.mem_mapFinIdx, List.getElem?_eq_some_iff]
  constructor
  · rintro ⟨i, hi, rfl⟩
    exact ⟨hi, rfl⟩
  · rintro ⟨hi, hc⟩
    exact ⟨t.exponent.val, hi, by rw [hc]⟩

omit [Coefficient C] in
private theorem ascending_entries (h : cs.length < 4294967295) :
    (entries cs h).Pairwise fun s t => s.exponent < t.exponent := by
  rw [List.pairwise_iff_getElem]
  intro i j hi hj hij
  simp only [entries, List.getElem_mapFinIdx]
  exact hij

theorem ofCoeffs_of_length_lt (h : cs.length < 4294967295) :
    ofCoeffs cs = .ok ⟨(entries cs h).filter fun t => !Coefficient.isZero t.coeff⟩ := by
  rw [ofCoeffs, dif_pos h]
  exact addTerms_ascending (ascending_entries h)

theorem ofCoeffs_of_length_ge (h : 4294967295 ≤ cs.length) :
    ofCoeffs cs = .error (.arithmetic .add) := by
  rw [ofCoeffs, dif_neg (not_lt.2 h)]

private theorem length_lt_of_ofCoeffs (h : ofCoeffs cs = .ok p) : cs.length < 4294967295 := by
  by_contra hlength
  cases h.symm.trans (ofCoeffs_of_length_ge (not_lt.1 hlength))

theorem coeff_ofCoeffs (h : ofCoeffs cs = .ok p) (e : Exponent) :
    p.coeff e = plain (cs.getD e.val Coefficient.zero) := by
  have hlength := length_lt_of_ofCoeffs h
  have hp : p.Canonical := canonical_ofCoeffs h
  cases (ofCoeffs_of_length_lt hlength).symm.trans h
  have hstored : ∀ t : Term C, t ∈ (entries cs hlength).filter (!Coefficient.isZero ·.coeff) ↔
      cs[t.exponent.val]? = some t.coeff ∧ Coefficient.isZero t.coeff = false := by
    intro t
    rw [List.mem_filter, mem_entries, Bool.not_eq_true']
  cases hentry : cs[e.val]? with
  | none =>
    rw [List.getD_eq_getElem?_getD, hentry, Option.getD_none, plain_zero]
    apply coeff_eq_zero_of_forall_ne
    rintro t ht rfl
    cases hentry.symm.trans ((hstored t).1 ht).1
  | some c =>
    rw [List.getD_eq_getElem?_getD, hentry, Option.getD_some]
    cases hc : Coefficient.isZero c with
    | false =>
      rw [plain_of_not_isZero hc]
      exact hp.coeff_of_mem ((hstored ⟨e, c⟩).2 ⟨hentry, hc⟩)
    | true =>
      rw [plain_of_isZero hc]
      apply coeff_eq_zero_of_forall_ne
      rintro t ht rfl
      obtain ⟨hsame, hnz⟩ := (hstored t).1 ht
      cases hentry.symm.trans hsame
      cases hc.symm.trans hnz

/-- The dense view is taken as long as the exponent behind the degree has one behind it. -/
theorem ofCoeffs_fill (hzero : Coefficient.isZero (Coefficient.zero : C) = true)
    (hp : p.Canonical) {d : Exponent} (hd : p.degree = .ok d) (hlow : d.val < 4294967294) :
    ofCoeffs (fill 0 p.terms) = .ok p := by
  have hlength : (fill 0 p.terms).length < 4294967295 := by
    rw [length_fill_zero hp hd]
    omega
  have hq := ofCoeffs_of_length_lt hlength
  refine hq.trans (congrArg Except.ok ?_)
  apply (canonical_ofCoeffs hq).ext hzero hp
  intro e
  rw [coeff_ofCoeffs hq, getD_fill_zero hp]
  rcases mem_terms_or_coeff_eq_zero p e with hmem | hcoeff
  · exact plain_of_not_isZero (hp.2 _ hmem)
  · rw [hcoeff, plain_zero]

theorem fill_ofCoeffs (hzero : Coefficient.isZero (Coefficient.zero : C) = true)
    (h : ofCoeffs cs = .ok p) :
    fill 0 p.terms = (cs.rdropWhile Coefficient.isZero).map plain := by
  have hp : p.Canonical := canonical_ofCoeffs h
  have hlength := length_lt_of_ofCoeffs h
  have hdrop : cs.rdropWhile Coefficient.isZero <+: cs := List.rdropWhile_prefix _ cs
  apply (trimmed_fill hp).ext hzero (trimmed_rdropWhile cs) (n := 4294967296)
  · by_cases hne : p = zero
    · rw [hne]
      exact Nat.zero_le _
    · obtain ⟨d, hd⟩ := exists_degree hne
      rw [length_fill_zero hp hd]
      exact d.isLt
  · rw [List.length_map]
    have hle := hdrop.length_le
    omega
  · intro i hi
    rw [getD_rdropWhile, ← coeff_ofCoeffs h ⟨i, hi⟩]
    exact getD_fill_zero hp ⟨i, hi⟩

theorem toCoeffs_of_ne_zero (hne : p ≠ zero) : p.toCoeffs = .ok (fill 0 p.terms) := by
  rw [toCoeffs, isZero_eq_false_iff.2 hne]
  rfl

theorem getElem?_fill (hp : p.Canonical) {d e : Exponent} (hd : p.degree = .ok d) (he : e ≤ d) :
    (fill 0 p.terms)[e.val]? = some (p.coeff e) := by
  have hlt : e.val < (fill 0 p.terms).length := by
    rw [length_fill_zero hp hd]
    exact Nat.lt_succ_of_le he
  rw [List.getElem?_eq_getElem hlt, ← getD_fill_zero hp e, List.getD_eq_getElem _ _ hlt]

private theorem exists_getLast?_fill (hp : p.Canonical) (hne : p ≠ zero) :
    ∃ c, (fill 0 p.terms).getLast? = some c ∧ Coefficient.isZero c = false := by
  obtain ⟨d, hd⟩ := exists_degree hne
  obtain ⟨t, ht, -⟩ := degree_eq_ok_iff.1 hd
  have hlast : (fill 0 p.terms).getLast? = some t.coeff := by
    rw [getLast?_fill, show p.terms.getLast? = some t from ht]
    rfl
  exact ⟨t.coeff, hlast, trimmed_fill hp _ hlast⟩

/-- The dense view of a polynomial lists its coefficients up to the degree, and the last one is not
zero.  The list makes the polynomial up again if the degree is below the two highest exponents, and
it is refused otherwise.  The dense view of what a list makes up is this list without the zeros at
its end.  All types of coefficients tell zeros exactly; words come back as they are, and so do
floating-point numbers but for negative zeros. -/
theorem dense_view_inverse_below_limit (exact : ExactZeroTest C) (hp : p.Canonical)
    (hne : p ≠ zero) :
    (∃ d cs, p.degree = .ok d ∧ p.toCoeffs = .ok cs ∧ cs.length = d.val + 1 ∧
      (∀ e ≤ d, cs[e.val]? = some (p.coeff e)) ∧
      (∃ c, cs.getLast? = some c ∧ Coefficient.isZero c = false) ∧
      (d.val < 4294967294 → ofCoeffs cs = .ok p) ∧
      (4294967294 ≤ d.val → ofCoeffs cs = .error (.arithmetic .add))) ∧
    (∀ cs, ofCoeffs cs = .ok p →
      p.toCoeffs = .ok ((cs.rdropWhile Coefficient.isZero).map plain)) ∧
    (∀ w, ExactZeroTest (Signed w)) ∧ ExactZeroTest Float32 ∧ ExactZeroTest Float ∧
    (∀ w, ∀ x : Signed w, plain x = x) ∧
    (∀ x : Float32, plain x = x ∨ x = -0 ∧ plain x = 0) ∧
    ∀ x : Float, plain x = x ∨ x = -0 ∧ plain x = 0 := by
  refine ⟨?_, fun cs h => ?_, fun _ => Signed.exactZeroTest, exactZeroTest_single,
    exactZeroTest_double, fun _ => Coefficient.plain_word, Coefficient.plain_single,
    Coefficient.plain_double⟩
  · obtain ⟨d, hd⟩ := exists_degree hne
    have hlength := length_fill_zero hp hd
    refine ⟨d, _, hd, toCoeffs_of_ne_zero hne, hlength, fun e => getElem?_fill hp hd,
      exists_getLast?_fill hp hne, ofCoeffs_fill exact.isZero_zero hp hd, fun hhigh => ?_⟩
    exact ofCoeffs_of_length_ge (by omega)
  · rw [toCoeffs_of_ne_zero hne, fill_ofCoeffs exact.isZero_zero h]

/-- A polynomial with gaps and its dense view make up one another.  Of a list of floating-point
numbers with a negative zero and zeros at its end, the one zero comes back positive and the others
do not come back. -/
theorem dense_view_inverse_with_gaps :
    let p : SparsePoly (Signed 32) := ⟨[⟨1, ⟨-2, by decide⟩⟩, ⟨4, ⟨7, by decide⟩⟩]⟩
    let xs : List Float := [-0, 2, 0, -0]
    (∃ cs, p.toCoeffs = .ok cs ∧ cs.length = 5 ∧ cs[2]? = some (p.coeff 2) ∧ ofCoeffs cs = .ok p) ∧
      ∃ q, ofCoeffs xs = .ok q ∧ q.size = 1 ∧ q.toCoeffs = .ok [0, 2] := by
  intro p xs
  constructor
  · obtain ⟨⟨d, cs, hd, hcs, hlength, hentry, -, hback, -⟩, -⟩ :=
      dense_view_inverse_below_limit (p := p) Signed.exactZeroTest (by decide) (by decide)
    cases hd
    exact ⟨cs, hcs, hlength, hentry 2 (by decide), hback (by decide)⟩
  · have hq : ofCoeffs xs = .ok ⟨[⟨1, 2⟩]⟩ := by decide +kernel
    have hcut : (xs.rdropWhile Coefficient.isZero).map plain = [0, 2] := by decide +kernel
    obtain ⟨-, hlist, -⟩ := dense_view_inverse_below_limit exactZeroTest_double
      (canonical_ofCoeffs hq) (by simp [zero])
    exact ⟨_, hq, rfl, hcut ▸ hlist xs hq⟩

/-- The degree is the last exponent but one, and the dense view has an entry for it. -/
theorem dense_view_refused_at_limit :
    let p : SparsePoly (Signed 32) := ⟨[⟨4294967294, ⟨1, by decide⟩⟩]⟩
    p.Canonical ∧ p ≠ zero ∧ p.degree = .ok 4294967294 ∧
      ∃ cs, p.toCoeffs = .ok cs ∧ cs.length = 4294967295 ∧
        ofCoeffs cs = .error (.arithmetic .add) ∧ ofCoeffs cs ≠ .ok p := by
  intro p
  have hp : p.Canonical := by decide
  have hne : p ≠ zero := by decide
  have hlength := length_fill_zero hp (d := 4294967294) rfl
  have hrefused : ofCoeffs (fill 0 p.terms) = .error (.arithmetic .add) :=
    ofCoeffs_of_length_ge (le_of_eq hlength.symm)
  refine ⟨hp, hne, rfl, _, toCoeffs_of_ne_zero hne, hlength, hrefused, ?_⟩
  rw [hrefused]
  intro h
  cases h

end SparsePoly

end Univariate
