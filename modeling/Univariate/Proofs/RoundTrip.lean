import Univariate.Proofs.Scanning
import Univariate.Proofs.StrictLanguage
import Univariate.SparsePoly.Text

/-! # Reading canonical text back

The canonical text of a polynomial consists of its terms, from the highest exponent down, each as a
written term whose literals denote the magnitude and the exponent.  The scanner finds exactly these
written terms, the readers give the terms back, and the sum of the terms of a polynomial is the
polynomial in any order. -/

namespace Univariate

variable {w : Nat} {first : Bool} {offset : Nat} {cs tail : List Char}

def renderedPower (e : Exponent) : Option WrittenPower :=
  if e.val = 0 then none
  else if e.val = 1 then some ⟨false, none⟩
  else some ⟨false, some (Nat.toDigits 10 e.val)⟩

/-- The sign of a term as it stands in canonical text; a plus in front of all terms is left out. -/
def renderedSign (first negative : Bool) : Option Bool :=
  if first && !negative then none else some negative

def renderedTerm (first : Bool) (t : Term (Signed w)) : WrittenTerm where
  sign := renderedSign first (OrderedCoefficient.isNegative t.coeff)
  digits := Nat.toDigits 10 t.coeff.val.natAbs
  power := renderedPower t.exponent

def renderedTerms : (first : Bool) → List (Term (Signed w)) → List WrittenTerm
  | _, [] => []
  | first, t :: ts => renderedTerm first t :: renderedTerms false ts

theorem powerValue_renderedPower (e : Exponent) : powerValue (renderedPower e) = e.val := by
  rw [renderedPower]
  split
  · exact Eq.symm ‹_›
  · split
    · exact Eq.symm ‹_›
    · exact TermReader.literalValue_toDigits e.val

private theorem negative_renderedTerm (t : Term (Signed w)) :
    (renderedTerm first t).negative = OrderedCoefficient.isNegative t.coeff := by
  rw [WrittenTerm.negative, renderedTerm, renderedSign]
  cases first <;> cases OrderedCoefficient.isNegative t.coeff <;> rfl

theorem literalValue_renderedTerm (t : Term (Signed w)) :
    TermReader.literalValue (renderedTerm first t).digits = t.coeff.val.natAbs :=
  TermReader.literalValue_toDigits _

theorem value_renderedTerm (t : Term (Signed w)) :
    (renderedTerm first t).value = t.coeff.val := by
  rw [WrittenTerm.value, negative_renderedTerm, literalValue_renderedTerm]
  by_cases hneg : t.coeff.val < 0
  · rw [if_pos (Signed.isNegative_iff.2 hneg)]
    omega
  · rw [if_neg (mt Signed.isNegative_iff.1 hneg)]
    omega

theorem means_renderedTerm {t : Term (Signed w)}
    (h : t.coeff.val.natAbs ≤ TermReader.largestMagnitude) : (renderedTerm first t).Means t := by
  have hmagnitude : TermReader.literalValue (renderedTerm first t).digits ≤
      TermReader.largestMagnitude := by
    rw [literalValue_renderedTerm]
    exact h
  exact WrittenTerm.means_iff.2 ⟨hmagnitude, value_renderedTerm t, powerValue_renderedPower _⟩

def Writable (ts : List (Term (Signed w))) : Prop :=
  ∀ t ∈ ts, t.coeff.val.natAbs ≤ TermReader.largestMagnitude

theorem means_renderedTerms {ts : List (Term (Signed w))} (h : Writable ts) :
    List.Forall₂ WrittenTerm.Means (renderedTerms first ts) ts := by
  induction ts generalizing first with
  | nil => exact .nil
  | cons t ts ih =>
    exact .cons (means_renderedTerm (h t List.mem_cons_self))
      (ih fun u hu => h u (List.mem_cons_of_mem _ hu))

namespace SparsePoly

theorem admitted_renderedTerms {mode : ParseMode} {ts : List (Term (Signed w))} :
    Admitted mode first (renderedTerms first ts) := by
  induction ts generalizing first with
  | nil => trivial
  | cons t ts ih =>
    refine ⟨fun hrequired => ?_, ih⟩
    cases mode with
    | permissive => cases hrequired
    | strict =>
      cases first with
      | true => cases hrequired
      | false => rfl

private theorem digitFree_powerText {e : Exponent} (h : Token.DigitFree tail) :
    Token.DigitFree (Term.powerText e ++ tail) := by
  rw [Term.powerText]
  split
  · exact h
  · split
    · rintro c ⟨⟩
      rfl
    · rintro c ⟨⟩
      rfl

private theorem digitFree_renderTerms {ts : List (Term (Signed w))}
    (h : renderTerms false ts = .ok cs) :
    Token.DigitFree cs := by
  cases ts with
  | nil =>
    cases h
    intro c hc
    cases hc
  | cons t ts =>
    obtain ⟨magnitude, -, h⟩ := bind_eq_ok_iff.1 h
    obtain ⟨tail, -, h⟩ := bind_eq_ok_iff.1 h
    cases h
    cases OrderedCoefficient.isNegative t.coeff
    all_goals
      rintro c ⟨⟩
      rfl

private theorem spelled_digits (n : Nat) (h : Token.DigitFree tail) :
    ∃ next, Spelled [.literal (Nat.toDigits 10 n)]
      (Token.scanFrom offset (Nat.toDigits 10 n ++ tail)) (Token.scanFrom next tail) := by
  have hdigits : ∀ c ∈ Nat.toDigits 10 n, c.isDigit = true := fun c hc =>
    Nat.isDigit_of_mem_toDigits (by decide) (by decide) hc
  rw [Token.scanFrom_digits Nat.toDigits_ne_nil hdigits h]
  exact ⟨_, Spelled.nil.cons _⟩

private theorem spelled_powerText (e : Exponent) (h : Token.DigitFree tail) :
    ∃ next, Spelled (powerLexemes (renderedPower e))
      (Token.scanFrom offset (Term.powerText e ++ tail)) (Token.scanFrom next tail) := by
  rw [Term.powerText, renderedPower]
  split
  · exact ⟨offset, Spelled.nil⟩
  · split
    · exact ⟨_, Spelled.nil.cons .x⟩
    · obtain ⟨next, hspell⟩ := spelled_digits e.val h
      exact ⟨next, (hspell.cons .caret).cons .x⟩

private theorem spelled_signText (first negative : Bool) :
    ∃ next, Spelled (signLexemes (renderedSign first negative))
      (Token.scanFrom offset (signText first negative ++ tail)) (Token.scanFrom next tail) := by
  cases first <;> cases negative
  · exact ⟨_, Spelled.nil.cons .plus⟩
  · exact ⟨_, Spelled.nil.cons .minus⟩
  · exact ⟨offset, Spelled.nil⟩
  · exact ⟨_, Spelled.nil.cons .minus⟩

theorem spelled_renderTerms {ts : List (Term (Signed w))} (h : renderTerms first ts = .ok cs) :
    Spelled ((renderedTerms first ts).flatMap WrittenTerm.lexemes) (Token.scanFrom offset cs)
      [] := by
  induction ts generalizing first cs offset with
  | nil =>
    cases h
    exact Spelled.nil
  | cons t ts ih =>
    obtain ⟨magnitude, habs, h⟩ := bind_eq_ok_iff.1 h
    obtain ⟨tail, htail, h⟩ := bind_eq_ok_iff.1 h
    cases h
    have hval : magnitude.val = t.coeff.val.natAbs := Signed.val_of_abs habs
    have hfree : Token.DigitFree tail := digitFree_renderTerms htail
    have htext : WrittenCoefficient.text magnitude = Nat.toDigits 10 t.coeff.val.natAbs := by
      rw [Signed.text_of_nonneg (by omega), hval, Int.natAbs_natCast]
    rw [Term.text, htext, List.append_assoc, List.append_assoc]
    -- Sign, magnitude and power are scanned one behind the other; no digit follows a literal.
    obtain ⟨next, hsign⟩ := spelled_signText first (OrderedCoefficient.isNegative t.coeff)
    obtain ⟨next, hdigits⟩ := spelled_digits t.coeff.val.natAbs (digitFree_powerText hfree)
    obtain ⟨next, hpower⟩ := spelled_powerText t.exponent hfree
    have hterm : Spelled (renderedTerm first t).lexemes _ _ :=
      spelled_append.2 ⟨_, hsign, spelled_append.2 ⟨_, hdigits, hpower⟩⟩
    exact spelled_append.2 ⟨_, hterm, ih htail⟩

/-- The readers give back the terms of canonical text if the magnitudes can be written. -/
theorem readTerms_renderTerms {mode : ParseMode} {ts : List (Term (Signed w))}
    (h : renderTerms true ts = .ok cs) (hwritable : Writable ts) :
    readTerms mode true (Token.scanFrom offset cs) = (ts, mode.endError? ts.isEmpty) := by
  rw [readTerms_of_spelled rfl admitted_renderedTerms (spelled_renderTerms h)
    (means_renderedTerms hwritable), readTerms_nil, List.append_nil]
  cases ts <;> rfl

private theorem renderTerms_eq_error_iff {ts : List (Term (Signed w))} {f : Fault} :
    renderTerms first ts = .error f ↔
      f = .arithmetic .negate ∧ ∃ t ∈ ts, t.coeff = Signed.least := by
  induction ts generalizing first with
  | nil => simp [renderTerms]
  | cons t ts ih =>
    rw [renderTerms, bind_eq_error_iff]
    constructor
    · rintro (habs | ⟨magnitude, -, h⟩)
      · obtain ⟨rfl, hleast⟩ := Signed.abs_eq_error_iff.1 habs
        exact ⟨rfl, t, List.mem_cons_self, hleast⟩
      · rcases bind_eq_error_iff.1 h with htail | ⟨tail, -, h⟩
        · obtain ⟨rfl, u, hu, hleast⟩ := ih.1 htail
          exact ⟨rfl, u, List.mem_cons_of_mem _ hu, hleast⟩
        · cases h
    · rintro ⟨rfl, u, hu, hleast⟩
      rcases List.mem_cons.1 hu with rfl | hu
      · exact .inl (Signed.abs_eq_error_iff.2 ⟨rfl, hleast⟩)
      · cases habs : OrderedCoefficient.abs t.coeff with
        | error f => exact .inl (by rw [(Signed.abs_eq_error_iff.1 habs).1])
        | ok magnitude =>
          exact .inr ⟨magnitude, rfl, bind_eq_error_iff.2 (.inl (ih.2 ⟨rfl, u, hu, hleast⟩))⟩

variable {p : SparsePoly (Signed w)} {text : String}

theorem render_eq_error_iff {f : Fault} : p.render = .error f ↔
    f = .arithmetic .negate ∧ ∃ t ∈ p.terms, t.coeff = Signed.least := by
  rw [render, bind_eq_error_iff, renderTerms_eq_error_iff]
  simp only [List.mem_reverse]
  constructor
  · rintro (h | ⟨cs, -, h⟩)
    · exact h
    · cases h
  · exact .inl

theorem readTerms_render {mode : ParseMode} (h : p.render = .ok text)
    (hwritable : Writable p.terms) :
    readTerms mode true (Token.scan text) = (p.terms.reverse, mode.endError? p.isZero) := by
  obtain ⟨cs, hcs, h⟩ := bind_eq_ok_iff.1 h
  cases h
  rw [Token.scan, String.toList_ofList, isZero, ← List.isEmpty_reverse]
  exact readTerms_renderTerms hcs fun t ht => hwritable t (List.mem_reverse.1 ht)

theorem parse_of_render (hp : p.Canonical) (h : p.render = .ok text)
    (hwritable : Writable p.terms) : parse text = .ok p := by
  rw [parse, readTerms_render h hwritable]
  exact ofTerms_perm hp (List.reverse_perm p.terms)

theorem parseWith_of_render (hp : p.Canonical) (h : p.render = .ok text)
    (hwritable : Writable p.terms) (hne : p.isZero = false) : parseWith .strict text = .ok p := by
  have hread : readTerms .strict true (Token.scan text) = (p.terms.reverse, none) := by
    rw [readTerms_render h hwritable, hne, ParseMode.endError?_false]
  rw [parseWith_of_readTerms hread, ofTerms_perm hp (List.reverse_perm p.terms), attempt_ok]

private theorem natAbs_le_largestMagnitude (hw : w ≤ 64) {x : Signed w} (h : x ≠ Signed.least) :
    x.val.natAbs ≤ TermReader.largestMagnitude := by
  have hhalf : halfRange w ≤ 9223372036854775808 :=
    Nat.pow_le_pow_right (by decide : 0 < 2) (by omega : w - 1 ≤ 63)
  have hne : x.val ≠ -(halfRange w : Int) := fun heq => h (Signed.ext heq)
  obtain ⟨hlow, hhigh⟩ := x.fits
  rw [TermReader.largestMagnitude]
  omega

/-- Over words of at most 64 bits canonical text exists unless the least word is stored, and then it
is read back as the polynomial that it was written for.  The strict mode refuses only the empty text
of the zero polynomial. -/
theorem parse_render (hw : w ≤ 64) (hp : p.Canonical) :
    ((∃ t ∈ p.terms, t.coeff = Signed.least) → p.render = .error (.arithmetic .negate)) ∧
    ((∀ t ∈ p.terms, t.coeff ≠ Signed.least) →
      ∃ text, p.render = .ok text ∧ parse text = .ok p ∧
        (p ≠ zero → parseWith .strict text = .ok p) ∧
        (p = zero → text = "" ∧
          parseWith (C := Signed w) .strict text = .error (.reported .noTerms))) := by
  constructor
  · intro hleast
    exact render_eq_error_iff.2 ⟨rfl, hleast⟩
  · intro hleast
    have hwritable : Writable p.terms := fun t ht => natAbs_le_largestMagnitude hw (hleast t ht)
    cases hrender : p.render with
    | error f =>
      obtain ⟨-, t, ht, heq⟩ := render_eq_error_iff.1 hrender
      exact absurd heq (hleast t ht)
    | ok text =>
      refine ⟨text, rfl, parse_of_render hp hrender hwritable, fun hne => ?_, ?_⟩
      · refine parseWith_of_render hp hrender hwritable (Bool.eq_false_iff.2 fun hzero => ?_)
        exact hne (congrArg SparsePoly.mk (List.isEmpty_iff.1 hzero))
      · rintro rfl
        have hempty : readTerms .strict true (Token.scan text) = ([], some .noTerms) :=
          readTerms_render hrender hwritable
        cases hrender
        exact ⟨rfl, parseWith_of_readTerms_error hempty rfl⟩

theorem parse_render_four_terms :
    ∃ p : SparsePoly (Signed 64), p.size = 4 ∧ ∃ text, p.render = .ok text ∧
      parse text = .ok p ∧ parseWith .strict text = .ok p := by
  have hp : Canonical (C := Signed 64) ⟨[⟨0, ⟨-5, by decide⟩⟩, ⟨1, ⟨-1, by decide⟩⟩,
      ⟨3, ⟨9223372036854775807, by decide⟩⟩, ⟨4294967295, ⟨-9, by decide⟩⟩]⟩ := by decide
  obtain ⟨text, hrender, hparse, hstrict, -⟩ := (parse_render (by decide) hp).2 (by decide)
  exact ⟨_, rfl, text, hrender, hparse, hstrict (by decide)⟩

end SparsePoly

end Univariate
