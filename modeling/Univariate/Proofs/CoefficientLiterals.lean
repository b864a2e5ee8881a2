import Univariate.Proofs.Scanning
import Univariate.Proofs.Stages

/-! # Literals of coefficients

The strict mode reads a row of written terms from the left to the right up to the first literal that
is out of range.  The stage behind the terms before tells whether it gets as far as a certain
literal, and the offset, which no other token shares, whether an error is about this literal.  Words
of 64 bits are one longer below zero than the bound on literals, so of the words of at most 64 bits
the least word of 64 bits is the only one that is refused. -/

namespace Univariate

namespace Stage

variable {C : Type} [Coefficient C] {stage next : Stage} {sign : Option Bool} {t : WrittenTerm}
  {power : Option WrittenPower}

/-- The stage behind a sign, or at the start where none is written. -/
def ofSign : Option Bool → Stage
  | none => start
  | some negative => .sign negative

private theorem takesSign_of_complete (h : stage.complete = true) : stage.takesSign = true := by
  rw [takesSign, h, Bool.or_true]

private theorem run_signLexemes (htakes : stage.takesSign = true)
    (hstart : sign = none → stage = start) :
    run C stage (signLexemes sign) = some (ofSign sign) := by
  rcases sign with - | (- | -)
  · rw [hstart rfl]
    rfl
  · exact (run_singleton _).trans (if_pos htakes)
  · exact (run_singleton _).trans (if_pos htakes)

private theorem advance_ofSign (sign : Option Bool) (digits : List Char) :
    (ofSign sign).advance C (.literal digits) =
      (TermReader.coefficient? (C := C) (sign.getD false) digits).map fun _ => coefficient := by
  cases sign <;> rfl

private theorem refusal_ofSign (sign : Option Bool) (digits : List Char) (offset : Nat) :
    (ofSign sign).refusal ⟨.literal digits, offset⟩ =
      .integerOverflow offset (String.ofList digits) := by
  cases sign <;> rfl

private theorem run_exponentLexemes {exponent : Option (List Char)}
    (h : run C x (exponentLexemes exponent) = some next) :
    exponentValue exponent < 2 ^ 32 ∧ next.complete = true := by
  cases exponent with
  | none =>
    cases h
    exact ⟨by decide, rfl⟩
  | some digits =>
    obtain ⟨e, he, rfl⟩ := Option.map_eq_some_iff.1 ((run_singleton _).symm.trans h)
    rw [exponentValue, Exponent.ofNat?_eq_some_iff.1 he]
    exact ⟨e.isLt, rfl⟩

private theorem run_powerLexemes (h : run C coefficient (powerLexemes power) = some next) :
    powerValue power < 2 ^ 32 ∧ next.complete = true := by
  rcases power with - | ⟨star, exponent⟩
  · cases h
    exact ⟨by decide, rfl⟩
  · cases star <;> exact run_exponentLexemes h

theorem run_lexemes (htakes : stage.takesSign = true) (hstart : t.sign = none → stage = start)
    (h : run C stage t.lexemes = some next) :
    (∃ term : Term C, t.Means term) ∧ next.complete = true := by
  rw [WrittenTerm.lexemes, run_append, run_signLexemes htakes hstart, Option.bind_some, run_cons,
    advance_ofSign] at h
  obtain ⟨behind, hliteral, hpower⟩ := Option.bind_eq_some_iff.1 h
  obtain ⟨c, hc, rfl⟩ := Option.map_eq_some_iff.1 hliteral
  obtain ⟨hlt, hcomplete⟩ := run_powerLexemes hpower
  exact ⟨⟨⟨⟨t.exponent, hlt⟩, c⟩, hc, rfl⟩, hcomplete⟩

/-- Only behind terms that mean something a literal in a row is reached, and then behind its
sign. -/
theorem run_before {first : Bool} {before after : List WrittenTerm}
    (hadmitted : SparsePoly.Admitted .strict first (before ++ t :: after))
    (htakes : stage.takesSign = true) (hfirst : first = true → stage = start)
    (h : run C stage (before.flatMap WrittenTerm.lexemes ++ signLexemes t.sign) = some next) :
    (∀ u ∈ before, ∃ term : Term C, u.Means term) ∧ next = ofSign t.sign := by
  induction before generalizing stage first with
  | nil =>
    have hstart : t.sign = none → stage = start := fun hnone =>
      hfirst (SparsePoly.first_of_admitted_strict hadmitted hnone)
    rw [List.flatMap_nil, List.nil_append, run_signLexemes htakes hstart] at h
    cases h
    exact ⟨nofun, rfl⟩
  | cons u before ih =>
    have hstart : u.sign = none → stage = start := fun hnone =>
      hfirst (SparsePoly.first_of_admitted_strict hadmitted hnone)
    rw [List.flatMap_cons, List.append_assoc, run_append] at h
    obtain ⟨mid, hterm, hrest⟩ := Option.bind_eq_some_iff.1 h
    obtain ⟨hmeans, hcomplete⟩ := run_lexemes htakes hstart hterm
    obtain ⟨hbefore, hnext⟩ := ih hadmitted.2 (takesSign_of_complete hcomplete) nofun hrest
    exact ⟨List.forall_mem_cons.2 ⟨hmeans, hbefore⟩, hnext⟩

end Stage

namespace SparsePoly

section Row

variable {C : Type} [Coefficient C] {t : WrittenTerm} {before after : List WrittenTerm}
  {tokens rest : List Token} {offset : Nat} {literal : String}

theorem readTerms_strict_integerOverflow_iff
    (hadmitted : Admitted .strict true (before ++ t :: after))
    (hspell : Spelled (before.flatMap WrittenTerm.lexemes ++ signLexemes t.sign) tokens
      (⟨.literal t.digits, offset⟩ :: rest))
    (hoffsets : tokens.Pairwise fun s t => s.offset < t.offset) :
    (readTerms (C := C) .strict true tokens).2 = some (.integerOverflow offset literal) ↔
      literal = String.ofList t.digits ∧ (∀ u ∈ before, ∃ term : Term C, u.Means term) ∧
        TermReader.coefficient? (C := C) t.negative t.digits = none := by
  constructor
  · intro h
    rw [readTerms_strict_start] at h
    obtain ⟨used, rfl, hused⟩ := hspell
    obtain ⟨stage, hrun, hadvance, hrefusal⟩ := Stage.refusal_of_integerOverflow hoffsets h
    rw [hused] at hrun
    obtain ⟨hbefore, rfl⟩ := Stage.run_before hadmitted rfl (fun _ => rfl) hrun
    rw [Stage.advance_ofSign, Option.map_eq_none_iff] at hadvance
    rw [Stage.refusal_ofSign] at hrefusal
    cases hrefusal
    exact ⟨rfl, hbefore, hadvance⟩
  · rintro ⟨rfl, hbefore, hcoeff⟩
    obtain ⟨terms, hmeans⟩ := exists_forall₂_iff.2 hbefore
    rw [readTerms_strict_of_refused hadmitted hspell hmeans hcoeff]

end Row

private theorem exists_ofTerms_iff {w : Nat} {ts : List WrittenTerm}
    {terms : List (Term (Signed w))}
    (h : List.Forall₂ WrittenTerm.Means ts terms) :
    (∃ p, ofTerms terms = .ok p) ↔ ∀ n e, Fits w (writtenSum (ts.take n) e) := by
  have htake : ∀ n e, exactSum (terms.take n) e = writtenSum (ts.take n) e := fun n =>
    exactSum_eq_writtenSum (List.forall₂_take n h)
  simp only [← htake]
  constructor
  · rintro ⟨p, hp⟩ n e
    by_contra hfits
    rw [ofTerms_eq_error hfits] at hp
    cases hp
  · intro hfits
    obtain ⟨p, hp, -⟩ := ofTerms_eq_ok hfits
    exact ⟨p, hp⟩

end SparsePoly

private theorem halfRange_le {w : Nat} (hw : w < 64) :
    halfRange w ≤ TermReader.largestMagnitude := by
  have hle : halfRange w ≤ 2 ^ 62 := Nat.pow_le_pow_right (by decide) (by omega)
  have hlt : 2 ^ 62 ≤ TermReader.largestMagnitude := by decide
  omega

/-- The sign is applied behind the bound on literals, which the least word of 64 bits exceeds. -/
theorem WrittenTerm.coefficient?_eq_none_iff {w : Nat} (hw : w ≤ 64) {t : WrittenTerm} :
    TermReader.coefficient? (C := Signed w) t.negative t.digits = none ↔
      ¬ Fits w t.value ∨ w = 64 ∧ t.value = (Signed.least : Signed 64).val := by
  have hleast : (Signed.least : Signed 64).val = -(TermReader.largestMagnitude + 1 : Nat) := rfl
  have hvalue : t.value = TermReader.literalValue t.digits ∨
      t.value = -(TermReader.literalValue t.digits : Int) := by
    rw [WrittenTerm.value]
    split <;> simp
  rw [TermReader.coefficient?]
  split
  · -- A magnitude within the bound is not that of the least word.
    have hne : t.value ≠ (Signed.least : Signed 64).val := by omega
    simp only [hne, and_false, or_false]
    exact Signed.ofInt?_eq_none_iff
  · rename_i hgt
    simp only [true_iff]
    by_cases hlt : w < 64
    · have hle := halfRange_le hlt
      left
      rintro ⟨hlow, hhigh⟩
      omega
    · obtain rfl : w = 64 := by omega
      have hhalf : halfRange 64 = TermReader.largestMagnitude + 1 := rfl
      rw [Fits]
      omega

theorem WrittenTerm.inRange_of_fits {w : Nat} (hw : w ≤ 64) {t : WrittenTerm}
    (hfits : Fits w t.value) (hne : ¬ (w = 64 ∧ t.value = (Signed.least : Signed 64).val))
    (hlt : t.exponent < 2 ^ 32) : t.InRange w := by
  refine ⟨?_, hfits, hlt⟩
  by_contra hgt
  have hnone : TermReader.coefficient? (C := Signed w) t.negative t.digits = none := by
    rw [TermReader.coefficient?, if_neg hgt]
  rcases (coefficient?_eq_none_iff hw).1 hnone with hout | hleast
  · exact hout hfits
  · exact hne hleast

/-- The tokens of a text are one or more written terms in a row, all but the first with a sign.  The
literals may be out of range. -/
structure IsRow (text : String) (ts : List WrittenTerm) : Prop where
  nonempty : ts ≠ []
  signed : ∀ t ∈ ts.tail, t.sign.isSome = true
  spelled : (Token.scan text).map Token.lexeme = ts.flatMap WrittenTerm.lexemes

/-- Behind certain terms the literal of the coefficient of a term stands at an offset. -/
def CoefficientAt (text : String) (before : List WrittenTerm) (t : WrittenTerm) (offset : Nat) :
    Prop :=
  ∃ rest, Spelled (before.flatMap WrittenTerm.lexemes ++ signLexemes t.sign) (Token.scan text)
    (⟨.literal t.digits, offset⟩ :: rest)

theorem IsRow.exists_coefficientAt {text : String} {before after : List WrittenTerm}
    {t : WrittenTerm} (h : IsRow text (before ++ t :: after)) :
    ∃ offset, CoefficientAt text before t offset := by
  obtain ⟨offset, rest, hspell⟩ := SparsePoly.exists_literal_of_spelled (spelled_all.2 h.spelled)
  exact ⟨offset, rest, hspell⟩

namespace SparsePoly

variable {w : Nat} {text : String} {ts before after : List WrittenTerm} {t : WrittenTerm}
  {offset : Nat} {literal : String}

/-- A literal is reported if it is the first in a row that is out of range, and no sum before it
is. -/
theorem parseWith_strict_integerOverflow_iff (hrow : IsRow text (before ++ t :: after))
    (hat : CoefficientAt text before t offset) :
    parseWith (C := Signed w) .strict text =
        .error (.reported (.integerOverflow offset literal)) ↔
      literal = String.ofList t.digits ∧ (∀ u ∈ before, u.InRange w) ∧
        (∀ n e, Fits w (writtenSum (before.take n) e)) ∧
        TermReader.coefficient? (C := Signed w) t.negative t.digits = none := by
  have hadmitted := admitted_strict_true_iff.2 hrow.signed
  obtain ⟨rest, hspell⟩ := hat
  rw [parseWith_eq_reported_iff, readTerms_strict_integerOverflow_iff hadmitted hspell
    (Token.pairwise_scanFrom 0 _)]
  simp only [← WrittenTerm.inRange_iff]
  constructor
  · rintro ⟨⟨hliteral, hbefore, hcoeff⟩, hsum⟩
    obtain ⟨terms, hmeans⟩ := WrittenTerm.forall_inRange_iff.1 hbefore
    rw [readTerms_strict_of_refused hadmitted hspell hmeans hcoeff,
      exists_ofTerms_iff hmeans] at hsum
    exact ⟨hliteral, hbefore, hsum, hcoeff⟩
  · rintro ⟨hliteral, hbefore, hsum, hcoeff⟩
    obtain ⟨terms, hmeans⟩ := WrittenTerm.forall_inRange_iff.1 hbefore
    rw [readTerms_strict_of_refused hadmitted hspell hmeans hcoeff, exists_ofTerms_iff hmeans]
    exact ⟨⟨hliteral, hbefore, hcoeff⟩, hsum⟩

/-- The literal of a coefficient is reported at its offset exactly if nothing in front of it stops
the reading and the signed number is no word, or is the least word of 64 bits.  If this holds of no
literal, every coefficient is read as the signed number that is written. -/
theorem parseWith_strict_coefficient_literals (hw : w ≤ 64) (hrow : IsRow text ts) :
    (∀ before t after, ts = before ++ t :: after →
      (∃ offset, CoefficientAt text before t offset) ∧
      ∀ offset, CoefficientAt text before t offset → ∀ literal,
        (parseWith (C := Signed w) .strict text =
            .error (.reported (.integerOverflow offset literal)) ↔
          literal = String.ofList t.digits ∧ (∀ u ∈ before, u.InRange w) ∧
            (∀ n e, Fits w (writtenSum (before.take n) e)) ∧
            (¬ Fits w t.value ∨ w = 64 ∧ t.value = (Signed.least : Signed 64).val))) ∧
    ((∀ t ∈ ts, Fits w t.value ∧ ¬ (w = 64 ∧ t.value = (Signed.least : Signed 64).val) ∧
        t.exponent < 2 ^ 32) →
      ∃ terms : List (Term (Signed w)),
        List.Forall₂ (fun t u => t.value = u.coeff.val ∧ t.exponent = u.exponent.val) ts terms ∧
        parseWith .strict text = attempt (ofTerms terms)) := by
  constructor
  · rintro before t after rfl
    refine ⟨hrow.exists_coefficientAt, fun offset hat literal => ?_⟩
    rw [parseWith_strict_integerOverflow_iff hrow hat, WrittenTerm.coefficient?_eq_none_iff hw]
  · intro hvalues
    have hs : Sentence w ts := by
      refine ⟨hrow.nonempty, hrow.signed, fun t ht => ?_⟩
      obtain ⟨hfits, hne, hlt⟩ := hvalues t ht
      exact WrittenTerm.inRange_of_fits hw hfits hne hlt
    obtain ⟨terms, hmeans, hparse⟩ := parseWith_of_sentence hs hrow.spelled
    exact ⟨terms, hmeans.imp fun t term h => (WrittenTerm.means_iff.1 h).2, hparse⟩

/-- The least word of 32 bits can be written, also with zeros in front.  Its magnitude without the
sign is refused over words of 32 bits, and read over words of 64 bits. -/
theorem parseWith_strict_coefficient_literals_zeros :
    let text := "1 - 002147483648x + 2147483648"
    let ts : List WrittenTerm := [⟨none, ['1'], none⟩,
      ⟨some true, ['0', '0', '2', '1', '4', '7', '4', '8', '3', '6', '4', '8'], some ⟨false, none⟩⟩,
      ⟨some false, ['2', '1', '4', '7', '4', '8', '3', '6', '4', '8'], none⟩]
    IsRow text ts ∧
    (∀ literal, parseWith (C := Signed 32) .strict text ≠
      .error (.reported (.integerOverflow 4 literal))) ∧
    parseWith (C := Signed 32) .strict text =
      .error (.reported (.integerOverflow 20 "2147483648")) ∧
    ∃ terms : List (Term (Signed 64)),
      List.Forall₂ (fun t u => t.value = u.coeff.val ∧ t.exponent = u.exponent.val) ts terms ∧
      parseWith .strict text = attempt (ofTerms terms) := by
  intro text ts
  have hrow : IsRow text ts := ⟨by decide, by decide, by decide⟩
  obtain ⟨hnarrow, -⟩ := parseWith_strict_coefficient_literals (w := 32) (by decide) hrow
  obtain ⟨-, hwide⟩ := parseWith_strict_coefficient_literals (w := 64) (by decide) hrow
  have hat : CoefficientAt text (ts.take 1) ts[1] 4 :=
    ⟨(Token.scan text).drop 3, (Token.scan text).take 2, by decide, by decide⟩
  refine ⟨hrow, fun literal h => ?_, by decide +kernel, hwide (by decide)⟩
  obtain ⟨-, -, -, hout⟩ := ((hnarrow _ _ (ts.drop 2) rfl).2 4 hat literal).1 h
  exact absurd hout (by decide)

/-- The least word of 64 bits is a word and is refused, unlike that of 32 bits. -/
theorem parseWith_strict_least_word_refused :
    let t : WrittenTerm := ⟨some true, "9223372036854775808".toList, none⟩
    IsRow "-9223372036854775808" [t] ∧ CoefficientAt "-9223372036854775808" [] t 1 ∧
    Fits 64 t.value ∧
    parseWith (C := Signed 64) .strict "-9223372036854775808" =
      .error (.reported (.integerOverflow 1 "9223372036854775808")) ∧
    parseWith (C := Signed 32) .strict "-2147483648" = .ok ⟨[⟨0, Signed.least⟩]⟩ := by
  intro t
  refine ⟨⟨by decide, by decide, by decide⟩, ?_, by decide, by decide +kernel, by decide +kernel⟩
  exact ⟨[], [⟨.minus, 0⟩], by decide, rfl⟩

end SparsePoly

end Univariate
