import Univariate.Proofs.RunningSums
import Univariate.Proofs.TermGrammar
import Univariate.SparsePoly.Text

/-! # The language of the strict mode

A text is accepted exactly if its tokens are one or more written terms in a row, all but the first
with a sign and all with literals in range.  What is returned then is the exact sum of the terms,
and nothing is returned exactly if a sum on the way from the left to the right is out of range. -/

namespace Univariate

namespace SparsePoly

variable {C : Type} [Coefficient C] {mode : ParseMode} {first : Bool} {tokens rest : List Token}
  {ts : List WrittenTerm} {terms : List (Term C)}

/-- Every term has a sign where the mode asks for one. -/
def Admitted (mode : ParseMode) : Bool → List WrittenTerm → Prop
  | _, [] => True
  | first, t :: ts =>
    (mode.signRequired first = true → t.sign.isSome = true) ∧ Admitted mode false ts

theorem admitted_append {us : List WrittenTerm} : Admitted mode first (ts ++ us) ↔
    Admitted mode first ts ∧ Admitted mode (first && ts.isEmpty) us := by
  induction ts generalizing first with
  | nil => simp [Admitted]
  | cons t ts ih => simp [Admitted, ih, and_assoc]

theorem first_of_admitted_strict {t : WrittenTerm} (h : Admitted .strict first (t :: ts))
    (hnone : t.sign = none) : first = true := by
  cases first with
  | true => rfl
  | false =>
    have hsome : t.sign.isSome = true := h.1 rfl
    rw [hnone] at hsome
    cases hsome

theorem endsTerm_of_spelled (hend : TermReader.endsTerm rest = true)
    (h : Spelled (ts.flatMap WrittenTerm.lexemes) tokens rest) :
    TermReader.endsTerm tokens = true := by
  cases ts with
  | nil => exact spelled_nil.1 h ▸ hend
  | cons t ts =>
    obtain ⟨sign, digits, power⟩ := t
    rcases sign with - | (- | -)
    all_goals
      obtain ⟨offset, behind, rfl, -⟩ := spelled_cons.1 h
      rfl

/-- A row of written terms is read from the left to the right, in either mode. -/
theorem readTerms_of_spelled (hend : TermReader.endsTerm rest = true)
    (hadmitted : Admitted mode first ts)
    (hspell : Spelled (ts.flatMap WrittenTerm.lexemes) tokens rest)
    (hmeans : List.Forall₂ WrittenTerm.Means ts terms) :
    readTerms mode first tokens =
      (terms ++ (readTerms mode (first && ts.isEmpty) rest).1,
        (readTerms (C := C) mode (first && ts.isEmpty) rest).2) := by
  induction hmeans generalizing first tokens with
  | nil =>
    rw [spelled_nil.1 hspell, List.nil_append, List.isEmpty_nil, Bool.and_true]
  | @cons t term ts terms ht hts ih =>
    obtain ⟨mid, hterm, hmid⟩ := spelled_append.1 hspell
    -- The tokens behind the term begin with a sign or a literal, or there are none of this row.
    have hread : TermReader.readTerm (mode.signRequired first) tokens = .ok (term, mid) :=
      TermReader.readTerm_eq_ok_iff.2
        ⟨endsTerm_of_spelled hend hmid, t, hadmitted.1, hterm, ht⟩
    cases tokens with
    | nil =>
      have := TermReader.length_lt_of_readTerm hread
      cases this
    | cons token behind =>
      rw [readTerms_cons_of_ok hread, ih hadmitted.2 hmid, Bool.false_and, List.isEmpty_cons,
        Bool.and_false, List.cons_append]

theorem exists_literal_of_spelled {t : WrittenTerm} {before after : List WrittenTerm}
    (h : Spelled ((before ++ t :: after).flatMap WrittenTerm.lexemes) tokens []) :
    ∃ offset rest, Spelled (before.flatMap WrittenTerm.lexemes ++ signLexemes t.sign) tokens
      (⟨.literal t.digits, offset⟩ :: rest) := by
  rw [List.flatMap_append, List.flatMap_cons, WrittenTerm.lexemes, List.append_assoc,
    ← List.append_assoc] at h
  obtain ⟨mid, hfront, hmid⟩ := spelled_append.1 h
  obtain ⟨offset, rest, rfl, -⟩ := spelled_cons.1 hmid
  exact ⟨offset, rest, hfront⟩

private theorem exists_cons_of_spelled_sign {sign : Option Bool} {digits : List Char} {offset : Nat}
    (h : Spelled (signLexemes sign) tokens (⟨.literal digits, offset⟩ :: rest)) :
    ∃ token behind, tokens = token :: behind ∧ TermReader.endsTerm (token :: behind) = true := by
  rcases sign with - | (- | -)
  · exact ⟨_, rest, spelled_nil.1 h, rfl⟩
  · obtain ⟨place, behind, rfl, -⟩ := spelled_cons.1 h
    exact ⟨_, behind, rfl, rfl⟩
  · obtain ⟨place, behind, rfl, -⟩ := spelled_cons.1 h
    exact ⟨_, behind, rfl, rfl⟩

theorem readTerms_strict_of_refused {t : WrittenTerm}
    {before after : List WrittenTerm} {offset : Nat}
    (hadmitted : Admitted .strict first (before ++ t :: after))
    (hspell : Spelled (before.flatMap WrittenTerm.lexemes ++ signLexemes t.sign) tokens
      (⟨.literal t.digits, offset⟩ :: rest))
    (hmeans : List.Forall₂ WrittenTerm.Means before terms)
    (hcoeff : TermReader.coefficient? (C := C) t.negative t.digits = none) :
    readTerms .strict first tokens =
      (terms, some (.integerOverflow offset (String.ofList t.digits))) := by
  obtain ⟨hbefore, hrequired, -⟩ := admitted_append.1 hadmitted
  obtain ⟨mid, hterms, hsign⟩ := spelled_append.1 hspell
  obtain ⟨token, behind, rfl, hend⟩ := exists_cons_of_spelled_sign hsign
  have hread := TermReader.readTerm_of_refused hrequired hsign hcoeff
  rw [readTerms_of_spelled hend hbefore hterms hmeans, readTerms_strict_of_error hread,
    List.append_nil]

/-- What the strict mode reads up to the end of the text is a row of written terms. -/
theorem spelled_of_readTerms_strict (h : readTerms .strict first tokens = (terms, none)) :
    ∃ ts, Admitted .strict first ts ∧ (first = true → ts ≠ []) ∧
      Spelled (ts.flatMap WrittenTerm.lexemes) tokens [] ∧
      List.Forall₂ WrittenTerm.Means ts terms := by
  -- The reader goes on behind a whole term, so the induction is on the number of tokens.
  induction hn : tokens.length using Nat.strongRecOn generalizing first tokens terms with
  | ind n ih =>
    cases tokens with
    | nil =>
      rw [readTerms_nil] at h
      cases first with
      | true => cases h
      | false =>
        cases h
        exact ⟨[], trivial, fun h => absurd h Bool.false_ne_true, Spelled.nil, .nil⟩
    | cons token behind =>
      cases hread : TermReader.readTerm (C := C) (ParseMode.strict.signRequired first)
          (token :: behind) with
      | error refusal =>
        rw [readTerms_strict_of_error hread] at h
        cases h
      | ok result =>
        obtain ⟨term, mid⟩ := result
        rw [readTerms_cons_of_ok hread] at h
        obtain ⟨rfl, hrest⟩ := Prod.mk.inj h
        have hlt : mid.length < n := hn ▸ TermReader.length_lt_of_readTerm hread
        obtain ⟨ts, hadmitted, -, hspell, hmeans⟩ := ih _ hlt (Prod.ext rfl hrest) rfl
        obtain ⟨-, t, hsign, hterm, ht⟩ := TermReader.readTerm_eq_ok_iff.1 hread
        exact ⟨t :: ts, ⟨hsign, hadmitted⟩, fun _ => List.cons_ne_nil t ts,
          spelled_append.2 ⟨mid, hterm, hspell⟩, .cons ht hmeans⟩

theorem readTerms_strict_eq_none_iff : readTerms .strict true tokens = (terms, none) ↔
    ∃ ts, Admitted .strict true ts ∧ ts ≠ [] ∧ tokens.map Token.lexeme =
      ts.flatMap WrittenTerm.lexemes ∧ List.Forall₂ WrittenTerm.Means ts terms := by
  constructor
  · intro h
    obtain ⟨ts, hadmitted, hne, hspell, hmeans⟩ := spelled_of_readTerms_strict h
    exact ⟨ts, hadmitted, hne rfl, spelled_all.1 hspell, hmeans⟩
  · rintro ⟨ts, hadmitted, hne, hspell, hmeans⟩
    rw [readTerms_of_spelled rfl hadmitted (spelled_all.2 hspell) hmeans, readTerms_nil]
    cases ts with
    | nil => exact absurd rfl hne
    | cons t ts => rw [List.append_nil]; rfl

end SparsePoly

namespace WrittenTerm

/-- The literals denote a signed word and an exponent. -/
def InRange (w : Nat) (t : WrittenTerm) : Prop :=
  TermReader.literalValue t.digits ≤ TermReader.largestMagnitude ∧ Fits w t.value ∧
    t.exponent < 2 ^ 32

variable {w : Nat} {t : WrittenTerm}

theorem means_iff {term : Term (Signed w)} : t.Means term ↔
    TermReader.literalValue t.digits ≤ TermReader.largestMagnitude ∧ t.value = term.coeff.val ∧
      t.exponent = term.exponent.val := by
  rw [Means, TermReader.coefficient?, ← and_assoc]
  apply and_congr_left
  intro _
  split
  · rename_i hle
    rw [and_iff_right hle]
    exact Signed.ofInt?_eq_some_iff
  · rename_i hgt
    simp [hgt]

theorem inRange_iff : t.InRange w ↔ ∃ term : Term (Signed w), t.Means term := by
  constructor
  · rintro ⟨hle, hfits, hlt⟩
    exact ⟨⟨⟨t.exponent, hlt⟩, ⟨t.value, hfits⟩⟩, means_iff.2 ⟨hle, rfl, rfl⟩⟩
  · rintro ⟨term, hmeans⟩
    obtain ⟨hle, hvalue, hexponent⟩ := means_iff.1 hmeans
    exact ⟨hle, hvalue ▸ term.coeff.fits, hexponent ▸ term.exponent.isLt⟩

theorem forall_inRange_iff {ts : List WrittenTerm} : (∀ t ∈ ts, t.InRange w) ↔
    ∃ terms : List (Term (Signed w)), List.Forall₂ Means ts terms := by
  simp only [inRange_iff, exists_forall₂_iff]

end WrittenTerm

/-- The exact sum of the signed numbers in front of a power. -/
def writtenSum (ts : List WrittenTerm) (e : Exponent) : Int :=
  (ts.map fun t => if t.exponent = e.val then t.value else 0).sum

theorem exactSum_eq_writtenSum {w : Nat} {ts : List WrittenTerm} {terms : List (Term (Signed w))}
    (h : List.Forall₂ WrittenTerm.Means ts terms) (e : Exponent) :
    exactSum terms e = writtenSum ts e := by
  induction h with
  | nil => rfl
  | @cons t term ts terms ht hts ih =>
    obtain ⟨-, hvalue, hexponent⟩ := WrittenTerm.means_iff.1 ht
    rw [exactSum_cons, ih, writtenSum, writtenSum, List.map_cons, List.sum_cons, hvalue, hexponent]
    simp only [Fin.ext_iff]

/-- One or more written terms in a row, all but the first with a sign, that denote terms over
signed words of `w` bits. -/
structure Sentence (w : Nat) (ts : List WrittenTerm) : Prop where
  nonempty : ts ≠ []
  signed : ∀ t ∈ ts.tail, t.sign.isSome = true
  inRange : ∀ t ∈ ts, t.InRange w

namespace SparsePoly

variable {w : Nat} {ts : List WrittenTerm} {text : String}

theorem admitted_strict_false_iff :
    Admitted .strict false ts ↔ ∀ t ∈ ts, t.sign.isSome = true := by
  induction ts with
  | nil => simp [Admitted]
  | cons t ts ih => rw [Admitted, ih, List.forall_mem_cons]; simp [ParseMode.signRequired]

theorem admitted_strict_true_iff :
    Admitted .strict true ts ↔ ∀ t ∈ ts.tail, t.sign.isSome = true := by
  cases ts with
  | nil => simp [Admitted]
  | cons t ts => rw [Admitted, admitted_strict_false_iff]; simp [ParseMode.signRequired]

theorem parseWith_of_sentence (hs : Sentence w ts)
    (hspell : (Token.scan text).map Token.lexeme = ts.flatMap WrittenTerm.lexemes) :
    ∃ terms : List (Term (Signed w)), List.Forall₂ WrittenTerm.Means ts terms ∧
      parseWith .strict text = attempt (ofTerms terms) := by
  obtain ⟨terms, hmeans⟩ := WrittenTerm.forall_inRange_iff.1 hs.inRange
  have hread : readTerms .strict true (Token.scan text) = (terms, none) :=
    readTerms_strict_eq_none_iff.2
      ⟨ts, admitted_strict_true_iff.2 hs.signed, hs.nonempty, hspell, hmeans⟩
  exact ⟨terms, hmeans, parseWith_of_readTerms hread⟩

theorem sentence_of_parseWith {p : SparsePoly (Signed w)} (h : parseWith .strict text = .ok p) :
    ∃ ts, Sentence w ts ∧ (Token.scan text).map Token.lexeme = ts.flatMap WrittenTerm.lexemes := by
  obtain ⟨terms, hread, -⟩ := readTerms_of_parseWith h
  obtain ⟨ts, hadmitted, hne, hspell, hmeans⟩ := readTerms_strict_eq_none_iff.1 hread
  exact ⟨ts, ⟨hne, admitted_strict_true_iff.1 hadmitted,
    WrittenTerm.forall_inRange_iff.2 ⟨terms, hmeans⟩⟩, hspell⟩

/-- Unless it is stopped, the strict mode accepts the sentences and nothing else.  On a sentence it
returns the exact sum of the terms, and it is stopped exactly if a sum on the way is out of
range. -/
theorem parseWith_strict_language (w : Nat) (text : String) :
    ((∀ f, parseWith (C := Signed w) .strict text ≠ .error (.stopped f)) →
      ((∃ p : SparsePoly (Signed w), parseWith .strict text = .ok p) ↔ ∃ ts, Sentence w ts ∧
        (Token.scan text).map Token.lexeme = ts.flatMap WrittenTerm.lexemes)) ∧
    ∀ ts, Sentence w ts →
      (Token.scan text).map Token.lexeme = ts.flatMap WrittenTerm.lexemes →
      (∀ p : SparsePoly (Signed w), parseWith .strict text = .ok p →
        ∀ e, (p.coeff e).val = writtenSum ts e) ∧
      ∀ f, parseWith (C := Signed w) .strict text = .error (.stopped f) ↔
        f = .arithmetic .add ∧ ∃ n e, ¬ Fits w (writtenSum (ts.take n) e) := by
  constructor
  · intro hrun
    constructor
    · rintro ⟨p, hp⟩
      exact sentence_of_parseWith hp
    · rintro ⟨ts, hs, hspell⟩
      obtain ⟨terms, -, hparse⟩ := parseWith_of_sentence hs hspell
      cases hsum : ofTerms terms with
      | ok p => exact ⟨p, by rw [hparse, hsum, attempt_ok]⟩
      | error f => exact absurd (by rw [hparse, hsum, attempt_error]) (hrun f)
  · intro ts hs hspell
    obtain ⟨terms, hmeans, hparse⟩ := parseWith_of_sentence hs hspell
    rw [hparse]
    constructor
    · intro p hp e
      rw [coeff_ofTerms (attempt_eq_ok_iff.1 hp), exactSum_eq_writtenSum hmeans]
    · intro f
      have htake : ∀ n e, exactSum (terms.take n) e = writtenSum (ts.take n) e := fun n =>
        exactSum_eq_writtenSum (List.forall₂_take n hmeans)
      rw [attempt_eq_stopped_iff, ofTerms_eq_error_iff]
      simp only [htake]

/-- Leading zeros do not matter, and a sum that comes back into the range is out of it before. -/
theorem parseWith_strict_short_texts :
    (∃ p : SparsePoly (Signed 32), parseWith .strict "2*x^3 - 007" = .ok p ∧
      (p.coeff 0).val = -7) ∧
    parseWith (C := Signed 32) .strict "2147483647 + 1 - 1" =
      .error (.stopped (.arithmetic .add)) := by
  constructor
  · obtain ⟨haccept, hvalue⟩ := parseWith_strict_language 32 "2*x^3 - 007"
    have hs : Sentence 32 [⟨none, ['2'], some ⟨true, some ['3']⟩⟩,
        ⟨some true, ['0', '0', '7'], none⟩] :=
      ⟨by decide, by decide, by simp only [WrittenTerm.InRange]; decide⟩
    have hread : parseWith (C := Signed 32) .strict "2*x^3 - 007" =
        .ok ⟨[⟨0, ⟨-7, by decide⟩⟩, ⟨3, ⟨2, by decide⟩⟩]⟩ := by decide +kernel
    have hrun : ∀ f, parseWith (C := Signed 32) .strict "2*x^3 - 007" ≠ .error (.stopped f) := by
      intro f hf
      cases hread.symm.trans hf
    obtain ⟨p, hp⟩ := (haccept hrun).2 ⟨_, hs, by decide⟩
    exact ⟨p, hp, (hvalue _ hs (by decide)).1 p hp 0⟩
  · obtain ⟨-, hvalue⟩ := parseWith_strict_language 32 "2147483647 + 1 - 1"
    have hs : Sentence 32 [⟨none, ['2', '1', '4', '7', '4', '8', '3', '6', '4', '7'], none⟩,
        ⟨some false, ['1'], none⟩, ⟨some true, ['1'], none⟩] :=
      ⟨by decide, by decide, by simp only [WrittenTerm.InRange]; decide⟩
    exact ((hvalue _ hs (by decide)).2 _).2 ⟨rfl, 2, 0, by decide⟩

end SparsePoly

end Univariate
