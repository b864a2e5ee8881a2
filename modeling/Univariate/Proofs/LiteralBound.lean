import Univariate.Proofs.ModeExtension
import Univariate.Proofs.Pieces
import Univariate.Proofs.RoundTrip

/-! # Canonical text beyond the bound on literals

Words of more than 64 bits have magnitudes that stand in canonical text and are no literal of a
coefficient.  From such text the permissive mode drops the terms with these magnitudes and no
others, and the strict mode refuses the highest of them.  So canonical text is read back as the
polynomial that it was written for exactly if every magnitude is within the bound. -/

namespace Univariate

variable {w : Nat} {first : Bool} {tokens rest mid : List Token}

/-- Whether the magnitude of the coefficient is within the bound on literals. -/
def Term.isWritable (t : Term (Signed w)) : Bool :=
  decide (t.coeff.val.natAbs ≤ TermReader.largestMagnitude)

theorem writable_iff {ts : List (Term (Signed w))} :
    Writable ts ↔ ∀ t ∈ ts, t.isWritable = true := by
  simp only [Writable, Term.isWritable, decide_eq_true_eq]

private theorem not_writable_iff {ts : List (Term (Signed w))} :
    ¬ Writable ts ↔ ∃ t ∈ ts, t.isWritable = false := by
  rw [writable_iff]
  push Not
  simp only [Bool.not_eq_true]

private theorem exists_cons_of_spelled {t : WrittenTerm} (h : Spelled t.lexemes tokens mid) :
    ∃ token rest, tokens = token :: rest := by
  obtain ⟨front, rfl, hfront⟩ := h
  apply List.exists_cons_of_ne_nil
  exact List.append_ne_nil_of_left_ne_nil (t.ne_nil_of_map_lexeme hfront) mid

/-- Behind its first token a term holds no sign, so the next sign is that of the next term. -/
theorem nextSign_of_spelled {t : WrittenTerm} {token : Token}
    (h : Spelled t.lexemes (token :: rest) mid)
    (hmid : ∀ s ∈ mid.head?, s.lexeme.isSign = true) : TermReader.nextSign rest = mid := by
  obtain ⟨front, heq, hfront⟩ := h
  obtain ⟨u, used, rfl⟩ := List.exists_cons_of_ne_nil (t.ne_nil_of_map_lexeme hfront)
  cases heq
  apply TermReader.nextSign_append _ hmid
  intro s hs
  have hmem : s.lexeme ∈ t.lexemes.tail := by
    rw [← hfront]
    exact List.mem_map_of_mem hs
  simpa using List.all_eq_true.1 t.all_not_isSign_tail s.lexeme hmem

private theorem coefficient?_renderedTerm {t : Term (Signed w)} (ht : t.isWritable = false) :
    TermReader.coefficient? (C := Signed w) (renderedTerm first t).negative
      (renderedTerm first t).digits = none := by
  have hgt : ¬ t.coeff.val.natAbs ≤ TermReader.largestMagnitude := of_decide_eq_false ht
  rw [TermReader.coefficient?, literalValue_renderedTerm, if_neg hgt]

private theorem isSign_of_spelled_renderedTerms {ts : List (Term (Signed w))}
    (h : Spelled ((renderedTerms false ts).flatMap WrittenTerm.lexemes) tokens []) :
    ∀ s ∈ tokens.head?, s.lexeme.isSign = true := by
  cases ts with
  | nil =>
    rw [spelled_nil.1 h]
    intro s hs
    cases hs
  | cons t ts =>
    obtain ⟨mid, hterm, -⟩ := spelled_append.1 h
    obtain ⟨behind, hsign, -⟩ := spelled_append.1 hterm
    rw [renderedTerm, renderedSign] at hsign
    cases hneg : OrderedCoefficient.isNegative t.coeff
    all_goals
      rw [hneg] at hsign
      obtain ⟨offset, behind, rfl, -⟩ := spelled_cons.1 hsign
      rintro s ⟨⟩
      rfl

namespace SparsePoly

theorem readTerm_of_isWritable {required : Bool} {t : Term (Signed w)} {ts : List (Term (Signed w))}
    (hrequired : required = true → (renderedTerm first t).sign.isSome = true)
    (hterm : Spelled (renderedTerm first t).lexemes tokens mid)
    (hmid : Spelled ((renderedTerms false ts).flatMap WrittenTerm.lexemes) mid [])
    (ht : t.isWritable = true) : TermReader.readTerm required tokens = .ok (t, mid) :=
  TermReader.readTerm_eq_ok_iff.2 ⟨endsTerm_of_spelled rfl hmid, renderedTerm first t, hrequired,
    hterm, means_renderedTerm (of_decide_eq_true ht)⟩

theorem readTerms_permissive_renderedTerms {ts : List (Term (Signed w))}
    (h : Spelled ((renderedTerms first ts).flatMap WrittenTerm.lexemes) tokens []) :
    (readTerms .permissive first tokens).1 = ts.filter Term.isWritable := by
  induction ts generalizing first tokens with
  | nil =>
    rw [spelled_nil.1 h, readTerms_nil]
    rfl
  | cons t ts ih =>
    obtain ⟨mid, hterm, hmid⟩ := spelled_append.1 h
    obtain ⟨token, rest, rfl⟩ := exists_cons_of_spelled hterm
    have hfree : false = true → (renderedTerm first t).sign.isSome = true := fun h => nomatch h
    cases ht : t.isWritable with
    | true =>
      rw [readTerms_permissive_of_ok (readTerm_of_isWritable hfree hterm hmid ht),
        List.filter_cons_of_pos ht]
      exact congrArg (t :: ·) (ih hmid)
    | false =>
      obtain ⟨offset, behind, hread⟩ :=
        TermReader.readTerm_of_meaningless hfree hterm (coefficient?_renderedTerm ht)
      rw [readTerms_permissive_of_error hread, TermReader.resume_of_readTerm_error hread,
        nextSign_of_spelled hterm (isSign_of_spelled_renderedTerms hmid),
        readTerms_permissive_first, ← readTerms_permissive_first false,
        List.filter_cons_of_neg (by rw [ht]; exact Bool.false_ne_true)]
      exact ih hmid

private theorem renderedTerms_append (ts us : List (Term (Signed w))) :
    renderedTerms first (ts ++ us) =
    renderedTerms first ts ++ renderedTerms (first && ts.isEmpty) us := by
  induction ts generalizing first with
  | nil => simp [renderedTerms]
  | cons t ts ih => simp [renderedTerms, ih]

theorem readTerms_strict_renderedTerms {before behind : List (Term (Signed w))}
    {t : Term (Signed w)} (hbefore : ∀ u ∈ before, u.isWritable = true)
    (ht : t.isWritable = false)
    (h : Spelled ((renderedTerms first (before ++ t :: behind)).flatMap WrittenTerm.lexemes)
      tokens []) : ∃ offset, readTerms .strict first tokens =
        (before, some (.integerOverflow offset
          (String.ofList (Nat.toDigits 10 t.coeff.val.natAbs)))) := by
  have hadmitted : Admitted .strict first (renderedTerms first (before ++ t :: behind)) :=
    admitted_renderedTerms
  rw [renderedTerms_append] at h hadmitted
  obtain ⟨offset, rest, hspell⟩ := exists_literal_of_spelled h
  have hmeans : List.Forall₂ WrittenTerm.Means (renderedTerms first before) before :=
    means_renderedTerms (writable_iff.2 hbefore)
  exact ⟨offset, readTerms_strict_of_refused hadmitted hspell hmeans (coefficient?_renderedTerm ht)⟩

variable {p : SparsePoly (Signed w)} {text : String}

theorem spelled_render (h : p.render = .ok text) :
    Spelled ((renderedTerms true p.terms.reverse).flatMap WrittenTerm.lexemes) (Token.scan text)
      [] := by
  obtain ⟨cs, hcs, h⟩ := bind_eq_ok_iff.1 h
  cases h
  rw [Token.scan, String.toList_ofList]
  exact spelled_renderTerms hcs

theorem parse_render_filter (hp : p.Canonical) (h : p.render = .ok text) :
    parse text = .ok ⟨p.terms.filter Term.isWritable⟩ := by
  rw [parse, readTerms_permissive_renderedTerms (spelled_render h)]
  exact ofTerms_perm (hp.sublist List.filter_sublist) ((List.reverse_perm p.terms).filter _)

theorem parse_render_eq_ok_iff (hp : p.Canonical) (h : p.render = .ok text) :
    parse text = .ok p ↔ Writable p.terms := by
  constructor
  · intro hparse
    have hsame : p.terms.filter Term.isWritable = p.terms :=
      congrArg terms (Except.ok.inj ((parse_render_filter hp h).symm.trans hparse))
    exact writable_iff.2 (List.filter_eq_self.1 hsame)
  · exact parse_of_render hp h

private theorem exists_highest_long_term (hlong : ¬ Writable p.terms) : ∃ above t below,
    p.terms.reverse = above ++ t :: below ∧ (∀ u ∈ above, u.isWritable = true) ∧
      t.isWritable = false := by
  obtain ⟨v, hv, hvlong⟩ := not_writable_iff.1 hlong
  cases hfind : p.terms.reverse.find? fun t => !t.isWritable with
  | none =>
    have hall := List.find?_eq_none.1 hfind v (List.mem_reverse.2 hv)
    rw [hvlong] at hall
    exact absurd rfl hall
  | some t =>
    obtain ⟨ht, above, below, hsplit, habove⟩ := List.find?_eq_some_iff_append.1 hfind
    simp only [Bool.not_eq_true', Bool.not_not] at ht habove
    exact ⟨above, t, below, hsplit, habove, ht⟩

theorem parseWith_render_of_not_writable (hp : p.Canonical) (h : p.render = .ok text)
    (hlong : ¬ Writable p.terms) : ∃ t ∈ p.terms, t.isWritable = false ∧
      (∀ u ∈ p.terms, t.exponent < u.exponent → u.isWritable = true) ∧
      ∃ offset, parseWith (C := Signed w) .strict text = .error (.reported
        (.integerOverflow offset (String.ofList (Nat.toDigits 10 t.coeff.val.natAbs)))) := by
  obtain ⟨above, t, below, hsplit, habove, ht⟩ := exists_highest_long_term hlong
  have hmem : ∀ u, u ∈ p.terms ↔ u ∈ above ++ t :: below := fun u => by
    rw [← hsplit, List.mem_reverse]
  have hdescending := List.pairwise_reverse.2 hp.1
  rw [hsplit] at hdescending
  have hbelow : ∀ u ∈ below, u.exponent < t.exponent :=
    (List.pairwise_cons.1 (List.pairwise_append.1 hdescending).2.1).1
  refine ⟨t, (hmem t).2 (by simp), ht, fun u hu hlt => ?_, ?_⟩
  · rcases List.mem_append.1 ((hmem u).1 hu) with hu | hu
    · exact habove u hu
    · rcases List.mem_cons.1 hu with rfl | hu
      · exact absurd hlt (lt_irrefl _)
      · exact absurd hlt (lt_asymm (hbelow u hu))
  · have hspelled := spelled_render h
    rw [hsplit] at hspelled
    obtain ⟨offset, hread⟩ := readTerms_strict_renderedTerms habove ht hspelled
    have hsublist : above.reverse.Sublist p.terms := by
      rw [← List.reverse_reverse p.terms, hsplit]
      exact (List.sublist_append_left above (t :: below)).reverse
    have hsum : ofTerms above = .ok ⟨above.reverse⟩ :=
      ofTerms_perm (hp.sublist hsublist) (List.reverse_perm above).symm
    exact ⟨offset, parseWith_of_readTerms_error hread hsum⟩

/-- Canonical text is read back exactly if every magnitude is within the bound on literals.
Otherwise the permissive mode drops the other terms, and the strict mode reports the highest of
them. -/
theorem parse_render_iff_writable (hp : p.Canonical) (h : p.render = .ok text) :
    (parse text = .ok p ↔ Writable p.terms) ∧
    (p ≠ zero → (parseWith .strict text = .ok p ↔ Writable p.terms)) ∧
    parse text = .ok ⟨p.terms.filter Term.isWritable⟩ ∧
    (¬ Writable p.terms → ∃ t ∈ p.terms, t.isWritable = false ∧
      (∀ u ∈ p.terms, t.exponent < u.exponent → u.isWritable = true) ∧
      ∃ offset, parseWith (C := Signed w) .strict text = .error (.reported
        (.integerOverflow offset (String.ofList (Nat.toDigits 10 t.coeff.val.natAbs))))) := by
  refine ⟨parse_render_eq_ok_iff hp h, fun hne => ⟨fun hstrict => ?_, fun hwritable => ?_⟩,
    parse_render_filter hp h, parseWith_render_of_not_writable hp h⟩
  · exact (parse_render_eq_ok_iff hp h).1 (parse_of_parseWith_strict hstrict)
  · exact parseWith_of_render hp h hwritable (isZero_eq_false_iff.2 hne)

/-- Of two terms the one with a magnitude of `2 ^ 63` is lost, and the other is read back. -/
theorem parse_render_two_terms :
    let p : SparsePoly (Signed 128) :=
      ⟨[⟨0, ⟨9223372036854775808, by decide⟩⟩, ⟨2, ⟨-7, by decide⟩⟩]⟩
    let q : SparsePoly (Signed 128) := ⟨[⟨2, ⟨-7, by decide⟩⟩]⟩
    ∃ text, p.render = .ok text ∧ parse text = .ok q ∧ parseWith .strict text ≠ .ok p := by
  intro p q
  have hp : p.Canonical := by decide
  have hrender : p.render = .ok "- 7x^2 + 9223372036854775808" := by decide +kernel
  obtain ⟨-, hstrict, hfilter, -⟩ := parse_render_iff_writable hp hrender
  have hlong : ¬ Writable p.terms := not_writable_iff.2 ⟨_, List.mem_cons_self, by decide⟩
  exact ⟨_, hrender, hfilter, fun h => hlong ((hstrict (by decide)).1 h)⟩

/-- The text of the constant `2 ^ 63` is not read back as that constant over words of 128 bits. -/
theorem parse_render_long_constant :
    let p : SparsePoly (Signed 128) := ⟨[⟨0, ⟨9223372036854775808, by decide⟩⟩]⟩
    p.Canonical ∧ p ≠ zero ∧ p.render = .ok "9223372036854775808" ∧
      parse (C := Signed 128) "9223372036854775808" = .ok zero ∧
      parseWith (C := Signed 128) .strict "9223372036854775808" =
        .error (.reported (.integerOverflow 0 "9223372036854775808")) := by
  refine ⟨?_, ?_, ?_, ?_, ?_⟩
  · decide
  · decide
  · decide +kernel
  · decide +kernel
  · decide +kernel

end SparsePoly

end Univariate
