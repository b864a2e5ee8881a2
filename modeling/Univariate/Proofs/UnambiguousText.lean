import Univariate.Proofs.LiteralBound

/-! # Canonical text tells polynomials apart

Behind a written term a sign or a literal comes, or nothing.  That is enough to see where the term
ends, so the lexemes of a row of written terms determine the row.  Canonical text therefore belongs
to one polynomial only, also where its magnitudes are out of the range of literals and nothing reads
it back. -/

namespace Univariate

variable {w : Nat} {first : Bool} {ls ms : List Lexeme}

def TermEnd (ls : List Lexeme) : Prop := ∀ l ∈ ls.head?, l.isSign = true ∨ l.isLiteral = true

theorem TermEnd.of_cons {l : Lexeme} (h : TermEnd (l :: ls)) :
    l.isSign = true ∨ l.isLiteral = true :=
  h l rfl

private theorem termEnd_flatMap_lexemes (ts : List WrittenTerm) :
    TermEnd (ts.flatMap WrittenTerm.lexemes) := by
  intro l hl
  cases ts with
  | nil => cases hl
  | cons t ts =>
    obtain ⟨sign, digits, power⟩ := t
    rcases sign with - | (- | -)
    all_goals
      cases hl
      simp [Lexeme.isSign, Lexeme.isLiteral]

private theorem exponentLexemes_append_inj {a b : Option (List Char)} (hl : TermEnd ls)
    (hm : TermEnd ms)
    (h : exponentLexemes a ++ ls = exponentLexemes b ++ ms) : a = b ∧ ls = ms := by
  cases a with
  | none =>
    cases b with
    | none => exact ⟨rfl, h⟩
    | some digits =>
      -- The caret would stand where a term has ended.
      subst h
      rcases hl.of_cons with h | h <;> cases h
  | some digits =>
    cases b with
    | none =>
      subst h
      rcases hm.of_cons with h | h <;> cases h
    | some others =>
      cases h
      exact ⟨rfl, rfl⟩

private theorem powerLexemes_append_inj {p q : Option WrittenPower} (hl : TermEnd ls)
    (hm : TermEnd ms)
    (h : powerLexemes p ++ ls = powerLexemes q ++ ms) : p = q ∧ ls = ms := by
  rcases p with - | ⟨star, a⟩
  · rcases q with - | ⟨star, b⟩
    · exact ⟨rfl, h⟩
    · subst h
      cases star <;> rcases hl.of_cons with h | h <;> cases h
  · rcases q with - | ⟨star', b⟩
    · subst h
      cases star <;> rcases hm.of_cons with h | h <;> cases h
    · have hpower : star = star' ∧ exponentLexemes a ++ ls = exponentLexemes b ++ ms := by
        cases star <;> cases star' <;> grind [powerLexemes]
      obtain ⟨rfl, hexponent⟩ := hpower
      obtain ⟨rfl, hrest⟩ := exponentLexemes_append_inj hl hm hexponent
      exact ⟨rfl, hrest⟩

private theorem signLexemes_append_inj {s s' : Option Bool} {digits digits' : List Char}
    (h : signLexemes s ++ .literal digits :: ls = signLexemes s' ++ .literal digits' :: ms) :
    s = s' ∧ digits = digits' ∧ ls = ms := by
  rcases s with - | (- | -) <;> rcases s' with - | (- | -) <;> grind [signLexemes]

theorem WrittenTerm.lexemes_append_inj {t u : WrittenTerm} (hl : TermEnd ls) (hm : TermEnd ms)
    (h : t.lexemes ++ ls = u.lexemes ++ ms) : t = u ∧ ls = ms := by
  obtain ⟨sign, digits, power⟩ := t
  obtain ⟨sign', digits', power'⟩ := u
  simp only [lexemes, List.append_assoc, List.cons_append] at h
  obtain ⟨rfl, rfl, hpower⟩ := signLexemes_append_inj h
  obtain ⟨rfl, hrest⟩ := powerLexemes_append_inj hl hm hpower
  exact ⟨rfl, hrest⟩

/-- The grammar of rows of terms is unambiguous. -/
theorem flatMap_lexemes_injective : Function.Injective (List.flatMap WrittenTerm.lexemes) := by
  intro ts us h
  induction ts generalizing us with
  | nil =>
    cases us with
    | nil => rfl
    | cons u us => exact absurd h.symm (List.append_ne_nil_of_left_ne_nil u.lexemes_ne_nil _)
  | cons t ts ih =>
    cases us with
    | nil => exact absurd h (List.append_ne_nil_of_left_ne_nil t.lexemes_ne_nil _)
    | cons u us =>
      obtain ⟨rfl, hrest⟩ := WrittenTerm.lexemes_append_inj (termEnd_flatMap_lexemes ts)
        (termEnd_flatMap_lexemes us) h
      rw [ih hrest]

theorem renderedTerm_inj {t u : Term (Signed w)} (h : renderedTerm first t = renderedTerm first u) :
    t = u := by
  have hvalue : t.coeff.val = u.coeff.val := by
    have hsame := congrArg WrittenTerm.value h
    rwa [value_renderedTerm, value_renderedTerm] at hsame
  have hexponent : t.exponent.val = u.exponent.val := by
    rw [← powerValue_renderedPower t.exponent, ← powerValue_renderedPower u.exponent]
    exact congrArg WrittenTerm.exponent h
  obtain ⟨e, c⟩ := t
  obtain ⟨e', c'⟩ := u
  cases Fin.ext hexponent
  cases Signed.ext hvalue
  rfl

theorem renderedTerms_inj {ts us : List (Term (Signed w))}
    (h : renderedTerms first ts = renderedTerms first us) : ts = us := by
  induction ts generalizing first us with
  | nil =>
    cases us with
    | nil => rfl
    | cons u us => cases h
  | cons t ts ih =>
    cases us with
    | nil => cases h
    | cons u us =>
      obtain ⟨hterm, hterms⟩ := List.cons.inj h
      rw [renderedTerm_inj hterm, ih hterms]

namespace SparsePoly

variable {p q : SparsePoly (Signed w)} {text : String}

theorem exists_render (hp : ∀ t ∈ p.terms, t.coeff ≠ Signed.least) :
    ∃ text, p.render = .ok text := by
  cases hrender : p.render with
  | ok text => exact ⟨text, rfl⟩
  | error f =>
    obtain ⟨-, t, ht, hleast⟩ := render_eq_error_iff.1 hrender
    exact absurd hleast (hp t ht)

theorem eq_of_render (hp : p.render = .ok text) (hq : q.render = .ok text) : p = q := by
  have hrows : renderedTerms true p.terms.reverse = renderedTerms true q.terms.reverse := by
    apply flatMap_lexemes_injective
    rw [← spelled_all.1 (spelled_render hp), ← spelled_all.1 (spelled_render hq)]
  obtain ⟨ts⟩ := p
  obtain ⟨us⟩ := q
  exact congrArg SparsePoly.mk (List.reverse_injective (renderedTerms_inj hrows))

/-- Over words of any length canonical text exists for every polynomial that does not store the
least word, and no other polynomial has the same text. -/
theorem render_injective (hp : ∀ t ∈ p.terms, t.coeff ≠ Signed.least) (q : SparsePoly (Signed w)) :
    (∃ text, p.render = .ok text) ∧ (p.render = q.render → p = q) := by
  obtain ⟨text, htext⟩ := exists_render hp
  refine ⟨⟨text, htext⟩, fun hsame => ?_⟩
  exact eq_of_render htext (hsame ▸ htext)

/-- The same digits stand in both texts, once as the exponent `12` and once with a `1` in the
coefficient; both have a magnitude that is no literal. -/
theorem render_injective_shifted_digit :
    let p : SparsePoly (Signed 128) := ⟨[⟨1, ⟨-9223372036854775808, by decide⟩⟩,
      ⟨12, ⟨170141183460469231731687303715884105727, by decide⟩⟩]⟩
    let q : SparsePoly (Signed 128) := ⟨[⟨1, ⟨-9223372036854775808, by decide⟩⟩,
      ⟨2, ⟨17014118346046923173168730371588410572, by decide⟩⟩]⟩
    (∀ t ∈ p.terms, t.coeff ≠ Signed.least) ∧ (∃ text, p.render = .ok text) ∧
      p.render ≠ q.render := by
  intro p q
  have hp : ∀ t ∈ p.terms, t.coeff ≠ Signed.least := by decide
  obtain ⟨hrender, hsame⟩ := render_injective hp q
  exact ⟨hp, hrender, fun h => absurd (hsame h) (by decide)⟩

end SparsePoly

end Univariate
