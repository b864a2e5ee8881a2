import Univariate.Sequencing
import Univariate.Text.TermReader

/-! # Progress of the term reader

Behind a term there are fewer tokens than before it.  No sign is read but the one in front of a
term, so wherever a term is refused, reading resumes at the first sign behind its first token. -/

namespace Univariate.TermReader

variable {α C : Type} [Coefficient C] {tokens rest : List Token} {r : Refusal}

theorem readLiteral_eq_ok_iff {meaning : List Char → Option α} {a : α} :
    readLiteral meaning tokens = .ok (a, rest) ↔
      ∃ digits offset, tokens = ⟨.literal digits, offset⟩ :: rest ∧ meaning digits = some a := by
  constructor
  · intro h
    rw [readLiteral.eq_def] at h
    split at h
    · split at h
      · cases h
        exact ⟨_, _, rfl, ‹_›⟩
      · cases h
    · cases h
  · rintro ⟨digits, offset, rfl, hm⟩
    simp only [readLiteral, hm]

private theorem suffix_of_readExponent {e : Exponent} (h : readExponent tokens = .ok (e, rest)) :
    rest <:+ tokens := by
  rw [readExponent.eq_def] at h
  split at h
  · obtain ⟨digits, offset, rfl, -⟩ := readLiteral_eq_ok_iff.1 h
    exact (List.suffix_cons ..).trans (List.suffix_cons ..)
  · simp_all

private theorem suffix_of_readPower {e : Exponent} (h : readPower tokens = .ok (e, rest)) :
    rest <:+ tokens := by
  rw [readPower.eq_def] at h
  split at h
  · exact (suffix_of_readExponent h).trans (List.suffix_cons ..)
  · exact ((suffix_of_readExponent h).trans (List.suffix_cons ..)).trans (List.suffix_cons ..)
  · simp at h
  · simp_all

private theorem length_lt_of_readUnsigned {negative : Bool} {t : Term C}
    (h : readUnsigned negative tokens = .ok (t, rest)) : rest.length < tokens.length := by
  obtain ⟨⟨c, tokens₁⟩, hl, h₁⟩ := bind_eq_ok_iff.1 h
  obtain ⟨⟨e, tokens₂⟩, hp, h₂⟩ := bind_eq_ok_iff.1 h₁
  obtain ⟨digits, offset, rfl, -⟩ := readLiteral_eq_ok_iff.1 hl
  have := (suffix_of_readPower hp).length_le
  dsimp only at h₂
  split at h₂ <;> cases h₂
  simp only [List.length_cons]
  omega

theorem length_lt_of_readTerm {required : Bool} {t : Term C}
    (h : readTerm required tokens = .ok (t, rest)) : rest.length < tokens.length := by
  obtain ⟨⟨negative, tokens₁⟩, hs, h⟩ := bind_eq_ok_iff.1 h
  have hu := length_lt_of_readUnsigned h
  suffices tokens₁.length ≤ tokens.length by omega
  rw [readSign.eq_def] at hs
  split at hs <;> grind

def nextSign (tokens : List Token) : List Token := tokens.dropWhile (!·.lexeme.isSign)

theorem nextSign_cons {t : Token} (h : t.lexeme.isSign = false) :
    nextSign (t :: rest) = nextSign rest := by
  rw [nextSign, List.dropWhile_cons, h]
  rfl

theorem nextSign_append {used : List Token} (hused : ∀ t ∈ used, t.lexeme.isSign = false)
    (hrest : ∀ t ∈ rest.head?, t.lexeme.isSign = true) : nextSign (used ++ rest) = rest := by
  induction used with
  | nil =>
    cases rest with
    | nil => rfl
    | cons t rest =>
      rw [List.nil_append, nextSign, List.dropWhile_cons, hrest t rfl]
      rfl
  | cons t used ih =>
    rw [List.cons_append, nextSign_cons (hused t List.mem_cons_self)]
    exact ih fun s hs => hused s (List.mem_cons_of_mem _ hs)

private theorem resume_unexpected (tokens : List Token) :
    (Refusal.unexpected tokens).resume = nextSign tokens := by
  cases tokens <;> rfl

private theorem resume_of_readLiteral_error {meaning : List Char → Option α}
    (h : readLiteral meaning tokens = .error r) : r.resume = nextSign tokens := by
  rw [readLiteral.eq_def] at h
  split at h
  · split at h
    · cases h
    · cases h
      rfl
  · cases h
    exact resume_unexpected _

private theorem nextSign_of_readLiteral {meaning : List Char → Option α} {a : α}
    (h : readLiteral meaning tokens = .ok (a, rest)) : nextSign tokens = nextSign rest := by
  obtain ⟨digits, offset, rfl, -⟩ := readLiteral_eq_ok_iff.1 h
  exact nextSign_cons rfl

private theorem nextSign_of_readExponent {e : Exponent} (h : readExponent tokens = .ok (e, rest)) :
    nextSign tokens = nextSign rest := by
  rw [readExponent.eq_def] at h
  split at h
  · rw [nextSign_cons rfl, nextSign_of_readLiteral h]
  · cases h
    rfl

private theorem resume_of_readExponent_error (h : readExponent tokens = .error r) :
    r.resume = nextSign tokens := by
  rw [readExponent.eq_def] at h
  split at h
  · rw [resume_of_readLiteral_error h, nextSign_cons rfl]
  · cases h

private theorem nextSign_of_readPower {e : Exponent} (h : readPower tokens = .ok (e, rest)) :
    nextSign tokens = nextSign rest := by
  rw [readPower.eq_def] at h
  split at h
  · rw [nextSign_cons rfl, nextSign_of_readExponent h]
  · rw [nextSign_cons rfl, nextSign_cons rfl, nextSign_of_readExponent h]
  · cases h
  · cases h
    rfl

private theorem resume_of_readPower_error (h : readPower tokens = .error r) :
    r.resume = nextSign tokens := by
  rw [readPower.eq_def] at h
  split at h
  · rw [resume_of_readExponent_error h, nextSign_cons rfl]
  · rw [resume_of_readExponent_error h, nextSign_cons rfl, nextSign_cons rfl]
  · cases h
    rw [resume_unexpected, nextSign_cons rfl]
  · cases h

/-- Behind its sign a term holds no sign, so none is lost when it is refused. -/
private theorem resume_of_readUnsigned_error {negative : Bool}
    (h : (readUnsigned negative tokens : Except Refusal (Term C × List Token)) = .error r) :
    r.resume = nextSign tokens := by
  rcases bind_eq_error_iff.1 h with hl | ⟨⟨c, tokens₁⟩, hl, h₁⟩
  · exact resume_of_readLiteral_error hl
  rw [nextSign_of_readLiteral hl]
  rcases bind_eq_error_iff.1 h₁ with hp | ⟨⟨e, tokens₂⟩, hp, h₂⟩
  · exact resume_of_readPower_error hp
  rw [nextSign_of_readPower hp]
  dsimp only at h₂
  split at h₂
  · cases h₂
  · cases h₂
    exact resume_unexpected tokens₂

/-- After a refusal reading resumes at the first sign behind the first token of the term. -/
theorem resume_of_readTerm_error {required : Bool} {t : Token}
    (h : (readTerm required (t :: rest) : Except Refusal (Term C × List Token)) = .error r) :
    r.resume = nextSign rest := by
  rw [readTerm, readSign.eq_def] at h
  split at h
  · rename_i heq
    cases heq
    exact resume_of_readUnsigned_error h
  · rename_i heq
    cases heq
    exact resume_of_readUnsigned_error h
  · rename_i heq
    cases heq
  · rename_i s rest' hplus hminus heq
    cases heq
    have ht : t.lexeme.isSign = false := by
      rcases t with ⟨lexeme, offset⟩
      cases lexeme <;> simp_all [Lexeme.isSign]
    rw [← nextSign_cons ht]
    split at h
    · cases h
      rfl
    · exact resume_of_readUnsigned_error h

theorem length_resume_lt {required : Bool} {t : Token}
    (h : (readTerm required (t :: rest) : Except Refusal (Term C × List Token)) = .error r) :
    r.resume.length < (t :: rest).length := by
  have hle : (nextSign rest).length ≤ rest.length := (List.dropWhile_suffix _).length_le
  rw [resume_of_readTerm_error h, List.length_cons]
  omega

end Univariate.TermReader
