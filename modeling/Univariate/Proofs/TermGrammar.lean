import Univariate.Text.TermProgress

/-! # The grammar of a term

A written term is a sign, a literal and a power of the variable; only the literal is required.  The
readers of the text accept the written terms whose literals have a meaning, and nothing else.  One
token behind a term decides where it ends, so what has been read is a term exactly if a term may end
before the tokens behind it. -/

namespace Univariate

def Lexeme.isLiteral : Lexeme → Bool
  | literal _ => true
  | _ => false

theorem TermReader.endsTerm_cons (t : Token) (rest : List Token) :
    endsTerm (t :: rest) = (t.lexeme.isSign || t.lexeme.isLiteral) := by
  obtain ⟨l, offset⟩ := t
  cases l <;> rfl

/-- The tokens up to a position spell a list of lexemes. -/
def Spelled (ls : List Lexeme) (tokens rest : List Token) : Prop :=
  ∃ used, tokens = used ++ rest ∧ used.map Token.lexeme = ls

section Spelled

variable {tokens rest : List Token} {ls ms : List Lexeme}

@[simp] theorem spelled_nil : Spelled [] tokens rest ↔ tokens = rest := by
  simp [Spelled]

theorem spelled_cons {l : Lexeme} : Spelled (l :: ls) tokens rest ↔
    ∃ offset behind, tokens = ⟨l, offset⟩ :: behind ∧ Spelled ls behind rest := by
  constructor
  · rintro ⟨used, rfl, hused⟩
    obtain ⟨t, behind, rfl, rfl, hbehind⟩ := List.map_eq_cons_iff.1 hused
    exact ⟨t.offset, behind ++ rest, rfl, behind, rfl, hbehind⟩
  · rintro ⟨offset, behind, rfl, used, rfl, rfl⟩
    exact ⟨⟨l, offset⟩ :: used, rfl, rfl⟩

theorem Spelled.nil : Spelled [] rest rest := spelled_nil.2 rfl

theorem Spelled.cons (h : Spelled ls tokens rest) (l : Lexeme) {offset : Nat} :
    Spelled (l :: ls) (⟨l, offset⟩ :: tokens) rest :=
  spelled_cons.2 ⟨offset, tokens, rfl, h⟩

theorem spelled_append : Spelled (ls ++ ms) tokens rest ↔
    ∃ mid, Spelled ls tokens mid ∧ Spelled ms mid rest := by
  induction ls generalizing tokens with
  | nil => simp
  | cons l ls ih =>
    rw [List.cons_append, spelled_cons]
    constructor
    · rintro ⟨offset, behind, rfl, hbehind⟩
      obtain ⟨mid, hl, hm⟩ := ih.1 hbehind
      exact ⟨mid, hl.cons l, hm⟩
    · rintro ⟨mid, hl, hm⟩
      obtain ⟨offset, behind, rfl, hbehind⟩ := spelled_cons.1 hl
      exact ⟨offset, behind, rfl, ih.2 ⟨mid, hbehind, hm⟩⟩

theorem spelled_all : Spelled ls tokens [] ↔ tokens.map Token.lexeme = ls := by
  simp [Spelled]

end Spelled

/-- A power of the variable as it is written: whether a star stands before the variable, and the
literal behind a caret, if there is one. -/
structure WrittenPower where
  star : Bool
  exponent : Option (List Char)

/-- A term as it is written; of the sign it is told whether it is a minus. -/
structure WrittenTerm where
  sign : Option Bool
  digits : List Char
  power : Option WrittenPower

def signLexemes : Option Bool → List Lexeme
  | none => []
  | some false => [.plus]
  | some true => [.minus]

def exponentLexemes : Option (List Char) → List Lexeme
  | none => []
  | some digits => [.caret, .literal digits]

def powerLexemes : Option WrittenPower → List Lexeme
  | none => []
  | some p => (if p.star then [.star] else []) ++ .x :: exponentLexemes p.exponent

def exponentValue : Option (List Char) → Nat
  | none => 1
  | some digits => TermReader.literalValue digits

def powerValue : Option WrittenPower → Nat
  | none => 0
  | some p => exponentValue p.exponent

namespace WrittenTerm

def lexemes (t : WrittenTerm) : List Lexeme :=
  signLexemes t.sign ++ .literal t.digits :: powerLexemes t.power

def negative (t : WrittenTerm) : Bool := t.sign.getD false

def exponent (t : WrittenTerm) : Nat := powerValue t.power

def value (t : WrittenTerm) : Int :=
  if t.negative then -(TermReader.literalValue t.digits : Int)
  else TermReader.literalValue t.digits

/-- The literals are in range and denote the parts of a term. -/
def Means {C : Type} [Coefficient C] (t : WrittenTerm) (term : Term C) : Prop :=
  TermReader.coefficient? t.negative t.digits = some term.coeff ∧ t.exponent = term.exponent.val

end WrittenTerm

namespace TermReader

variable {C : Type} [Coefficient C] {tokens rest : List Token}

private theorem readExponent_of_endsTerm (hend : endsTerm rest = true) :
    readExponent rest = .ok (1, rest) := by
  rw [readExponent.eq_def]
  split
  · cases hend
  · rfl

private theorem readPower_of_endsTerm (hend : endsTerm rest = true) :
    readPower rest = .ok (0, rest) := by
  rw [readPower.eq_def]
  split
  · cases hend
  · cases hend
  · cases hend
  · rfl

theorem readExponent_eq_ok_iff {e : Exponent} (hend : endsTerm rest = true) :
    readExponent tokens = .ok (e, rest) ↔
      ∃ exponent, Spelled (exponentLexemes exponent) tokens rest ∧
        exponentValue exponent = e.val := by
  constructor
  · intro h
    rw [readExponent.eq_def] at h
    split at h
    · obtain ⟨digits, offset, rfl, hm⟩ := readLiteral_eq_ok_iff.1 h
      exact ⟨some digits, (Spelled.nil.cons (.literal digits)).cons .caret,
        Exponent.ofNat?_eq_some_iff.1 hm⟩
    · cases h
      exact ⟨none, Spelled.nil, rfl⟩
  · rintro ⟨exponent, hspell, hvalue⟩
    cases exponent with
    | none =>
      rw [spelled_nil.1 hspell, readExponent_of_endsTerm hend, Fin.ext (a := 1) hvalue]
    | some digits =>
      obtain ⟨caret, behind, rfl, hliteral⟩ := spelled_cons.1 hspell
      obtain ⟨offset, after, rfl, hafter⟩ := spelled_cons.1 hliteral
      cases spelled_nil.1 hafter
      have hmeaning : exponent? digits = some e := Exponent.ofNat?_eq_some_iff.2 hvalue
      exact readLiteral_eq_ok_iff.2 ⟨digits, offset, rfl, hmeaning⟩

theorem readPower_eq_ok_iff {e : Exponent} (hend : endsTerm rest = true) :
    readPower tokens = .ok (e, rest) ↔
      ∃ power, Spelled (powerLexemes power) tokens rest ∧ powerValue power = e.val := by
  constructor
  · intro h
    rw [readPower.eq_def] at h
    split at h
    · obtain ⟨exponent, hspell, hvalue⟩ := (readExponent_eq_ok_iff hend).1 h
      exact ⟨some ⟨false, exponent⟩, hspell.cons .x, hvalue⟩
    · obtain ⟨exponent, hspell, hvalue⟩ := (readExponent_eq_ok_iff hend).1 h
      exact ⟨some ⟨true, exponent⟩, (hspell.cons .x).cons .star, hvalue⟩
    · cases h
    · cases h
      exact ⟨none, Spelled.nil, rfl⟩
  · rintro ⟨power, hspell, hvalue⟩
    rcases power with - | ⟨star, exponent⟩
    · rw [spelled_nil.1 hspell, readPower_of_endsTerm hend, Fin.ext (a := 0) hvalue]
    · cases star with
      | false =>
        obtain ⟨offset, behind, rfl, hbehind⟩ := spelled_cons.1 hspell
        exact (readExponent_eq_ok_iff hend).2 ⟨exponent, hbehind, hvalue⟩
      | true =>
        obtain ⟨star, behind, rfl, hvariable⟩ := spelled_cons.1 hspell
        obtain ⟨offset, behind, rfl, hbehind⟩ := spelled_cons.1 hvariable
        exact (readExponent_eq_ok_iff hend).2 ⟨exponent, hbehind, hvalue⟩

theorem readUnsigned_eq_ok_iff {negative : Bool} {term : Term C} :
    readUnsigned negative tokens = .ok (term, rest) ↔ endsTerm rest = true ∧
      ∃ digits power, Spelled (.literal digits :: powerLexemes power) tokens rest ∧
        coefficient? negative digits = some term.coeff ∧ powerValue power = term.exponent.val := by
  constructor
  · intro h
    obtain ⟨⟨c, behind⟩, hliteral, h⟩ := bind_eq_ok_iff.1 h
    obtain ⟨⟨e, after⟩, hpower, h⟩ := bind_eq_ok_iff.1 h
    dsimp only at h
    split at h
    · rename_i hend
      cases h
      obtain ⟨digits, offset, rfl, hcoeff⟩ := readLiteral_eq_ok_iff.1 hliteral
      obtain ⟨power, hspell, hvalue⟩ := (readPower_eq_ok_iff hend).1 hpower
      exact ⟨hend, digits, power, hspell.cons _, hcoeff, hvalue⟩
    · cases h
  · rintro ⟨hend, digits, power, hspell, hcoeff, hvalue⟩
    obtain ⟨offset, behind, rfl, hbehind⟩ := spelled_cons.1 hspell
    have hliteral : readLiteral (coefficient? negative) (⟨.literal digits, offset⟩ :: behind) =
        .ok (term.coeff, behind) := readLiteral_eq_ok_iff.2 ⟨digits, offset, rfl, hcoeff⟩
    have hpower : readPower behind = .ok (term.exponent, rest) :=
      (readPower_eq_ok_iff hend).2 ⟨power, hbehind, hvalue⟩
    rw [readUnsigned, hliteral, ok_bind]
    dsimp only
    rw [hpower, ok_bind]
    dsimp only
    rw [if_pos hend]
    rfl

private theorem readSign_of_spelled {required : Bool} {sign : Option Bool} {digits : List Char}
    {ls : List Lexeme} {behind : List Token} (hrequired : required = true → sign.isSome = true)
    (hsign : Spelled (signLexemes sign) tokens behind)
    (hbehind : Spelled (.literal digits :: ls) behind rest) :
    readSign required tokens = .ok (sign.getD false, behind) := by
  rcases sign with - | (- | -)
  · cases spelled_nil.1 hsign
    obtain ⟨offset, behind, rfl, -⟩ := spelled_cons.1 hbehind
    cases required with
    | false => rfl
    | true => cases hrequired rfl
  · obtain ⟨offset, behind, rfl, hb⟩ := spelled_cons.1 hsign
    cases spelled_nil.1 hb
    rfl
  · obtain ⟨offset, behind, rfl, hb⟩ := spelled_cons.1 hsign
    cases spelled_nil.1 hb
    rfl

theorem readTerm_of_refused {required : Bool} {sign : Option Bool} {digits : List Char}
    {offset : Nat} (hrequired : required = true → sign.isSome = true)
    (hsign : Spelled (signLexemes sign) tokens (⟨.literal digits, offset⟩ :: rest))
    (hcoeff : coefficient? (C := C) (sign.getD false) digits = none) :
    readTerm (C := C) required tokens = .error
      ⟨.integerOverflow offset (String.ofList digits), ⟨.literal digits, offset⟩ :: rest⟩ := by
  have hliteral : readLiteral (coefficient? (C := C) (sign.getD false))
      (⟨.literal digits, offset⟩ :: rest) = .error
        ⟨.integerOverflow offset (String.ofList digits), ⟨.literal digits, offset⟩ :: rest⟩ := by
    rw [readLiteral, hcoeff]
  rw [readTerm, readSign_of_spelled hrequired hsign (Spelled.nil.cons (.literal digits)), ok_bind]
  exact bind_eq_error_iff.2 (.inl hliteral)

theorem readTerm_of_meaningless {required : Bool} {t : WrittenTerm}
    (hrequired : required = true → t.sign.isSome = true) (hspell : Spelled t.lexemes tokens rest)
    (hcoeff : coefficient? (C := C) t.negative t.digits = none) :
    ∃ offset behind, readTerm (C := C) required tokens = .error
      ⟨.integerOverflow offset (String.ofList t.digits),
        ⟨.literal t.digits, offset⟩ :: behind⟩ := by
  obtain ⟨mid, hsign, hmid⟩ := spelled_append.1 hspell
  obtain ⟨offset, behind, rfl, -⟩ := spelled_cons.1 hmid
  exact ⟨offset, behind, readTerm_of_refused hrequired hsign hcoeff⟩

/-- A term is read exactly if it is written, means something and may end where it does. -/
theorem readTerm_eq_ok_iff {required : Bool} {term : Term C} :
    readTerm required tokens = .ok (term, rest) ↔ endsTerm rest = true ∧
      ∃ t : WrittenTerm, (required = true → t.sign.isSome = true) ∧
        Spelled t.lexemes tokens rest ∧ t.Means term := by
  constructor
  · intro h
    obtain ⟨⟨negative, behind⟩, hsign, h⟩ := bind_eq_ok_iff.1 h
    obtain ⟨hend, digits, power, hspell, hcoeff, hvalue⟩ := readUnsigned_eq_ok_iff.1 h
    refine ⟨hend, ?_⟩
    rw [readSign.eq_def] at hsign
    split at hsign
    · cases hsign
      exact ⟨⟨some false, digits, power⟩, fun _ => rfl, hspell.cons .plus, hcoeff, hvalue⟩
    · cases hsign
      exact ⟨⟨some true, digits, power⟩, fun _ => rfl, hspell.cons .minus, hcoeff, hvalue⟩
    · -- There is no term where there is no token.
      cases hsign
      obtain ⟨_, _, h, -⟩ := spelled_cons.1 hspell
      cases h
    · split at hsign
      · cases hsign
      · rename_i hfree
        cases hsign
        exact ⟨⟨none, digits, power⟩, fun h => absurd h hfree, hspell, hcoeff, hvalue⟩
  · rintro ⟨hend, ⟨sign, digits, power⟩, hrequired, hspell, hcoeff, hvalue⟩
    obtain ⟨behind, hsign, hbehind⟩ := spelled_append.1 hspell
    rw [readTerm, readSign_of_spelled hrequired hsign hbehind, ok_bind]
    exact readUnsigned_eq_ok_iff.2 ⟨hend, digits, power, hbehind, hcoeff, hvalue⟩

end TermReader

end Univariate
