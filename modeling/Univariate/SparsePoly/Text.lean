import Univariate.SparsePoly.Basic
import Univariate.Text.TermProgress

/-! # Polynomials as text

The terms are written from the highest exponent down, each as its sign and its magnitude.  Between
terms stand single blanks; in front of the first term a plus sign is left out and a minus sign is
not.  The zero polynomial is the empty text.

A text is read as a sequence of terms that are then summed.  The strict mode stops at the first
token that does not belong, asks for a sign before every term but the first, and for at least one
term.  The permissive mode skips from a refused term to the next sign and never reports an error.
Terms are summed as they are read, so a sum that is out of range comes before an error behind it. -/

namespace Univariate

/-- The written form of a power of the variable behind a coefficient; nothing for the power zero. -/
def Term.powerText (e : Exponent) : List Char :=
  if e.val = 0 then []
  else if e.val = 1 then ['x']
  else 'x' :: '^' :: Nat.toDigits 10 e.val

/-- The written form `c`, `cx` or `cx^e` of a term, with the coefficient as it is. -/
def Term.text {C : Type} [WrittenCoefficient C] (t : Term C) : List Char :=
  WrittenCoefficient.text t.coeff ++ powerText t.exponent

namespace SparsePoly

section Rendering

variable {C : Type} [OrderedCoefficient C] [WrittenCoefficient C]

def signText (first negative : Bool) : List Char :=
  match first, negative with
  | true, false => []
  | true, true => ['-', ' ']
  | false, false => [' ', '+', ' ']
  | false, true => [' ', '-', ' ']

def renderTerms (first : Bool) : List (Term C) → Except Fault (List Char)
  | [] => .ok []
  | t :: rest => do
    let magnitude ← OrderedCoefficient.abs t.coeff
    let tail ← renderTerms false rest
    return signText first (OrderedCoefficient.isNegative t.coeff) ++
      Term.text ⟨t.exponent, magnitude⟩ ++ tail

def render (p : SparsePoly C) : Except Fault String := do
  return String.ofList (← renderTerms true p.terms.reverse)

@[simp] theorem render_zero : (zero : SparsePoly C).render = .ok "" := rfl

end Rendering

end SparsePoly

/-- What is done with text that is no term. -/
inductive ParseMode
  | permissive
  | strict
  deriving DecidableEq, Repr

instance : Inhabited ParseMode := ⟨.permissive⟩

namespace ParseMode

/-- Whether a term has to have a sign; `first` tells that no term has been read before. -/
def signRequired : ParseMode → (first : Bool) → Bool
  | permissive, _ => false
  | strict, first => !first

def endError? : ParseMode → (first : Bool) → Option ParseError
  | strict, true => some .noTerms
  | _, _ => none

@[simp] theorem endError?_false (mode : ParseMode) : mode.endError? false = none := by
  cases mode <;> rfl

end ParseMode

namespace SparsePoly

variable {C : Type} [Coefficient C]

/-- The terms that can be read from tokens, and the error that ends them, if there is one; `first`
tells that no term has been read before. -/
def readTerms (mode : ParseMode) (first : Bool) :
    List Token → List (Term C) × Option ParseError
  | [] => ([], mode.endError? first)
  | token :: rest =>
    match _ : TermReader.readTerm (C := C) (mode.signRequired first) (token :: rest) with
    | .ok (term, behind) =>
      let (terms, error) := readTerms mode false behind
      (term :: terms, error)
    | .error refusal =>
      match mode with
      | .strict => ([], some refusal.error)
      | .permissive => readTerms .permissive first refusal.resume
termination_by tokens => tokens.length
decreasing_by
  · exact TermReader.length_lt_of_readTerm ‹_›
  · exact TermReader.length_resume_lt ‹_›

section Equations

variable {mode : ParseMode} {first : Bool} {token : Token} {rest behind : List Token}
  {term : Term C} {refusal : Refusal}

@[simp] theorem readTerms_nil :
    readTerms (C := C) mode first [] = ([], mode.endError? first) := by
  rw [readTerms]

theorem readTerms_cons_of_ok
    (h : TermReader.readTerm (mode.signRequired first) (token :: rest) = .ok (term, behind)) :
    readTerms mode first (token :: rest) =
      (term :: (readTerms mode false behind).1, (readTerms (C := C) mode false behind).2) := by
  rw [readTerms]
  split <;> have same := h.symm.trans ‹_› <;> cases same
  rfl

theorem readTerms_strict_of_error
    (h : TermReader.readTerm (C := C) (!first) (token :: rest) = .error refusal) :
    readTerms (C := C) .strict first (token :: rest) = ([], some refusal.error) := by
  rw [readTerms]
  split <;> have same := h.symm.trans ‹_› <;> cases same
  rfl

theorem readTerms_permissive_of_ok
    (h : TermReader.readTerm false (token :: rest) = .ok (term, behind)) :
    readTerms .permissive first (token :: rest) =
      (term :: (readTerms .permissive false behind).1,
        (readTerms (C := C) .permissive false behind).2) := by
  have hread : TermReader.readTerm (ParseMode.permissive.signRequired first) (token :: rest) =
      .ok (term, behind) := h
  exact readTerms_cons_of_ok hread

theorem readTerms_permissive_of_error
    (h : TermReader.readTerm (C := C) false (token :: rest) = .error refusal) :
    readTerms (C := C) .permissive first (token :: rest) =
      readTerms .permissive first refusal.resume := by
  rw [readTerms]
  split <;> have same := h.symm.trans ‹_› <;> cases same
  rfl

end Equations

def parseWith (mode : ParseMode) (text : String) :
    Except (Failure ParseError) (SparsePoly C) := do
  let (terms, error) := readTerms mode true (Token.scan text)
  let p ← attempt (ofTerms terms)
  match error with
  | none => return p
  | some e => throw (.reported e)

section Outcomes

variable {mode : ParseMode} {text : String} {terms : List (Term C)} {p : SparsePoly C}

theorem parseWith_of_readTerms (h : readTerms mode true (Token.scan text) = (terms, none)) :
    parseWith mode text = attempt (ofTerms terms) := by
  rw [parseWith, h]
  dsimp only
  cases ofTerms terms <;> rfl

theorem parseWith_of_readTerms_error {e : ParseError}
    (h : readTerms mode true (Token.scan text) = (terms, some e)) (hsum : ofTerms terms = .ok p) :
    parseWith (C := C) mode text = .error (.reported e) := by
  rw [parseWith, h]
  dsimp only
  rw [hsum]
  rfl

theorem readTerms_of_parseWith (h : parseWith mode text = .ok p) :
    ∃ terms, readTerms mode true (Token.scan text) = (terms, none) ∧ ofTerms terms = .ok p := by
  obtain ⟨q, hsum, h⟩ := bind_eq_ok_iff.1 h
  cases herror : (readTerms (C := C) mode true (Token.scan text)).2 with
  | none =>
    rw [herror] at h
    cases h
    exact ⟨_, Prod.ext rfl herror, attempt_eq_ok_iff.1 hsum⟩
  | some e =>
    rw [herror] at h
    cases h

theorem readTerms_of_parseWith_error {e : ParseError}
    (h : parseWith (C := C) mode text = .error (.reported e)) :
    (readTerms (C := C) mode true (Token.scan text)).2 = some e := by
  rcases bind_eq_error_iff.1 h with hsum | ⟨p, -, h⟩
  · exact absurd hsum attempt_ne_reported
  · cases herror : (readTerms (C := C) mode true (Token.scan text)).2 with
    | none =>
      rw [herror] at h
      cases h
    | some e =>
      rw [herror] at h
      cases h
      rfl

theorem parseWith_eq_reported_iff {e : ParseError} :
    parseWith (C := C) mode text = .error (.reported e) ↔
      (readTerms (C := C) mode true (Token.scan text)).2 = some e ∧
        ∃ p, ofTerms (readTerms (C := C) mode true (Token.scan text)).1 = .ok p := by
  constructor
  · intro h
    refine ⟨readTerms_of_parseWith_error h, ?_⟩
    rcases bind_eq_error_iff.1 h with hsum | ⟨p, hsum, -⟩
    · exact absurd hsum attempt_ne_reported
    · exact ⟨p, attempt_eq_ok_iff.1 hsum⟩
  · rintro ⟨herror, p, hsum⟩
    exact parseWith_of_readTerms_error (Prod.ext rfl herror) hsum

/-- Whatever is read, only the sum of the terms is ever stopped. -/
theorem parseWith_eq_stopped_iff {f : Fault} : parseWith (C := C) mode text = .error (.stopped f) ↔
    ofTerms (readTerms (C := C) mode true (Token.scan text)).1 = .error f := by
  constructor
  · intro h
    rcases bind_eq_error_iff.1 h with hsum | ⟨p, -, h⟩
    · exact attempt_eq_stopped_iff.1 hsum
    · split at h <;> cases h
  · intro h
    exact bind_eq_error_iff.2 (.inl (attempt_eq_stopped_iff.2 h))

end Outcomes

def parse (text : String) : Except Fault (SparsePoly C) :=
  ofTerms (readTerms .permissive true (Token.scan text)).1

end SparsePoly

end Univariate
