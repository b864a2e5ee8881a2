import Univariate.Coefficient.Signed
import Univariate.Text.TermProgress

/-! # Magnitudes as words

A coefficient may be read in smaller steps: its literal as a word of 64 bits, then the sign, then
the conversion to the type of the coefficients.  The negation is a step that can be out of range,
but no magnitude is so large.  So reading by words is never stopped, and it gives the terms and the
errors that reading by integers gives.  Only the token at which a refused coefficient leaves off
differs, and from there on both resume at the same sign. -/

namespace Univariate.TermReader

variable {α β C : Type} [Coefficient C] {tokens rest : List Token}

/-- The word of 64 bits that a literal stands for. -/
def magnitude? (digits : List Char) : Option (Signed 64) := Signed.ofInt? (literalValue digits)

def withSign (negative : Bool) (magnitude : Signed 64) : Except Fault (Signed 64) :=
  if negative then Coefficient.neg magnitude else .ok magnitude

def overflowAt : List Token → ParseError
  | [] => .unexpectedEnd
  | t :: _ => .integerOverflow t.offset (String.ofList t.lexeme.text)

def answered (x : Except Refusal α) : Except (Failure Refusal) α := x.mapError .reported

/-- Reads a coefficient by its word.  If the word is out of the range of the coefficients, the
literal has been passed already. -/
def readWord (negative : Bool) (tokens : List Token) :
    Except (Failure Refusal) (C × List Token) := do
  let (magnitude, rest) ← answered (readLiteral magnitude? tokens)
  let word ← attempt (withSign negative magnitude)
  match Coefficient.ofInt? word.val with
  | some coeff => return (coeff, rest)
  | none => throw (.reported ⟨overflowAt tokens, rest⟩)

/-- Reads a term by the word of its coefficient. -/
def readTermByWord (signRequired : Bool) (tokens : List Token) :
    Except (Failure Refusal) (Term C × List Token) := do
  let (negative, tokens) ← answered (readSign signRequired tokens)
  let (coeff, tokens) ← readWord negative tokens
  let (exponent, tokens) ← answered (readPower tokens)
  if endsTerm tokens then return (⟨exponent, coeff⟩, tokens)
  else throw (.reported (.unexpected tokens))

theorem magnitude?_eq_some_iff {digits : List Char} {word : Signed 64} :
    magnitude? digits = some word ↔ (literalValue digits : Int) = word.val :=
  Signed.ofInt?_eq_some_iff

theorem magnitude?_eq_none_iff {digits : List Char} :
    magnitude? digits = none ↔ ¬ literalValue digits ≤ largestMagnitude := by
  have hhalf : (halfRange 64 : Int) = 9223372036854775808 := by decide
  rw [magnitude?, Signed.ofInt?_eq_none_iff, Fits, hhalf, largestMagnitude]
  omega

/-- The range of words is longer below zero than above, so a magnitude has a negative. -/
theorem withSign_magnitude {digits : List Char} {word : Signed 64}
    (h : magnitude? digits = some word) (negative : Bool) : ∃ signed : Signed 64,
      withSign negative word = .ok signed ∧
        signed.val = if negative then -(literalValue digits : Int) else literalValue digits := by
  rw [magnitude?_eq_some_iff] at h
  cases negative with
  | false => exact ⟨word, rfl, h.symm⟩
  | true =>
    obtain ⟨hlow, hhigh⟩ := word.fits
    have hfits : Fits 64 (-word.val) := ⟨by omega, by omega⟩
    exact ⟨⟨-word.val, hfits⟩, Signed.checked_eq_ok_iff.2 rfl, by simp [h]⟩

/-- What a reader leaves, or leaves off at, is an end part of the tokens. -/
def Leaves (tokens : List Token) (x : Except Refusal (α × List Token)) : Prop :=
  Ends (fun result => result.2 <:+ tokens) (fun refusal => refusal.rest <:+ tokens) x

theorem Leaves.mono {x : Except Refusal (α × List Token)} (h : Leaves rest x)
    (hrest : rest <:+ tokens) : Leaves tokens x := by
  cases x with
  | ok result => exact List.IsSuffix.trans h hrest
  | error refusal => exact List.IsSuffix.trans h hrest

private theorem rest_unexpected (tokens : List Token) :
    (Refusal.unexpected tokens).rest = tokens := by
  cases tokens <;> rfl

private theorem leaves_unexpected : Leaves (α := α) tokens (.error (.unexpected tokens)) := by
  simp only [Leaves, Ends, rest_unexpected, List.suffix_rfl]

private theorem leaves_readLiteral (meaning : List Char → Option α) (tokens : List Token) :
    Leaves tokens (readLiteral meaning tokens) := by
  rw [readLiteral.eq_def]
  split
  · split
    · exact List.suffix_cons ..
    · exact List.suffix_rfl
  · exact leaves_unexpected

private theorem leaves_readSign (required : Bool) (tokens : List Token) :
    Leaves tokens (readSign required tokens) := by
  rw [readSign.eq_def]
  split
  · exact List.suffix_cons ..
  · exact List.suffix_cons ..
  · exact List.suffix_rfl
  · split <;> exact List.suffix_rfl

private theorem leaves_readExponent (tokens : List Token) :
    Leaves tokens (readExponent tokens) := by
  rw [readExponent.eq_def]
  split
  · exact (leaves_readLiteral exponent? _).mono (List.suffix_cons ..)
  · exact List.suffix_rfl

private theorem leaves_readPower (tokens : List Token) : Leaves tokens (readPower tokens) := by
  rw [readPower.eq_def]
  split
  · exact (leaves_readExponent _).mono (List.suffix_cons ..)
  · exact (leaves_readExponent _).mono ((List.suffix_cons ..).trans (List.suffix_cons ..))
  · exact leaves_unexpected.mono (List.suffix_cons ..)
  · exact List.suffix_rfl

/-- Two readers give the same result or the same error, resume at the same token after it, and
leave an end part of the tokens.  The second is not stopped. -/
def SameReading (tokens : List Token) :
    Except Refusal (α × List Token) → Except (Failure Refusal) (α × List Token) → Prop
  | .ok result, .ok result' => result' = result ∧ result.2 <:+ tokens
  | .error refusal, .error (.reported refusal') =>
    refusal'.error = refusal.error ∧ refusal'.resume = refusal.resume ∧ refusal'.rest <:+ tokens
  | _, _ => False

theorem Leaves.same {x : Except Refusal (α × List Token)} (h : Leaves tokens x) :
    SameReading tokens x (answered x) := by
  cases x with
  | ok result => exact ⟨rfl, h⟩
  | error refusal => exact ⟨rfl, rfl, h⟩

theorem SameReading.mono {x : Except Refusal (α × List Token)}
    {y : Except (Failure Refusal) (α × List Token)} (h : SameReading rest x y)
    (hrest : rest <:+ tokens) : SameReading tokens x y := by
  rcases x with refusal | result <;> rcases y with (refusal' | fault) | result'
  · exact ⟨h.1, h.2.1, h.2.2.trans hrest⟩
  · exact h
  · exact h
  · exact h
  · exact h
  · exact ⟨h.1, h.2.trans hrest⟩

theorem SameReading.bind {x : Except Refusal (α × List Token)}
    {y : Except (Failure Refusal) (α × List Token)}
    {f : α × List Token → Except Refusal (β × List Token)}
    {g : α × List Token → Except (Failure Refusal) (β × List Token)}
    (h : SameReading tokens x y)
    (hbehind : ∀ a rest, SameReading rest (f (a, rest)) (g (a, rest))) :
    SameReading tokens (x >>= f) (y >>= g) := by
  rcases x with refusal | ⟨a, rest⟩ <;> rcases y with (refusal' | fault) | result'
  · exact h
  · exact h
  · exact h.elim
  · exact h.elim
  · exact h.elim
  · obtain ⟨rfl, hrest⟩ := h
    exact (hbehind a rest).mono hrest

private theorem readWord_of_word {digits : List Char} {offset : Nat} {negative : Bool}
    {magnitude word : Signed 64} (hmagnitude : magnitude? digits = some magnitude)
    (hword : withSign negative magnitude = .ok word) :
    readWord (C := C) negative (⟨.literal digits, offset⟩ :: rest) =
      match Coefficient.ofInt? word.val with
      | some coeff => .ok (coeff, rest)
      | none => .error (.reported ⟨.integerOverflow offset (String.ofList digits), rest⟩) := by
  rw [readWord, readLiteral, hmagnitude]
  dsimp only [answered, Except.mapError]
  rw [ok_bind]
  dsimp only
  rw [hword, attempt_ok, ok_bind]
  rfl

theorem sameReading_readWord (negative : Bool) (tokens : List Token) :
    SameReading tokens (readLiteral (coefficient? (C := C) negative) tokens)
      (readWord negative tokens) := by
  cases tokens with
  | nil => exact ⟨rfl, rfl, List.suffix_rfl⟩
  | cons token rest =>
    obtain ⟨l, offset⟩ := token
    cases l with
    | literal digits =>
      cases hmagnitude : magnitude? digits with
      | none =>
        have hcoeff : coefficient? (C := C) negative digits = none :=
          if_neg (magnitude?_eq_none_iff.1 hmagnitude)
        rw [readWord, readLiteral, readLiteral, hcoeff, hmagnitude]
        exact ⟨rfl, rfl, List.suffix_rfl⟩
      | some magnitude =>
        obtain ⟨word, hword, hval⟩ := withSign_magnitude hmagnitude negative
        have hle : literalValue digits ≤ largestMagnitude := by
          refine Decidable.byContradiction fun hgt => ?_
          cases hmagnitude.symm.trans (magnitude?_eq_none_iff.2 hgt)
        have hcoeff : coefficient? (C := C) negative digits = Coefficient.ofInt? word.val := by
          rw [coefficient?, if_pos hle, hval]
        rw [readWord_of_word hmagnitude hword, readLiteral, hcoeff]
        cases (Coefficient.ofInt? word.val : Option C) with
        | none => exact ⟨rfl, rfl, List.suffix_cons ..⟩
        | some coeff => exact ⟨rfl, List.suffix_cons ..⟩
    | _ => exact ⟨rfl, rfl, List.suffix_rfl⟩

/-- A term by the word of its coefficient is the term. -/
theorem sameReading_readTermByWord (required : Bool) (tokens : List Token) :
    SameReading tokens (readTerm (C := C) required tokens) (readTermByWord required tokens) := by
  refine (leaves_readSign required tokens).same.bind fun negative tokens => ?_
  refine (sameReading_readWord negative tokens).bind fun coeff tokens => ?_
  refine (leaves_readPower tokens).same.bind fun exponent tokens => ?_
  dsimp only
  split
  · exact ⟨rfl, List.suffix_rfl⟩
  · exact leaves_unexpected.same

theorem readTermByWord_of_ok {required : Bool} {result : Term C × List Token}
    (h : readTerm required tokens = .ok result) :
    readTermByWord required tokens = .ok result ∧ result.2 <:+ tokens := by
  have hsame := sameReading_readTermByWord (C := C) required tokens
  rw [h] at hsame
  rcases hread : readTermByWord (C := C) required tokens with (refusal | fault) | result'
  all_goals rw [hread] at hsame
  · exact hsame.elim
  · exact hsame.elim
  · exact ⟨congrArg _ hsame.1, hsame.2⟩

theorem readTermByWord_of_error {required : Bool} {refusal : Refusal}
    (h : readTerm (C := C) required tokens = .error refusal) : ∃ refusal',
      readTermByWord (C := C) required tokens = .error (.reported refusal') ∧
        refusal'.error = refusal.error ∧ refusal'.resume = refusal.resume ∧
        refusal'.rest <:+ tokens := by
  have hsame := sameReading_readTermByWord (C := C) required tokens
  rw [h] at hsame
  rcases hread : readTermByWord (C := C) required tokens with (refusal' | fault) | result'
  all_goals rw [hread] at hsame
  · exact ⟨refusal', rfl, hsame⟩
  · exact hsame.elim
  · exact hsame.elim

end Univariate.TermReader
