import Univariate.Coefficient.Basic
import Univariate.Text.Token

/-! # Reading one term

A term is an optional sign, a literal, and optionally the variable, which a star may precede and an
exponent may follow behind a caret.  Behind it a sign, a literal or the end of the text must come.
Every reader takes the tokens from its position on and gives back those behind what it has read, or
refuses at a certain token. -/

namespace Univariate

/-- An error, and the tokens from the one on at which reading stopped. -/
structure Refusal where
  error : ParseError
  rest : List Token
  deriving DecidableEq, Repr

namespace Refusal

def unexpected : List Token → Refusal
  | [] => ⟨.unexpectedEnd, []⟩
  | t :: rest => ⟨.unexpectedToken t.offset (String.ofList t.lexeme.text), t :: rest⟩

/-- The tokens from the next sign on. -/
def resume (r : Refusal) : List Token := r.rest.dropWhile (!·.lexeme.isSign)

end Refusal

namespace TermReader

def literalValue (digits : List Char) : Nat := Nat.ofDigitChars 10 digits 0

@[simp] theorem literalValue_toDigits (n : Nat) : literalValue (Nat.toDigits 10 n) = n :=
  Nat.ofDigitChars_ten_toDigits

/-- The largest magnitude of a coefficient that can be written, `2 ^ 63 - 1`. -/
def largestMagnitude : Nat := 9223372036854775807

/-- The coefficient that a literal behind a sign stands for: the magnitude is bounded first, then
the signed number has to be in the range of the coefficients. -/
def coefficient? {C : Type} [Coefficient C] (negative : Bool) (digits : List Char) : Option C :=
  let magnitude := literalValue digits
  if magnitude ≤ largestMagnitude then
    Coefficient.ofInt? (if negative then -(magnitude : Int) else magnitude)
  else none

def exponent? (digits : List Char) : Option Exponent := Exponent.ofNat? (literalValue digits)

/-- Reads a literal that has a meaning. -/
def readLiteral {α : Type} (meaning : List Char → Option α) :
    List Token → Except Refusal (α × List Token)
  | ⟨.literal digits, offset⟩ :: rest =>
    match meaning digits with
    | some a => .ok (a, rest)
    | none => .error ⟨.integerOverflow offset (String.ofList digits),
        ⟨.literal digits, offset⟩ :: rest⟩
  | tokens => .error (.unexpected tokens)

/-- Reads a sign, and tells whether it is a minus.  Where no sign stands the term is positive, or
it is refused if a sign is required. -/
def readSign (required : Bool) : List Token → Except Refusal (Bool × List Token)
  | ⟨.plus, _⟩ :: rest => .ok (false, rest)
  | ⟨.minus, _⟩ :: rest => .ok (true, rest)
  | [] => .ok (false, [])
  | t :: rest =>
    if required then .error ⟨.missingSign t.offset, t :: rest⟩ else .ok (false, t :: rest)

/-- Reads the exponent behind the variable; it is one if no caret stands there. -/
def readExponent : List Token → Except Refusal (Exponent × List Token)
  | ⟨.caret, _⟩ :: rest => readLiteral exponent? rest
  | tokens => .ok (1, tokens)

/-- Reads the power of the variable behind a coefficient; behind a star it cannot be missing. -/
def readPower : List Token → Except Refusal (Exponent × List Token)
  | ⟨.x, _⟩ :: rest => readExponent rest
  | ⟨.star, _⟩ :: ⟨.x, _⟩ :: rest => readExponent rest
  | ⟨.star, _⟩ :: rest => .error (.unexpected rest)
  | tokens => .ok (0, tokens)

def endsTerm : List Token → Bool
  | [] => true
  | t :: _ =>
    match t.lexeme with
    | .plus | .minus | .literal _ => true
    | _ => false

def readUnsigned {C : Type} [Coefficient C] (negative : Bool) (tokens : List Token) :
    Except Refusal (Term C × List Token) := do
  let (coeff, tokens) ← readLiteral (coefficient? negative) tokens
  let (exponent, tokens) ← readPower tokens
  if endsTerm tokens then return (⟨exponent, coeff⟩, tokens)
  else throw (.unexpected tokens)

def readTerm {C : Type} [Coefficient C] (signRequired : Bool) (tokens : List Token) :
    Except Refusal (Term C × List Token) := do
  let (negative, tokens) ← readSign signRequired tokens
  readUnsigned negative tokens

end TermReader

end Univariate
