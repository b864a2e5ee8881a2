import Univariate.Term

/-! # How a computation can fail

Two kinds of failure are told apart.  A *fault* stops a computation for good: a coefficient left
the range of its type, or two exponents could not be added where the caller asked for no report.  A
*reported* error is an answer that the caller asked for.  `Failure ε` is either of them, for
operations that can end in both ways.  The operations report errors of types of their own;
`PolyError` is their union, for callers that combine operations of several kinds. -/

namespace Univariate

inductive Operation
  | add
  | subtract
  | multiply
  | negate
  deriving DecidableEq, Repr

/-- Two exponents whose sum is no exponent, in the order in which they were to be added. -/
structure ExponentOverflow where
  lhs : Exponent
  rhs : Exponent
  deriving DecidableEq, Repr

namespace ExponentOverflow

def message (o : ExponentOverflow) : String :=
  s!"exponent x^{o.lhs.val} * x^{o.rhs.val} overflows"

end ExponentOverflow

inductive Fault
  | arithmetic (operation : Operation)
  | exponent (overflow : ExponentOverflow)
  deriving DecidableEq, Repr

namespace Fault

def message : Fault → String
  | arithmetic .add => "attempt to add with overflow"
  | arithmetic .subtract => "attempt to subtract with overflow"
  | arithmetic .multiply => "attempt to multiply with overflow"
  | arithmetic .negate => "attempt to negate with overflow"
  | exponent o => o.message

end Fault

inductive Failure (ε : Type)
  | reported (error : ε)
  | stopped (fault : Fault)
  deriving DecidableEq, Repr

/-- A computation that can only be stopped, as part of one that can also report an error. -/
def attempt {ε α : Type} (x : Except Fault α) : Except (Failure ε) α := x.mapError .stopped

section Attempt

variable {ε α : Type}

@[simp] theorem attempt_ok (a : α) : attempt (ε := ε) (.ok a) = .ok a := rfl

@[simp] theorem attempt_error (f : Fault) :
    attempt (ε := ε) (.error f : Except Fault α) = .error (.stopped f) := rfl

@[simp] theorem attempt_eq_ok_iff {x : Except Fault α} {a : α} :
    attempt (ε := ε) x = .ok a ↔ x = .ok a := by
  cases x <;> simp

@[simp] theorem attempt_eq_stopped_iff {x : Except Fault α} {f : Fault} :
    attempt (ε := ε) x = .error (.stopped f) ↔ x = .error f := by
  cases x <;> simp

@[simp] theorem attempt_ne_reported {x : Except Fault α} {e : ε} :
    attempt x ≠ .error (.reported e) := by
  cases x <;> simp

theorem attempt_bind {β : Type} (x : Except Fault α) (f : α → Except Fault β) :
    attempt (ε := ε) (x >>= f) = attempt x >>= fun a => attempt (f a) := by
  cases x <;> rfl

theorem attempt_foldlM {β : Type} (f : β → α → Except Fault β) (b : β) (l : List α) :
    attempt (ε := ε) (l.foldlM f b) = l.foldlM (fun b a => attempt (f b a)) b := by
  induction l generalizing b with
  | nil => rfl
  | cons a l ih => simp only [List.foldlM_cons, attempt_bind, ih]

end Attempt

/-- A quantity that the zero polynomial does not have. -/
inductive UndefinedOnZero
  | degree
  | denseCoefficients
  deriving DecidableEq, Repr

namespace UndefinedOnZero

def message : UndefinedOnZero → String
  | degree => "degree is undefined for the zero polynomial"
  | denseCoefficients => "dense_coefficients is undefined for the zero polynomial"

end UndefinedOnZero

inductive ParseError
  /-- There is no token at all. -/
  | noTerms
  /-- A token that cannot stand where it does. -/
  | unexpectedToken (offset : Nat) (found : String)
  /-- The text ends inside a term. -/
  | unexpectedEnd
  /-- A term other than the first begins without a sign. -/
  | missingSign (offset : Nat)
  /-- A literal is out of the range of the coefficients or of the exponents. -/
  | integerOverflow (offset : Nat) (literal : String)
  deriving DecidableEq, Repr

namespace ParseError

def message : ParseError → String
  | noTerms => "no polynomial terms recognized in input"
  | unexpectedToken offset found => s!"unexpected `{found}` at offset {offset}"
  | unexpectedEnd => "unexpected end of input"
  | missingSign offset => s!"missing `+` or `-` before term at offset {offset}"
  | integerOverflow offset literal =>
    s!"integer literal `{literal}` at offset {offset} is out of range"

end ParseError

inductive PolyError
  | undefinedOnZero (quantity : UndefinedOnZero)
  | exponentOverflow (overflow : ExponentOverflow)
  | parse (error : ParseError)
  deriving DecidableEq, Repr

namespace PolyError

def message : PolyError → String
  | undefinedOnZero q => q.message
  | exponentOverflow o => o.message
  | parse e => e.message

instance : Coe UndefinedOnZero PolyError := ⟨undefinedOnZero⟩

instance : Coe ExponentOverflow PolyError := ⟨exponentOverflow⟩

instance : Coe ParseError PolyError := ⟨parse⟩

end PolyError

end Univariate
