import Univariate.Failure

/-! # Coefficient types

What a polynomial needs from its coefficients is a handful of operations and an exact test for
zero.  No law is asked for: machine words leave their range, and floating-point numbers round,
underflow and have values that differ from themselves.  Whatever a statement needs beyond the
operations it takes as a hypothesis, or it is proved for one type.

Powers are formed by squaring, of coefficients as of polynomials.  The exponent is read from its
lowest bit.  Every set bit multiplies the running square into the accumulator, and the square is
advanced only while bits remain, so no square larger than the result needs is ever formed. -/

namespace Univariate

section BinaryPower

variable {ε α : Type}

/-- Multiplies `acc` by the `n`-th power of `base`, where `mul` may fail. -/
def binaryPower (mul : α → α → Except ε α) (acc base : α) (n : Nat) : Except ε α :=
  if n = 0 then .ok acc
  else do
    let acc ← if n % 2 = 1 then mul acc base else .ok acc
    if n / 2 = 0 then .ok acc
    else binaryPower mul acc (← mul base base) (n / 2)
termination_by n

@[simp] theorem binaryPower_zero (mul : α → α → Except ε α) (acc base : α) :
    binaryPower mul acc base 0 = .ok acc := by
  simp [binaryPower]

theorem binaryPower_of_ne_zero (mul : α → α → Except ε α) (acc base : α) {n : Nat} (hn : n ≠ 0) :
    binaryPower mul acc base n =
      (if n % 2 = 1 then mul acc base else .ok acc) >>= fun acc =>
        if n / 2 = 0 then .ok acc
        else mul base base >>= fun square => binaryPower mul acc square (n / 2) := by
  rw [binaryPower, if_neg hn]
  by_cases hodd : n % 2 = 1
  · simp only [if_pos hodd]
  · simp only [if_neg hodd]

@[simp] theorem binaryPower_one (mul : α → α → Except ε α) (acc base : α) :
    binaryPower mul acc base 1 = mul acc base := by
  rw [binaryPower]
  cases mul acc base <;> simp [bind, Except.bind]

end BinaryPower

/-- The operations on coefficients.  The arithmetic ones may stop with a fault. -/
class Coefficient (C : Type) extends BEq C where
  zero : C
  one : C
  isZero : C → Bool
  add : C → C → Except Fault C
  sub : C → C → Except Fault C
  mul : C → C → Except Fault C
  neg : C → Except Fault C
  /-- Embeds any integer, if need be by wrapping or rounding it. -/
  ofInt : Int → C
  /-- Embeds an integer that is in the range of the type. -/
  ofInt? : Int → Option C

namespace Coefficient

variable {C : Type} [Coefficient C]

/-- Whether a coefficient equals one, by the equality test of its type. -/
def isOne (x : C) : Bool := x == one

/-- Multiplies by an integer.  Zero times anything is zero without a multiplication. -/
def timesInt (x : C) (n : Int) : Except Fault C :=
  if n = 0 then .ok zero else mul x (ofInt n)

/-- The `n`-th power by squaring; the power zero is one for every coefficient. -/
def pow (x : C) (n : Nat) : Except Fault C := binaryPower mul one x n

@[simp] theorem timesInt_zero (x : C) : timesInt x 0 = .ok zero := rfl

@[simp] theorem pow_zero (x : C) : pow x 0 = .ok one := binaryPower_zero ..

@[simp] theorem pow_one (x : C) : pow x 1 = mul one x := binaryPower_one ..

end Coefficient

inductive Sign
  | negative
  | zero
  | positive
  deriving DecidableEq, Repr

namespace Sign

def toInt : Sign → Int
  | negative => -1
  | zero => 0
  | positive => 1

end Sign

class OrderedCoefficient (C : Type) extends Coefficient C where
  abs : C → Except Fault C
  sign : C → Sign

namespace OrderedCoefficient

variable {C : Type} [OrderedCoefficient C]

def isNegative (x : C) : Bool := sign x == .negative

end OrderedCoefficient

class FieldCoefficient (C : Type) extends Coefficient C where
  /-- The multiplicative inverse; zero has none. -/
  inv? : C → Option C
  /-- The quotient; what dividing by zero gives is up to the type. -/
  div : C → C → Except Fault C

class WrittenCoefficient (C : Type) where
  text : C → List Char

end Univariate
