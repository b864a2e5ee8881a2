import Univariate.SparsePoly.Basic

/-! # Values, dense view and derivatives

The value at a point is the sum of the values of the stored terms, in ascending order.  A constant
term is its own value everywhere, because the power zero of every point is one.

The degree of a polynomial other than zero is its highest exponent.  Up to the degree all its
coefficients can be listed, with zeros for the powers that are not stored.

In the derivative each term `c * x ^ e` with a positive exponent contributes `e * c * x ^ (e - 1)`.
The factor `e` is embedded into the coefficients before it is multiplied with, so in a narrow type
it may be wrapped. -/

namespace Univariate.SparsePoly

variable {C : Type} [Coefficient C]

/-- The value at `x`: each power of `x` is computed by itself, then multiplied by its coefficient
from the right and added to the sum of the terms before. -/
def eval (p : SparsePoly C) (x : C) : Except Fault C :=
  p.terms.foldlM
    (fun sum t => do
      let power ← Coefficient.pow x t.exponent.val
      Coefficient.add sum (← Coefficient.mul t.coeff power))
    Coefficient.zero

@[simp] theorem eval_zero (x : C) : zero.eval x = .ok Coefficient.zero := rfl

def degree (p : SparsePoly C) : Except UndefinedOnZero Exponent :=
  match p.leadingTerm? with
  | some t => .ok t.exponent
  | none => .error .degree

section Degree

omit [Coefficient C]

variable {p : SparsePoly C}

theorem degree_eq_ok_iff {d : Exponent} :
    p.degree = .ok d ↔ ∃ t, p.leadingTerm? = some t ∧ t.exponent = d := by
  rw [degree]
  cases p.leadingTerm? <;> simp

theorem exists_term_of_degree {d : Exponent} (h : p.degree = .ok d) :
    ∃ t ∈ p.terms, t.exponent = d := by
  obtain ⟨t, ht, rfl⟩ := degree_eq_ok_iff.1 h
  exact ⟨t, List.mem_of_getLast? ht, rfl⟩

theorem exists_degree (h : p ≠ zero) : ∃ d, p.degree = .ok d := by
  obtain ⟨l⟩ := p
  cases hl : l.getLast? with
  | none => exact absurd (congrArg SparsePoly.mk (List.getLast?_eq_none_iff.1 hl)) h
  | some t => exact ⟨t.exponent, degree_eq_ok_iff.2 ⟨t, hl, rfl⟩⟩

theorem degree_cons_cons (s t : Term C) (l : List (Term C)) :
    degree ⟨s :: t :: l⟩ = degree ⟨t :: l⟩ := by
  rw [degree, degree, leadingTerm?, leadingTerm?, List.getLast?_cons_cons]

end Degree

/-- Lists coefficients in ascending order from the exponent `index` on, zeros for gaps. -/
def fill (index : Nat) : List (Term C) → List C
  | [] => []
  | t :: rest =>
    List.replicate (t.exponent.val - index) Coefficient.zero ++
      t.coeff :: fill (t.exponent.val + 1) rest

@[simp] theorem fill_nil (index : Nat) : fill (C := C) index [] = [] := rfl

theorem length_fill_cons (index : Nat) (t : Term C) (rest : List (Term C)) :
    (fill index (t :: rest)).length =
      t.exponent.val - index + 1 + (fill (t.exponent.val + 1) rest).length := by
  simp [fill]
  omega

def toCoeffs (p : SparsePoly C) : Except UndefinedOnZero (List C) :=
  if p.isZero then .error .denseCoefficients else .ok (fill 0 p.terms)

omit [Coefficient C] in
@[simp] theorem degree_zero : (zero : SparsePoly C).degree = .error .degree := rfl

@[simp] theorem toCoeffs_zero : (zero : SparsePoly C).toCoeffs = .error .denseCoefficients := rfl

def derivative (p : SparsePoly C) : Except Fault (SparsePoly C) :=
  (p.terms.filter (0 < ·.exponent)).foldlM
    (fun sum t => do
      sum.addTerm ⟨t.exponent.lower, ← Coefficient.timesInt t.coeff t.exponent.val⟩)
    zero

/-- Derives up to `n` times; the zero polynomial needs no further step. -/
def nthDerivative (p : SparsePoly C) : Nat → Except Fault (SparsePoly C)
  | 0 => .ok p
  | n + 1 => if p.isZero then .ok p else do nthDerivative (← p.derivative) n

@[simp] theorem derivative_zero : (zero : SparsePoly C).derivative = .ok zero := rfl

@[simp] theorem nthDerivative_zero (n : Nat) :
    (zero : SparsePoly C).nthDerivative n = .ok zero := by
  cases n <;> rfl

/-- The early end at zero changes nothing. -/
theorem nthDerivative_succ (p : SparsePoly C) (n : Nat) :
    p.nthDerivative (n + 1) = p.derivative >>= fun q => q.nthDerivative n := by
  obtain ⟨l⟩ := p
  cases l with
  | nil => exact (nthDerivative_zero n).symm
  | cons t l => rfl

theorem nthDerivative_add (p : SparsePoly C) (m n : Nat) :
    p.nthDerivative (m + n) = p.nthDerivative m >>= fun q => q.nthDerivative n := by
  induction m generalizing p with
  | zero =>
    rw [Nat.zero_add]
    rfl
  | succ m ih =>
    rw [Nat.succ_add, nthDerivative_succ, nthDerivative_succ, bind_assoc]
    exact congrArg _ (funext ih)

end Univariate.SparsePoly
