import Univariate.SparsePoly.Basic

/-! # Sums, products and powers

Addition puts the terms of one polynomial into the other.  Negation is scaling by the embedding of
minus one and subtraction is addition of the negative, so both are stopped by whatever stops these.

The product visits all pairs of terms, the left operand's terms outermost and both in ascending
order.  For each pair the exponents are added first; a pair whose exponents have no sum is reported
before its coefficients are touched.  Each operation comes in two forms: `tryMul` and its
like report such a pair, `mul` and its like are stopped by it. -/

namespace Univariate.SparsePoly

variable {C : Type} [Coefficient C]

def add (p q : SparsePoly C) : Except Fault (SparsePoly C) := p.addTerms q.terms

def addScalar (p : SparsePoly C) (c : C) : Except Fault (SparsePoly C) := p.addTerm ⟨0, c⟩

/-- Multiplies every term by a coefficient from the right; a product that is zero is dropped. -/
def scale (p : SparsePoly C) (c : C) : Except Fault (SparsePoly C) :=
  if Coefficient.isZero c then .ok zero
  else p.terms.foldlM (fun sum t => do sum.addTerm ⟨t.exponent, ← Coefficient.mul t.coeff c⟩) zero

def neg (p : SparsePoly C) : Except Fault (SparsePoly C) := p.scale (Coefficient.ofInt (-1))

def sub (p q : SparsePoly C) : Except Fault (SparsePoly C) := do p.add (← q.neg)

def subScalar (p : SparsePoly C) (c : C) : Except Fault (SparsePoly C) := do
  p.addScalar (← Coefficient.neg c)

/-- An operation that may meet two exponents without a sum. -/
abbrev ExponentChecked (α : Type) := Except (Failure ExponentOverflow) α

/-- Turns the report about exponents into a fault. -/
def orStop {α : Type} (x : ExponentChecked α) : Except Fault α :=
  x.mapError fun
    | .reported o => .exponent o
    | .stopped f => f

section OrStop

variable {α : Type} {x : ExponentChecked α} {a : α} {f : Fault}

@[simp] theorem orStop_ok (a : α) : orStop (.ok a) = .ok a := rfl

@[simp] theorem orStop_stopped (f : Fault) :
    orStop (.error (.stopped f) : ExponentChecked α) = .error f := rfl

@[simp] theorem orStop_reported (o : ExponentOverflow) :
    orStop (.error (.reported o) : ExponentChecked α) = .error (.exponent o) := rfl

theorem orStop_eq_ok_iff : orStop x = .ok a ↔ x = .ok a := by
  rcases x with (o | g) | b <;> simp

theorem orStop_eq_error_iff : orStop x = .error f ↔
    x = .error (.stopped f) ∨ ∃ o, f = .exponent o ∧ x = .error (.reported o) := by
  rcases x with (o | g) | b <;> simp [eq_comm]

end OrStop

def addExponents (a b : Exponent) : ExponentChecked Exponent :=
  match a.sum? b with
  | some e => .ok e
  | none => .error (.reported ⟨a, b⟩)

theorem addExponents_eq_ok_iff {a b e : Exponent} :
    addExponents a b = .ok e ↔ a.val + b.val = e.val := by
  rw [addExponents, ← Exponent.sum?_eq_some_iff]
  cases a.sum? b <;> simp

def addProduct (sum : SparsePoly C) (s t : Term C) : ExponentChecked (SparsePoly C) := do
  let e ← addExponents s.exponent t.exponent
  attempt do sum.addTerm ⟨e, ← Coefficient.mul s.coeff t.coeff⟩

theorem addProduct_of_add_eq {sum : SparsePoly C} {s t : Term C} {e : Exponent}
    (h : s.exponent.val + t.exponent.val = e.val) : sum.addProduct s t =
      attempt (do sum.addTerm ⟨e, ← Coefficient.mul s.coeff t.coeff⟩) := by
  rw [addProduct, addExponents_eq_ok_iff.2 h]
  rfl

/-- All pairs of a term of `p` and a term of `q`, in the order in which a product visits them. -/
def termPairs (p q : SparsePoly C) : List (Term C × Term C) :=
  p.terms.flatMap fun s => q.terms.map (s, ·)

omit [Coefficient C] in
theorem mem_termPairs {p q : SparsePoly C} {pair : Term C × Term C} :
    pair ∈ termPairs p q ↔ pair.1 ∈ p.terms ∧ pair.2 ∈ q.terms := by
  obtain ⟨s, t⟩ := pair
  simp [termPairs]

def tryMul (p q : SparsePoly C) : ExponentChecked (SparsePoly C) :=
  (termPairs p q).foldlM (fun sum pair => sum.addProduct pair.1 pair.2) zero

/-- The product with `c * x ^ n`; for a zero `c` no exponent is looked at. -/
def tryMulMonomial (p : SparsePoly C) (c : C) (n : Exponent) : ExponentChecked (SparsePoly C) :=
  if Coefficient.isZero c then .ok zero
  else p.terms.foldlM (fun sum s => sum.addProduct s ⟨n, c⟩) zero

/-- The product with `x ^ n`; for the power zero the polynomial is left as it is. -/
def tryShift (p : SparsePoly C) (n : Exponent) : ExponentChecked (SparsePoly C) :=
  if n = 0 then .ok p else p.tryMulMonomial Coefficient.one n

/-- The `n`-th power by squaring; the power zero is one and the power one needs no product. -/
def tryPow (p : SparsePoly C) (n : Nat) : ExponentChecked (SparsePoly C) :=
  if n = 0 then .ok one
  else if n = 1 then .ok p
  else binaryPower tryMul one p n

def mul (p q : SparsePoly C) : Except Fault (SparsePoly C) := orStop (p.tryMul q)

def mulMonomial (p : SparsePoly C) (c : C) (n : Exponent) : Except Fault (SparsePoly C) :=
  orStop (p.tryMulMonomial c n)

def shift (p : SparsePoly C) (n : Exponent) : Except Fault (SparsePoly C) := orStop (p.tryShift n)

def pow (p : SparsePoly C) (n : Nat) : Except Fault (SparsePoly C) := orStop (p.tryPow n)

theorem mul_eq_ok_iff {p q r : SparsePoly C} : p.mul q = .ok r ↔ p.tryMul q = .ok r :=
  orStop_eq_ok_iff

@[simp] theorem zero_tryMul (p : SparsePoly C) : zero.tryMul p = .ok zero := rfl

@[simp] theorem tryMul_zero (p : SparsePoly C) : p.tryMul zero = .ok zero := by
  have h : termPairs p zero = [] := by simp [termPairs, zero]
  rw [tryMul, h]
  rfl

@[simp] theorem tryShift_zero (p : SparsePoly C) : p.tryShift 0 = .ok p := rfl

end Univariate.SparsePoly
