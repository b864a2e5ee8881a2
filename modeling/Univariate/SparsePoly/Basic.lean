import Univariate.Coefficient.Basic

/-! # Sparse polynomials

A polynomial is stored as the list of its terms, by ascending exponent and without zero
coefficients; `Canonical` says so.  Everything is built by adding one term at a time, which keeps
a list canonical whatever the arithmetic of the coefficients does: a term to add is dropped if it
is zero, and a stored term is removed when a sum at its place comes out as zero.

A cursor holds the terms not yet taken.  They are taken from the front, in ascending order, or from
the back, in descending order, in any mixture, until none is left. -/

namespace Univariate

/-- A polynomial in one variable, as the list of its terms. -/
structure SparsePoly (C : Type) where
  terms : List (Term C)
  deriving DecidableEq

namespace SparsePoly

variable {C : Type} [Coefficient C]

instance : BEq (SparsePoly C) where
  beq p q := p.terms == q.terms

/-- The exponents ascend strictly and no stored coefficient is zero. -/
def Canonical (p : SparsePoly C) : Prop :=
  p.terms.Pairwise (fun s t => s.exponent < t.exponent) ∧
    ∀ t ∈ p.terms, Coefficient.isZero t.coeff = false

instance (p : SparsePoly C) : Decidable p.Canonical := inferInstanceAs (Decidable (_ ∧ _))

/-- Adds a term to an ascending list.  Where the exponent is present the coefficients are added,
the stored one first, and the place is freed if the sum is zero. -/
def insertTerm (t : Term C) : List (Term C) → Except Fault (List (Term C))
  | [] => .ok [t]
  | s :: rest =>
    if t.exponent < s.exponent then .ok (t :: s :: rest)
    else if t.exponent = s.exponent then do
      let sum ← Coefficient.add s.coeff t.coeff
      .ok (if Coefficient.isZero sum then rest else ⟨s.exponent, sum⟩ :: rest)
    else do
      .ok (s :: (← insertTerm t rest))

/-- Adds a term to a polynomial; a zero term changes nothing. -/
def addTerm (p : SparsePoly C) (t : Term C) : Except Fault (SparsePoly C) :=
  if Coefficient.isZero t.coeff then .ok p else (insertTerm t p.terms).map SparsePoly.mk

def addTerms (p : SparsePoly C) (ts : List (Term C)) : Except Fault (SparsePoly C) :=
  ts.foldlM addTerm p

def zero : SparsePoly C := ⟨[]⟩

instance : Inhabited (SparsePoly C) := ⟨zero⟩

def monomial (c : C) (n : Exponent) : SparsePoly C :=
  ⟨if Coefficient.isZero c then [] else [⟨n, c⟩]⟩

theorem terms_monomial {c : C} (hc : Coefficient.isZero c = false) (n : Exponent) :
    (monomial c n).terms = [⟨n, c⟩] := by
  rw [monomial, hc]
  rfl

def constant (c : C) : SparsePoly C := monomial c 0

def one : SparsePoly C := constant Coefficient.one

def X : SparsePoly C := monomial Coefficient.one 1

def ofTerms (ts : List (Term C)) : Except Fault (SparsePoly C) := addTerms zero ts

/-- The polynomial with the `i`-th entry of a list as the coefficient of `x ^ i`.  The exponent
behind the last entry has to be an exponent too. -/
def ofCoeffs (cs : List C) : Except Fault (SparsePoly C) :=
  if h : cs.length < 4294967295 then
    ofTerms (cs.mapFinIdx fun i c hi => ⟨⟨i, by omega⟩, c⟩)
  else .error (.arithmetic .add)

def isZero (p : SparsePoly C) : Bool := p.terms.isEmpty

omit [Coefficient C] in
theorem isZero_eq_false_iff {p : SparsePoly C} : p.isZero = false ↔ p ≠ zero := by
  obtain ⟨l⟩ := p
  cases l <;> simp [isZero, zero]

def size (p : SparsePoly C) : Nat := p.terms.length

/-- The coefficient of `x ^ n`; zero where nothing is stored. -/
def coeff (p : SparsePoly C) (n : Exponent) : C :=
  ((p.terms.find? (·.exponent == n)).map (·.coeff)).getD Coefficient.zero

def leadingTerm? (p : SparsePoly C) : Option (Term C) := p.terms.getLast?

def leadingCoeff? (p : SparsePoly C) : Option C := p.leadingTerm?.map (·.coeff)

end SparsePoly

/-- A walk over terms; what remains is a list. -/
structure Cursor (C : Type) where
  remaining : List (Term C)

namespace Cursor

variable {C : Type}

def next (c : Cursor C) : Option (Term C) × Cursor C := (c.remaining.head?, ⟨c.remaining.tail⟩)

def nextBack (c : Cursor C) : Option (Term C) × Cursor C :=
  (c.remaining.getLast?, ⟨c.remaining.dropLast⟩)

def size (c : Cursor C) : Nat := c.remaining.length

def sizeBounds (c : Cursor C) : Nat × Nat := (c.size, c.size)

end Cursor

def SparsePoly.cursor {C : Type} (p : SparsePoly C) : Cursor C := ⟨p.terms⟩

end Univariate
