import Univariate.Coefficient.Signed
import Univariate.Proofs.CanonicalForm
import Univariate.SparsePoly.Text

/-! # Runs of the library

A run is a sequence of calls.  A call may take any polynomial that an earlier call has returned, and
what it returns is put behind them; a call that fails returns nothing and the run goes on. -/

namespace Univariate

/-- A call; `p` and `q` are places in the history of the run. -/
inductive Call (C : Type) [coefficients : Coefficient C]
  | constant (c : C)
  | monomial (c : C) (n : Exponent)
  | ofCoeffs (cs : List C)
  | ofTerms (ts : List (Term C))
  | parse (text : String)
  | parseWith (mode : ParseMode) (text : String)
  | add (p q : Nat)
  | addScalar (p : Nat) (c : C)
  | neg (p : Nat)
  | sub (p q : Nat)
  | subScalar (p : Nat) (c : C)
  | scale (p : Nat) (c : C)
  | mul (p q : Nat)
  | tryMul (p q : Nat)
  | mulMonomial (p : Nat) (c : C) (n : Exponent)
  | tryMulMonomial (p : Nat) (c : C) (n : Exponent)
  | shift (p : Nat) (n : Exponent)
  | tryShift (p : Nat) (n : Exponent)
  | pow (p n : Nat)
  | tryPow (p n : Nat)
  | derivative (p : Nat)
  | nthDerivative (p n : Nat)
  /-- Any division may be put on top of the other operations of the type. -/
  | interpolateFrom (division : FieldCoefficient C) (same : division.toCoefficient = coefficients)
      (start : C) (samples : List C)

/-- The polynomials that a run has returned, the oldest first. -/
abbrev History (C : Type) := List (SparsePoly C)

namespace History

variable {C : Type}

/-- The polynomial at a place; zero where there is none. -/
def lookup (history : History C) (place : Nat) : SparsePoly C := history.getD place .zero

def Canonical [Coefficient C] (history : History C) : Prop := ∀ p ∈ history, p.Canonical

theorem Canonical.lookup [Coefficient C] {history : History C} (h : history.Canonical)
    (place : Nat) : (history.lookup place).Canonical := by
  rw [History.lookup, List.getD_eq_getElem?_getD]
  cases hp : history[place]? with
  | none => exact SparsePoly.canonical_zero
  | some p => exact h p (List.mem_of_getElem? hp)

end History

variable {C : Type} [Coefficient C]

def Call.result? (history : History C) : Call C → Option (SparsePoly C)
  | constant c => some (.constant c)
  | monomial c n => some (.monomial c n)
  | ofCoeffs cs => (SparsePoly.ofCoeffs cs).toOption
  | ofTerms ts => (SparsePoly.ofTerms ts).toOption
  | parse text => (SparsePoly.parse text).toOption
  | parseWith mode text => (SparsePoly.parseWith mode text).toOption
  | add p q => ((history.lookup p).add (history.lookup q)).toOption
  | addScalar p c => ((history.lookup p).addScalar c).toOption
  | neg p => (history.lookup p).neg.toOption
  | sub p q => ((history.lookup p).sub (history.lookup q)).toOption
  | subScalar p c => ((history.lookup p).subScalar c).toOption
  | scale p c => ((history.lookup p).scale c).toOption
  | mul p q => ((history.lookup p).mul (history.lookup q)).toOption
  | tryMul p q => ((history.lookup p).tryMul (history.lookup q)).toOption
  | mulMonomial p c n => ((history.lookup p).mulMonomial c n).toOption
  | tryMulMonomial p c n => ((history.lookup p).tryMulMonomial c n).toOption
  | shift p n => ((history.lookup p).shift n).toOption
  | tryShift p n => ((history.lookup p).tryShift n).toOption
  | pow p n => ((history.lookup p).pow n).toOption
  | tryPow p n => ((history.lookup p).tryPow n).toOption
  | derivative p => (history.lookup p).derivative.toOption
  | nthDerivative p n => ((history.lookup p).nthDerivative n).toOption
  | interpolateFrom division _ start samples =>
    (@SparsePoly.interpolateFrom C division start samples).toOption

def Call.after (history : History C) (call : Call C) : History C :=
  history ++ (call.result? history).toList

def run (calls : List (Call C)) : History C := calls.foldl Call.after []

private theorem eq_ok_of_toOption {ε α : Type} {x : Except ε α} {a : α} (h : x.toOption = some a) :
    x = .ok a := by
  cases x with
  | error e => cases h
  | ok b =>
    cases h
    rfl

theorem SparsePoly.canonical_parse {text : String} {p : SparsePoly C} (h : parse text = .ok p) :
    p.Canonical :=
  canonical_ofTerms h

theorem SparsePoly.canonical_parseWith {mode : ParseMode} {text : String} {p : SparsePoly C}
    (h : parseWith mode text = .ok p) : p.Canonical := by
  obtain ⟨q, hq, h⟩ := bind_eq_ok_iff.1 h
  split at h
  · cases h
    exact canonical_ofTerms (attempt_eq_ok_iff.1 hq)
  · cases h

theorem Call.result_canonical {history : History C} (hcan : history.Canonical) {call : Call C}
    {r : SparsePoly C} (h : call.result? history = some r) : r.Canonical := by
  cases call with
  | constant c =>
    cases h
    exact SparsePoly.canonical_constant c
  | monomial c n =>
    cases h
    exact SparsePoly.canonical_monomial c n
  | ofCoeffs cs => exact SparsePoly.canonical_ofCoeffs (eq_ok_of_toOption h)
  | ofTerms ts => exact SparsePoly.canonical_ofTerms (eq_ok_of_toOption h)
  | parse text => exact SparsePoly.canonical_parse (eq_ok_of_toOption h)
  | parseWith mode text => exact SparsePoly.canonical_parseWith (eq_ok_of_toOption h)
  | add p q => exact (hcan.lookup p).addTerms (eq_ok_of_toOption h)
  | addScalar p c => exact (hcan.lookup p).addScalar (eq_ok_of_toOption h)
  | neg p => exact SparsePoly.canonical_scale (eq_ok_of_toOption h)
  | sub p q => exact (hcan.lookup p).sub (eq_ok_of_toOption h)
  | subScalar p c => exact (hcan.lookup p).subScalar (eq_ok_of_toOption h)
  | scale p c => exact SparsePoly.canonical_scale (eq_ok_of_toOption h)
  | mul p q =>
    exact SparsePoly.canonical_tryMul (SparsePoly.orStop_eq_ok_iff.1 (eq_ok_of_toOption h))
  | tryMul p q => exact SparsePoly.canonical_tryMul (eq_ok_of_toOption h)
  | mulMonomial p c n =>
    exact SparsePoly.canonical_tryMulMonomial (SparsePoly.orStop_eq_ok_iff.1 (eq_ok_of_toOption h))
  | tryMulMonomial p c n => exact SparsePoly.canonical_tryMulMonomial (eq_ok_of_toOption h)
  | shift p n =>
    exact (hcan.lookup p).tryShift (SparsePoly.orStop_eq_ok_iff.1 (eq_ok_of_toOption h))
  | tryShift p n => exact (hcan.lookup p).tryShift (eq_ok_of_toOption h)
  | pow p n => exact (hcan.lookup p).tryPow (SparsePoly.orStop_eq_ok_iff.1 (eq_ok_of_toOption h))
  | tryPow p n => exact (hcan.lookup p).tryPow (eq_ok_of_toOption h)
  | derivative p => exact SparsePoly.canonical_derivative (eq_ok_of_toOption h)
  | nthDerivative p n => exact (hcan.lookup p).nthDerivative (eq_ok_of_toOption h)
  | interpolateFrom division same start samples =>
    cases same
    exact SparsePoly.canonical_interpolateFrom (eq_ok_of_toOption h)

theorem Call.after_canonical {history : History C} (hcan : history.Canonical) (call : Call C) :
    (Call.after history call).Canonical := by
  intro p hp
  rcases List.mem_append.1 hp with hp | hp
  · exact hcan p hp
  · exact result_canonical hcan (Option.mem_toList.1 hp)

theorem foldl_after_canonical {history : History C} (hcan : history.Canonical)
    (calls : List (Call C)) : History.Canonical (calls.foldl Call.after history) := by
  induction calls generalizing history with
  | nil => exact hcan
  | cons call calls ih => exact ih (Call.after_canonical hcan call)

theorem canonical_run (calls : List (Call C)) : (run calls).Canonical := by
  have hnil : History.Canonical ([] : History C) := by simp [History.Canonical]
  exact foldl_after_canonical hnil calls

/-- Whatever the coefficients do, each polynomial that a run returns stores ascending exponents and
no zero. -/
theorem canonical_of_mem_run (calls : List (Call C)) :
    ∀ p ∈ run calls, p.terms.Pairwise (fun s t => s.exponent < t.exponent) ∧
      ∀ t ∈ p.terms, Coefficient.isZero t.coeff = false :=
  canonical_run calls

/-- The last of three calls adds polynomials whose terms at the first power cancel. -/
theorem canonical_cancelled_sum :
    let calls : List (Call (Signed 64)) :=
      [.ofTerms [⟨1, ⟨2, by decide⟩⟩, ⟨0, ⟨3, by decide⟩⟩],
        .ofTerms [⟨5, ⟨1, by decide⟩⟩, ⟨1, ⟨-2, by decide⟩⟩], .add 0 1]
    let sum : SparsePoly (Signed 64) := ⟨[⟨0, ⟨3, by decide⟩⟩, ⟨5, ⟨1, by decide⟩⟩]⟩
    sum ∈ run calls ∧ sum.terms.Pairwise (fun s t => s.exponent < t.exponent) ∧
      ∀ t ∈ sum.terms, Coefficient.isZero t.coeff = false := by
  intro calls sum
  have hmem : sum ∈ run calls := List.mem_of_getElem? (show (run calls)[2]? = some sum by decide)
  exact ⟨hmem, canonical_of_mem_run calls sum hmem⟩

end Univariate
