import Univariate.Sequencing
import Univariate.SparsePoly.Calculus
import Univariate.SparsePoly.Arithmetic

/-! # Interpolation at equally spaced nodes

Newton's scheme takes the samples one after another.  It keeps the polynomial that fits the samples
so far and the product of the factors `x - node` of their nodes; a multiple of the latter corrects
the former at the next node without disturbing the earlier ones. -/

namespace Univariate.SparsePoly

variable {C : Type} [FieldCoefficient C]

/-- The state between two samples. -/
structure Newton (C : Type) where
  /-- Takes the given values at the nodes so far. -/
  fit : SparsePoly C
  /-- Vanishes at the nodes so far. -/
  basis : SparsePoly C
  /-- The next node. -/
  node : C

namespace Newton

def start (node : C) : Newton C := ⟨zero, one, node⟩

/-- Takes the value `y` at the next node, and moves to the node after it. -/
def step (s : Newton C) (y : C) : Except Fault (Newton C) := do
  let residual ← Coefficient.sub y (← s.fit.eval s.node)
  let multiple ← FieldCoefficient.div residual (← s.basis.eval s.node)
  let fit ← s.fit.add (← s.basis.scale multiple)
  let factor ← ofCoeffs [← Coefficient.neg s.node, Coefficient.one]
  let basis ← s.basis.mul factor
  return ⟨fit, basis, ← Coefficient.add s.node Coefficient.one⟩

theorem step_eq_ok_iff {s s' : Newton C} {y : C} :
    s.step y = .ok s' ↔ ∃ value residual divisor multiple scaled root factor,
      s.fit.eval s.node = .ok value ∧ Coefficient.sub y value = .ok residual ∧
      s.basis.eval s.node = .ok divisor ∧ FieldCoefficient.div residual divisor = .ok multiple ∧
      s.basis.scale multiple = .ok scaled ∧ s.fit.add scaled = .ok s'.fit ∧
      Coefficient.neg s.node = .ok root ∧ ofCoeffs [root, Coefficient.one] = .ok factor ∧
      s.basis.mul factor = .ok s'.basis ∧ Coefficient.add s.node Coefficient.one = .ok s'.node := by
  obtain ⟨fit, basis, node⟩ := s'
  simp only [step, bind_eq_ok_iff, pure, Except.pure, Except.ok.injEq, Newton.mk.injEq]
  constructor
  · rintro ⟨value, hv, residual, hr, divisor, hd, multiple, hm, scaled, hs, fit', hf, root, ho,
      factor, ha, basis', hb, node', hn, rfl, rfl, rfl⟩
    exact ⟨value, residual, divisor, multiple, scaled, root, factor,
      hv, hr, hd, hm, hs, hf, ho, ha, hb, hn⟩
  · rintro ⟨value, residual, divisor, multiple, scaled, root, factor,
      hv, hr, hd, hm, hs, hf, ho, ha, hb, hn⟩
    exact ⟨value, hv, residual, hr, divisor, hd, multiple, hm, scaled, hs, fit, hf, root, ho,
      factor, ha, basis, hb, node, hn, rfl, rfl, rfl⟩

end Newton

/-- Fits samples at the nodes `start`, `start + 1`, `start + 2`, … -/
def interpolateFrom (start : C) (samples : List C) : Except Fault (SparsePoly C) := do
  return (← samples.foldlM Newton.step (Newton.start start)).fit

def interpolate (samples : List C) : Except Fault (SparsePoly C) :=
  interpolateFrom Coefficient.one samples

end Univariate.SparsePoly
