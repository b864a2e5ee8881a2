/-! # Exponents and terms

A term is a coefficient times a power of the variable, which carries an exponent below `2 ^ 32`.
Exponents are added when powers are multiplied; a sum that is no exponent is refused here instead of
being reduced modulo `2 ^ 32`. -/

namespace Univariate

/-- The exponents a power of the variable may carry; there are `2 ^ 32`. -/
abbrev Exponent := Fin 4294967296

namespace Exponent

/-- Literals stand for exponents. -/
instance neZero : @NeZero Nat Zero.ofOfNat0 4294967296 := ⟨by decide⟩

def sum? (a b : Exponent) : Option Exponent :=
  if h : a.val + b.val < 4294967296 then some ⟨a.val + b.val, h⟩ else none

theorem sum?_eq_some_iff {a b c : Exponent} : sum? a b = some c ↔ a.val + b.val = c.val := by
  grind [sum?]

theorem sum?_eq_none_iff {a b : Exponent} : sum? a b = none ↔ 4294967296 ≤ a.val + b.val := by
  grind [sum?]

/-- The exponent one lower; the lowest stays. -/
def lower (a : Exponent) : Exponent := ⟨a.val - 1, by omega⟩

@[simp] theorem val_lower (a : Exponent) : (lower a).val = a.val - 1 := rfl

theorem lower_lt_lower {a b : Exponent} (ha : 0 < a) (hab : a < b) : lower a < lower b := by
  have hpos : 0 < a.val := ha
  have hlt : a.val < b.val := hab
  have hlower : a.val - 1 < b.val - 1 := by omega
  exact hlower

theorem lower_inj {a b : Exponent} (ha : 0 < a) (hb : 0 < b) : lower a = lower b ↔ a = b := by
  have hpa : 0 < a.val := ha
  have hpb : 0 < b.val := hb
  simp only [Fin.ext_iff, val_lower]
  omega

def ofNat? (n : Nat) : Option Exponent := if h : n < 4294967296 then some ⟨n, h⟩ else none

theorem ofNat?_eq_some_iff {n : Nat} {a : Exponent} : ofNat? n = some a ↔ n = a.val := by
  grind [ofNat?]

@[simp] theorem ofNat?_val (a : Exponent) : ofNat? a.val = some a := ofNat?_eq_some_iff.2 rfl

end Exponent

/-- The term `coeff * x ^ exponent`. -/
structure Term (C : Type) where
  exponent : Exponent
  coeff : C
  deriving BEq, DecidableEq

namespace Term

variable {C : Type}

def isConstant (t : Term C) : Bool := t.exponent == 0

end Term

end Univariate
