import Univariate.Coefficient.Basic
import Univariate.Decimal

/-! # Floating-point coefficients

Single and double precision numbers are approximate fields: their arithmetic never stops, the test
for zero is exact, and the sign is that of the sign bit, so that zeros have one as well. -/

namespace Univariate

instance : Coefficient Float where
  zero := 0
  one := 1
  isZero x := x == 0
  add x y := .ok (x + y)
  sub x y := .ok (x - y)
  mul x y := .ok (x * y)
  neg x := .ok (-x)
  ofInt := Float.ofInt
  ofInt? n := some (Float.ofInt n)

instance : OrderedCoefficient Float where
  abs x := .ok x.abs
  sign x := if x.toBits.toNat / Nat.pow 2 63 = 1 then .negative else .positive

instance : FieldCoefficient Float where
  inv? x := if x == 0 then none else some (1 / x)
  div x y := .ok (x / y)

instance : WrittenCoefficient Float where
  text x := (PatternLayout.double.read x.toBits.toNat).text

instance : Coefficient Float32 where
  zero := 0
  one := 1
  isZero x := x == 0
  add x y := .ok (x + y)
  sub x y := .ok (x - y)
  mul x y := .ok (x * y)
  neg x := .ok (-x)
  ofInt := Float32.ofInt
  ofInt? n := some (Float32.ofInt n)

instance : OrderedCoefficient Float32 where
  abs x := .ok x.abs
  sign x := if x.toBits.toNat / Nat.pow 2 31 = 1 then .negative else .positive

instance : FieldCoefficient Float32 where
  inv? x := if x == 0 then none else some (1 / x)
  div x y := .ok (x / y)

instance : WrittenCoefficient Float32 where
  text x := (PatternLayout.single.read x.toBits.toNat).text

end Univariate
