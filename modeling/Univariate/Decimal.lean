/-! # Decimals of floating-point numbers

A floating-point number is stored as a sign bit, a biased exponent and a fraction.  Such a pattern
is read as what it stands for: a mantissa times a power of two, an infinity, or no number at all.

A stored number stands for all reals that round to it.  Among the decimals in that interval the
shortest is chosen: the coarsest grid of multiples of a power of ten that has a point in the
interval decides the number of digits, and the point of that grid nearest to the number decides the
digits.  Of two points equally near the larger is taken.  All comparisons are between natural
numbers over a common denominator.

Decimals are written with all their places and never with an exponent.  A number without a
fractional part is written without a point, and a negative zero keeps its sign. -/

namespace Univariate

/-- The widths of the two lower fields of a pattern; the sign bit stands above them. -/
structure PatternLayout where
  fractionBits : Nat
  exponentBits : Nat

namespace PatternLayout

def single : PatternLayout := ⟨23, 8⟩

def double : PatternLayout := ⟨52, 11⟩

/-- The exponent of the last place of the smallest numbers. -/
def leastExponent (layout : PatternLayout) : Int :=
  2 - Nat.pow 2 (layout.exponentBits - 1) - layout.fractionBits

end PatternLayout

/-- The magnitude `mantissa * 2 ^ exponent` of a stored number. -/
structure Magnitude where
  mantissa : Nat
  exponent : Int
  /-- The next smaller stored number is only half as far away as the next larger one. -/
  closeBelow : Bool
  deriving DecidableEq, Repr

inductive FloatDatum
  | notANumber
  | infinite (negative : Bool)
  | finite (negative : Bool) (magnitude : Magnitude)
  deriving DecidableEq, Repr

/-- Reads a pattern.  Numbers with the least biased exponent have no implicit leading bit; the
distance to the next smaller number halves where the fraction is zero and the exponent can still
go down. -/
def PatternLayout.read (layout : PatternLayout) (bits : Nat) : FloatDatum :=
  let fraction := bits % Nat.pow 2 layout.fractionBits
  let biased := bits / Nat.pow 2 layout.fractionBits % Nat.pow 2 layout.exponentBits
  let negative := bits / Nat.pow 2 (layout.fractionBits + layout.exponentBits) % 2 == 1
  if biased = Nat.pow 2 layout.exponentBits - 1 then
    if fraction = 0 then .infinite negative else .notANumber
  else if biased = 0 then
    .finite negative ⟨fraction, layout.leastExponent, false⟩
  else
    .finite negative
      ⟨Nat.pow 2 layout.fractionBits + fraction, layout.leastExponent + (biased - 1),
        fraction == 0 && decide (1 < biased)⟩

/-- The decimal `digits * 10 ^ exponent`. -/
structure Decimal where
  digits : Nat
  exponent : Int
  deriving DecidableEq, Repr

/-- The reals that round to a number, measured on a grid: the number and the two ends of the
interval are given as numerators of fractions whose denominator is `unit`, so that the points of
the grid are the multiples of `unit`. -/
structure RoundingInterval where
  low : Nat
  value : Nat
  high : Nat
  unit : Nat
  /-- The ends round to the number too. -/
  closed : Bool

namespace RoundingInterval

def contains (i : RoundingInterval) (n : Nat) : Bool :=
  if i.closed then decide (i.low ≤ n) && decide (n ≤ i.high)
  else decide (i.low < n) && decide (n < i.high)

/-- The same interval, measured on the grid of the multiples of `10 ^ e`. -/
def onGrid (i : RoundingInterval) (e : Int) : RoundingInterval :=
  let finer := Nat.pow 10 (-e).toNat
  { i with
    low := i.low * finer
    value := i.value * finer
    high := i.high * finer
    unit := i.unit * Nat.pow 10 e.toNat }

/-- The grid point in the interval that is nearest to the number, as a multiple of `unit`. -/
def nearest? (i : RoundingInterval) : Option Nat :=
  let below := i.value / i.unit
  let above := below + 1
  match i.contains (below * i.unit), i.contains (above * i.unit) with
  | true, true =>
    if i.value - below * i.unit < above * i.unit - i.value then some below else some above
  | true, false => some below
  | false, true => some above
  | false, false => none

end RoundingInterval

namespace Magnitude

/-- The interval of the reals that round to a magnitude.  It reaches half of the way to both
neighbours, and the ends belong to it when the mantissa is even. -/
def interval (x : Magnitude) : RoundingInterval :=
  let scale := Nat.pow 2 (x.exponent - 2).toNat
  { low := (4 * x.mantissa - if x.closeBelow then 1 else 2) * scale
    value := 4 * x.mantissa * scale
    high := (4 * x.mantissa + 2) * scale
    unit := Nat.pow 2 (2 - x.exponent).toNat
    closed := x.mantissa % 2 == 0 }

/-- Tries the grid of the multiples of `10 ^ e`, then the `n` finer ones one after another. -/
def search (i : RoundingInterval) : Nat → Int → Decimal
  | 0, e => ⟨(i.onGrid e).value / (i.onGrid e).unit, e⟩
  | n + 1, e =>
    match (i.onGrid e).nearest? with
    | some digits => ⟨digits, e⟩
    | none => search i n (e - 1)

/-- The shortest decimal that rounds to a magnitude.  The search starts on a grid too coarse for
the interval and ends on one that the magnitude itself is on. -/
def shortest (x : Magnitude) : Decimal :=
  if x.mantissa = 0 then ⟨0, 0⟩
  else
    let i := x.interval
    let coarsest := (Nat.toDigits 10 (i.high / i.unit)).length
    search i (coarsest + (-x.exponent).toNat) coarsest

end Magnitude

namespace Decimal

/-- Writes out all places of a decimal; a point stands only before fractional digits, and after at
least one digit. -/
def positional (d : Decimal) : List Char :=
  let digits := Nat.toDigits 10 d.digits
  let fractional := (-d.exponent).toNat
  if fractional = 0 then
    digits ++ List.replicate d.exponent.toNat '0'
  else
    let padded := List.replicate (fractional + 1 - digits.length) '0' ++ digits
    padded.take (padded.length - fractional) ++ '.' :: padded.drop (padded.length - fractional)

example : positional ⟨1200, -3⟩ = "1.200".toList := by decide

example : positional ⟨12, -3⟩ = "0.012".toList := by decide

example : positional ⟨12, 3⟩ = "12000".toList := by decide

end Decimal

def FloatDatum.text : FloatDatum → List Char
  | notANumber => ['N', 'a', 'N']
  | infinite negative => signed negative ['i', 'n', 'f']
  | finite negative magnitude => signed negative magnitude.shortest.positional
where
  signed (negative : Bool) (text : List Char) : List Char :=
    if negative then '-' :: text else text

example : (PatternLayout.double.read 0x3FB999999999999A).text = "0.1".toList := by decide +kernel

example : (PatternLayout.double.read 0x8000000000000000).text = "-0".toList := by decide +kernel

/-- The exact value is `0.0000000298023223876953125`; of its two shortest decimals, which are
equally near, the larger is written. -/
example : (PatternLayout.double.read 0x3E60000000000000).text =
    "0.000000029802322387695313".toList := by decide +kernel

end Univariate
