import Naskah.Decimal.Basic

/-!
# The shortest decimal of a double

The doubles next to a finite double `x` bound an interval of reals that all
round to `x`. The decimal written for `x` lies in that interval on the
coarsest decimal grid that meets it, and is the point of that grid nearest to
`x`; of two equally near points it is the upper one.

All arithmetic is exact. Lengths are counted in quarters of the least positive
double, `2 ^ -1076`, so that the ends of the interval are whole numbers.
-/

namespace Naskah

/-- The reals that round to a positive double, in units of `2 ^ -1076`. -/
structure Rounding where
  low : Nat
  value : Nat
  high : Nat
  /-- Whether the two ends round to the double as well. -/
  closed : Bool

/-- The interval of the positive double with the given bits. Below a power of
two the doubles lie twice as dense as above it. -/
def Rounding.ofBits (bits : Nat) : Rounding :=
  let fraction := bits % Nat.pow 2 52
  let field := bits / Nat.pow 2 52 % Nat.pow 2 11
  let significand := if field = 0 then fraction else Nat.pow 2 52 + fraction
  let scale := Nat.pow 2 (field - 1)
  let below := if fraction = 0 ∧ 1 < field then 1 else 2
  { low := (4 * significand - below) * scale
    value := 4 * significand * scale
    high := (4 * significand + 2) * scale
    closed := significand % 2 == 0 }

def Rounding.contains (r : Rounding) (point den : Nat) : Bool :=
  if r.closed then decide (r.low * den ≤ point ∧ point ≤ r.high * den)
  else decide (r.low * den < point ∧ point < r.high * den)

/-- The point chosen on the grid of step `num / den` units, counted in steps,
if the grid meets the interval. The two points around the value are enough to
try: any other point of the grid is farther off on the same side. -/
def Rounding.onGrid? (r : Rounding) (num den : Nat) : Option Nat :=
  let lower := r.value * den / num
  let upper := lower + 1
  match r.contains (lower * num) den, r.contains (upper * num) den with
  | true, true =>
    if r.value * den - lower * num < upper * num - r.value * den then some lower else some upper
  | true, false => some lower
  | false, true => some upper
  | false, false => none

def Rounding.topExponent (r : Rounding) : Int :=
  ((r.high.log2 : Int) - 1075) * 30103 / 100000 + 2

def Rounding.search (r : Rounding) (exponent : Int) : Nat → Decimal
  | 0 => ⟨0, 0⟩
  | count + 1 =>
    let point := match exponent with
      | .ofNat k => r.onGrid? (Nat.pow 10 k * Nat.pow 2 1076) 1
      | .negSucc k => r.onGrid? (Nat.pow 2 1076) (Nat.pow 10 (k + 1))
    match point with
    | some digits => ⟨digits, exponent⟩
    | none => r.search (exponent - 1) count

/-- The decimal written for the positive double with the given bits. Seventeen
digits single out a double, so twenty grids from the top are enough. -/
def Decimal.shortest (bits : Nat) : Decimal :=
  let r := Rounding.ofBits bits
  r.search r.topExponent 20

def numberText (x : Float) : String :=
  let bits := x.toBits.toNat
  let size := bits % Nat.pow 2 63
  if 2047 * Nat.pow 2 52 < size then "NaN"
  else
    let sign := if bits < Nat.pow 2 63 then "" else "-"
    if size = 2047 * Nat.pow 2 52 then sign ++ "inf"
    else if size = 0 then sign ++ "0"
    else sign ++ (Decimal.shortest size).text

end Naskah
