/-
Scaffold/Number/Double.lean

Double-precision numbers, exactly.

A number in a settings document that is not an integer of machine size is
kept as the double it rounds to.  The doubles here are pairs of an integer and
a power of two, and every operation is exact integer arithmetic followed by
one rounding:

* `Magnitude` — a non-negative finite double, `mantissa · 2 ^ exponent`;
* `nearest` — the double nearest to a fraction, ties to the even mantissa, and
  nothing when that double would be infinite;
* `ofDecimal` — a decimal significand and a power of ten, scaled by one
  multiplication or division by the power of ten as a double.

Design.  `ofDecimal` rounds up to three times (the significand, the power of
ten and the result), so it need not return the double nearest to the decimal;
a reader that wants that has to use `nearest` on the exact fraction.  What it
does guarantee is that scaling never overflows silently: a result past the
largest double is refused.
-/
namespace Scaffold

namespace Number

/-- A non-negative finite double: `mantissa · 2 ^ exponent`, the mantissa below `2 ^ 53` and the
exponent from `-1074` to `971`. -/
structure Magnitude where
  mantissa : Nat
  exponent : Int
deriving DecidableEq, Repr

/-- A finite double with its sign.  Zero has two signs. -/
structure Double where
  negative : Bool
  magnitude : Magnitude
deriving DecidableEq, Repr

def minExponent : Int := -1074

def maxExponent : Int := 971

/-- The integer nearest to `num / den`; a half goes to the even neighbour. -/
def roundHalfEven (num den : Nat) : Nat :=
  let q := num / den
  let twice := 2 * (num % den)
  if twice < den then q
  else if den < twice then q + 1
  else q + q % 2

/-- The fraction `num / den · 2 ^ e` as a numerator and a denominator. -/
def scaleByTwo (num den : Nat) (e : Int) : Nat × Nat :=
  if 0 ≤ e then (num * Nat.pow 2 e.toNat, den) else (num, den * Nat.pow 2 (-e).toNat)

/-- The exponent `e` with `2 ^ e ≤ num / den < 2 ^ (e + 1)`. -/
def binaryExponent (num den : Nat) : Int :=
  let e : Int := (Nat.log2 num : Int) - (Nat.log2 den : Int)
  let (n, d) := scaleByTwo num den (-e)
  if d ≤ n then e else e - 1

/-- The double nearest to `num / den`, or nothing when it would be infinite. -/
def nearest (num den : Nat) : Option Magnitude :=
  if num = 0 then some ⟨0, minExponent⟩
  else
    let e := max (binaryExponent num den - 52) minExponent
    let (n, d) := scaleByTwo num den (-e)
    let m := roundHalfEven n d
    let rounded : Magnitude := if m = Nat.pow 2 53 then ⟨Nat.pow 2 52, e + 1⟩ else ⟨m, e⟩
    if maxExponent < rounded.exponent then none else some rounded

/-- The double nearest to `num / den · 2 ^ e`. -/
def nearestScaled (num den : Nat) (e : Int) : Option Magnitude :=
  let (n, d) := scaleByTwo num den e
  nearest n d

def Magnitude.mul (a b : Magnitude) : Option Magnitude :=
  nearestScaled (a.mantissa * b.mantissa) 1 (a.exponent + b.exponent)

def Magnitude.div (a b : Magnitude) : Option Magnitude :=
  nearestScaled a.mantissa b.mantissa (a.exponent - b.exponent)

/-- The largest power of ten a double can hold. -/
def maxPowerOfTen : Nat := 308

def powerOfTen (k : Nat) : Magnitude := (nearest (Nat.pow 10 k) 1).getD ⟨0, minExponent⟩

/-- `m · 10 ^ e`, in steps of at most `10 ^ 308`.  Two divisions by that power take every number
below `2 ^ 64` to a subnormal or to zero, so a few steps are enough; scaling up by more than one
step overflows whatever the number. -/
def scaleByTen : Nat → Magnitude → Int → Option Magnitude
  | steps, m, e =>
    if e.natAbs ≤ maxPowerOfTen then
      if 0 ≤ e then m.mul (powerOfTen e.natAbs) else m.div (powerOfTen e.natAbs)
    else if m.mantissa = 0 then some m
    else if 0 ≤ e then none
    else
      match steps with
      | 0 => some ⟨0, minExponent⟩
      | steps + 1 =>
        (m.div (powerOfTen maxPowerOfTen)).bind
          (fun m' => scaleByTen steps m' (e + maxPowerOfTen))

/-- `significand · 10 ^ exponent` as a double, or nothing when it is too large for one. -/
def ofDecimal (significand : Nat) (exponent : Int) : Option Magnitude :=
  (nearest significand 1).bind (fun m => scaleByTen 4 m exponent)

example : ofDecimal 15 (-1) = some ⟨6755399441055744, -52⟩ := by decide +kernel
example : ofDecimal 1 400 = none := by decide +kernel

end Number

end Scaffold
