/-
Scaffold/Number/Shortest.lean

The shortest decimal that reads back as a given double.

A double stands for an interval of reals, those that round to it.  `shortest`
looks at decimal grids of one digit, two digits and so on, and on each grid at
the two neighbours of the double's exact value.  The first grid with a
neighbour inside the interval gives the answer; of two such neighbours the
nearer, of two equally near the even one.  Seventeen digits always suffice.

`Double.text` writes the digits out.  Its layout is one decision: positional
while the decimal point stays within five places before the first digit and
sixteen after it, scientific beyond with a sign on the exponent, and always
with either a point or an exponent so that it never looks like an integer.
-/
import Scaffold.Number.Double

namespace Scaffold

namespace Number

/-! ### The interval of a double -/

/-- A double's value and the ends of its interval, as numerators over one denominator. -/
structure Interval where
  low : Nat
  value : Nat
  high : Nat
  denominator : Nat
  /-- Whether the ends themselves round to the double. -/
  closed : Bool

/-- The reals that round to a double.  Below a power of two the gap to the next smaller double is
half as wide. -/
def Magnitude.interval (m : Magnitude) : Interval :=
  let below := if m.mantissa = Nat.pow 2 52 ∧ minExponent < m.exponent then 1 else 2
  let e := m.exponent - 2
  let scale (n : Nat) : Nat := (scaleByTwo n 1 e).1
  { low := scale (4 * m.mantissa - below)
    value := scale (4 * m.mantissa)
    high := scale (4 * m.mantissa + 2)
    denominator := (scaleByTwo 1 1 e).2
    closed := m.mantissa % 2 = 0 }

/-- Whether `n / d` lies in the interval, its numbers taken `up` times as large and its
denominator `down` times. -/
def Interval.holds (i : Interval) (up down n : Nat) : Bool :=
  let x := n * (i.denominator * down)
  if i.closed then decide (i.low * up ≤ x) && decide (x ≤ i.high * up)
  else decide (i.low * up < x) && decide (x < i.high * up)

/-! ### Decimal grids -/

def digitCount (n : Nat) : Nat := (Nat.toDigits 10 n).length

/-- The least `p` with `value < 10 ^ p`. -/
def decimalExponent (num den : Nat) : Int :=
  if den ≤ num then digitCount (num / den) else 1 - (digitCount ((den - 1) / num) : Int)

/-- The neighbour of the value on the grid of multiples of `10 ^ k`, if one of the two reads
back. -/
def Interval.onGrid (i : Interval) (k : Int) : Option Nat :=
  let up := Nat.pow 10 (-k).toNat
  let down := Nat.pow 10 k.toNat
  let den := i.denominator * down
  let q := i.value * up / den
  let r := i.value * up % den
  let lower := i.holds up down q
  let upper := i.holds up down (q + 1)
  if lower && upper then
    if 2 * r < den then some q
    else if den < 2 * r then some (q + 1)
    else some (q + q % 2)
  else if lower then some q
  else if upper then some (q + 1)
  else none

/-- A number without the zeros it ends with, and how many there were, at most `n`. -/
def dropZeros : Nat → Nat → Nat × Nat
  | 0, x => (x, 0)
  | n + 1, x =>
    if x % 10 = 0 then
      let (y, k) := dropZeros n (x / 10)
      (y, k + 1)
    else (x, 0)

/-- The shortest digits and the power of ten that read back as a positive double. -/
def Magnitude.shortest (m : Magnitude) : Nat × Int :=
  let i := m.interval
  let p := decimalExponent i.value i.denominator
  let grids := (List.range 17).map (fun n => p - (n + 1 : Nat))
  let hit := grids.findSome? (fun k => (i.onGrid k).map (fun x => (x, k)))
  let (x, k) := hit.getD (i.value / i.denominator, 0)
  let (y, dropped) := dropZeros 18 x
  (y, k + dropped)

/-! ### Layout -/

def layout (digits : Nat) (k : Int) : List Char :=
  let ds := Nat.toDigits 10 digits
  let point : Int := ds.length + k
  if 0 ≤ k ∧ point ≤ 16 then ds ++ List.replicate k.toNat '0' ++ ['.', '0']
  else if 0 < point ∧ point ≤ 16 then ds.take point.toNat ++ '.' :: ds.drop point.toNat
  else if -5 < point ∧ point ≤ 0 then '0' :: '.' :: (List.replicate (-point).toNat '0' ++ ds)
  else
    let e := point - 1
    let power := 'e' :: (if e < 0 then '-' else '+') :: Nat.toDigits 10 e.natAbs
    match ds with
    | [d] => d :: power
    | d :: rest => d :: '.' :: rest ++ power
    | [] => power

/-- The shortest text that reads back as the double. -/
def Double.text (x : Double) : String :=
  let sign := if x.negative then ['-'] else []
  let body :=
    if x.magnitude.mantissa = 0 then ['0', '.', '0']
    else
      let (digits, k) := x.magnitude.shortest
      layout digits k
  String.ofList (sign ++ body)

example : (Double.mk false ⟨6755399441055744, -52⟩).text = "1.5" := by decide +kernel
example : (Double.mk true ⟨0, minExponent⟩).text = "-0.0" := by decide +kernel
example : (Double.mk false ⟨5000000000000000, 1⟩).text = "1e+16" := by decide +kernel

end Number

end Scaffold
