import BlockHost.Numbers

/-!
# Shortest decimals

The decimal that stands for a binary floating-point number is the shortest one that reads back as
that number; of two equally short ones it is the nearer, and of two equally near ones the greater.

A positive number `m * 2 ^ q` is read back from every decimal between the midpoints to its two
neighbours, the midpoints themselves included when `m` is even. The search below scales the number
and the two midpoints to integers, and then tries one decimal grid after the other, from coarse to
fine: on each grid only the two points next to the number can lie between the midpoints and be the
nearest.
-/

namespace BlockHost.Decimal

/-- A positive binary floating-point number and the decimals that read back as it, on a common
scale: `value / unit` is the number, and a decimal reads back when it lies between `low / unit` and
`high / unit`. -/
structure Interval where
  /-- The scaled midpoint to the neighbour below. -/
  low : Nat
  /-- The scaled number. -/
  value : Nat
  /-- The scaled midpoint to the neighbour above. -/
  high : Nat
  /-- The scale. -/
  unit : Nat
  /-- Whether the midpoints themselves read back. -/
  closed : Bool
deriving Repr

/-- The interval of `m * 2 ^ q`. The neighbour below is at half the usual distance when `m` is the
least mantissa of its binade. -/
def Interval.ofBinary (m : Nat) (q : Int) (leastMantissa : Bool) : Interval :=
  let below := if leastMantissa then 1 else 2
  let scale := 2 ^ (q - 2).toNat
  { low := (4 * m - below) * scale
    value := 4 * m * scale
    high := (4 * m + 2) * scale
    unit := 2 ^ (2 - q).toNat
    closed := m % 2 = 0 }

/-- Whether a scaled decimal reads back as the number. -/
def Interval.holds (i : Interval) (point : Nat) : Bool :=
  if i.closed then i.low ≤ point && point ≤ i.high else i.low < point && point < i.high

/-- The multiple of `10 ^ e`, as a number of such steps, that reads back and lies nearest; `none`
when no multiple reads back. -/
def Interval.onGrid (i : Interval) (e : Int) : Option Nat :=
  let stretch := 10 ^ (-e).toNat
  let j : Interval :=
    { i with low := i.low * stretch, value := i.value * stretch, high := i.high * stretch }
  let step := j.unit * 10 ^ e.toNat
  let below := j.value / step
  let above := below + 1
  match j.holds (below * step), j.holds (above * step) with
  | false, false => none
  | true, false => some below
  | false, true => some above
  | true, true =>
      if above * step - j.value ≤ j.value - below * step then some above else some below

/-- The first grid that holds a decimal, tried from `10 ^ e` downwards at most `tries` times, as the
number of steps and the exponent of the step. -/
def Interval.search (i : Interval) : (tries : Nat) → (e : Int) → Nat × Int
  | 0, e => (i.value / i.unit, e)
  | tries + 1, e =>
      match i.onGrid e with
      | some steps => (steps, e)
      | none => i.search tries (e - 1)

/-- A decimal exponent whose power of ten is above `m * 2 ^ q`. -/
def exponentAbove (m : Nat) (q : Int) : Int :=
  (((Nat.log2 m : Int) + q + 2) * 30103) / 100000 + 2

/-- The digits, as a number, and the decimal exponent of the shortest decimal for `m * 2 ^ q`. -/
def shortest (m : Nat) (q : Int) (leastMantissa : Bool) : Nat × Int :=
  (Interval.ofBinary m q leastMantissa).search 32 (exponentAbove m q)

end BlockHost.Decimal
