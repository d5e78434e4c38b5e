/-
The fewest decimal digits that read back as a given floating point number. A
number stands for the interval of values that round to it. On the grids of one,
two, … seventeen digits the two neighbours of the number are tried in turn; the
first grid with a neighbour inside the interval gives the digits, the nearer of
two neighbours wins, and of two equally near ones the even.
-/

import ElmClient.Decimal.Binary

namespace ElmClient.Decimal

/-- The values that round to a magnitude, scaled to whole numbers: the value is
`center / scale` and the interval reaches from `low` to `high`. -/
structure Interval where
  low : Nat
  center : Nat
  high : Nat
  scale : Nat
  closed : Bool

/-- Between the midpoints to the neighbouring magnitudes. The lower neighbour of
a power of two is twice as near. -/
def interval (magnitude : Nat) : Interval :=
  let (significand, power) := parts magnitude
  let narrow := significand = powerOfTwo 52 ∧ magnitude / powerOfTwo 52 > 1
  let below := if narrow then 1 else 2
  let (factor, scale) :=
    if 0 ≤ power then (powerOfTwo power.toNat, 4) else (1, 4 * powerOfTwo (-power).toNat)
  { low := (4 * significand - below) * factor
    center := 4 * significand * factor
    high := (4 * significand + 2) * factor
    scale := scale
    closed := significand % 2 = 0 }

def Interval.holds (range : Interval) (digits : Nat) (exponent : Int) : Bool :=
  let (point, unit) :=
    if 0 ≤ exponent then (digits * powerOfTen exponent.toNat * range.scale, 1)
    else (digits * range.scale, powerOfTen (-exponent).toNat)
  if range.closed then
    range.low * unit ≤ point && point ≤ range.high * unit
  else
    range.low * unit < point && point < range.high * unit

/-- The greatest `power` with `10 ^ power ≤ numerator / denominator`, from the
lengths of the two numbers. -/
def floorLog10 (numerator denominator : Nat) : Int :=
  let guess : Int := (digitCount numerator : Int) - (digitCount denominator : Int)
  let reached :=
    if 0 ≤ guess then denominator * powerOfTen guess.toNat ≤ numerator
    else denominator ≤ numerator * powerOfTen (-guess).toNat
  if reached then guess else guess - 1

/-- Digits on the grid of multiples of `10 ^ exponent`, when one of the two
neighbours of the value lies in the interval. -/
def Interval.onGrid? (range : Interval) (exponent : Int) : Option Nat :=
  let (top, bottom) :=
    if 0 ≤ exponent then (range.center, range.scale * powerOfTen exponent.toNat)
    else (range.center * powerOfTen (-exponent).toNat, range.scale)
  let lower := top / bottom
  let preferred := roundHalfEven top bottom
  let other := if preferred = lower then lower + 1 else lower
  if range.holds preferred exponent then some preferred
  else if range.holds other exponent then some other
  else none

def Interval.firstGrid (range : Interval) (leading : Int) : Nat → Nat → Nat × Int
  | 0, places => (range.center / range.scale, leading - places + 1)
  | tries + 1, places =>
      let exponent := leading - places + 1
      match range.onGrid? exponent with
      | some digits => (digits, exponent)
      | none => range.firstGrid leading tries (places + 1)

def dropZeros : Nat → Nat × Int → Nat × Int
  | 0, pair => pair
  | tries + 1, (digits, exponent) =>
      if digits % 10 = 0 && digits != 0 then dropZeros tries (digits / 10, exponent + 1)
      else (digits, exponent)

/-- Digits and power of ten of the shortest decimal that reads back as the
magnitude. -/
def shortest (magnitude : Nat) : Nat × Int :=
  if magnitude = 0 then (0, 0)
  else
    let range := interval magnitude
    dropZeros 400 (range.firstGrid (floorLog10 range.center range.scale) 17 1)

end ElmClient.Decimal
