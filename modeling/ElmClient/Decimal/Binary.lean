/-
Binary floating point with a 53 bit significand and 11 bit exponent, in exact
arithmetic. A finite number is a sign and a magnitude; the magnitude holds the
63 bits below the sign, so magnitudes are ordered like the values they stand for.
-/

namespace ElmClient

def powerOfTwo (exponent : Nat) : Nat :=
  Nat.pow 2 exponent

def powerOfTen (exponent : Nat) : Nat :=
  Nat.pow 10 exponent

structure Double where
  negative : Bool
  magnitude : Nat
deriving DecidableEq, Repr, Inhabited

namespace Double

/-- The magnitude pattern of infinity; finite magnitudes lie below it. -/
def infinite : Nat := 0x7FF * powerOfTwo 52

/-- Equality of values: the two zeros are equal. -/
def same (left right : Double) : Bool :=
  left.magnitude == right.magnitude
    && (left.negative == right.negative || left.magnitude == 0)

end Double

namespace Decimal

/-- The nearest natural number to a quotient, a half going to the even one. -/
def roundHalfEven (numerator denominator : Nat) : Nat :=
  let quotient := numerator / denominator
  let twice := 2 * (numerator % denominator)
  if twice < denominator then quotient
  else if denominator < twice then quotient + 1
  else if quotient % 2 = 0 then quotient else quotient + 1

/-- `numerator / denominator` divided by `2 ^ power`, rounded. -/
def scaledRound (numerator denominator : Nat) (power : Int) : Nat :=
  if 0 ≤ power then roundHalfEven numerator (denominator * powerOfTwo power.toNat)
  else roundHalfEven (numerator * powerOfTwo (-power).toNat) denominator

/-- The greatest `power` with `2 ^ power ≤ numerator / denominator`. -/
def floorLog (numerator denominator : Nat) : Int :=
  let guess : Int := (Nat.log2 numerator : Int) - (Nat.log2 denominator : Int)
  let reached :=
    if 0 ≤ guess then denominator * powerOfTwo guess.toNat ≤ numerator
    else denominator ≤ numerator * powerOfTwo (-guess).toNat
  if reached then guess else guess - 1

/-- The magnitude nearest to a quotient; `none` stands for infinity. -/
def nearest? (numerator denominator : Nat) : Option Nat :=
  if numerator = 0 then some 0
  else
    let power := max (floorLog numerator denominator - 52) (-1074)
    let significand := scaledRound numerator denominator power
    let magnitude :=
      if significand < powerOfTwo 52 then significand
      else (power + 1075).toNat * powerOfTwo 52 + (significand - powerOfTwo 52)
    if magnitude < Double.infinite then some magnitude else none

def parts (magnitude : Nat) : Nat × Int :=
  let exponent := magnitude / powerOfTwo 52
  let fraction := magnitude % powerOfTwo 52
  if exponent = 0 then (fraction, -1074)
  else (fraction + powerOfTwo 52, Int.ofNat exponent - 1075)

def ratio (magnitude : Nat) : Nat × Nat :=
  let (significand, power) := parts magnitude
  if 0 ≤ power then (significand * powerOfTwo power.toNat, 1)
  else (significand, powerOfTwo (-power).toNat)

def multiply? (left right : Nat) : Option Nat :=
  let (leftTop, leftBottom) := ratio left
  let (rightTop, rightBottom) := ratio right
  nearest? (leftTop * rightTop) (leftBottom * rightBottom)

def divide? (left right : Nat) : Option Nat :=
  let (leftTop, leftBottom) := ratio left
  let (rightTop, rightBottom) := ratio right
  nearest? (leftTop * rightBottom) (leftBottom * rightTop)

def digitCount (number : Nat) : Nat :=
  (Nat.toDigits 10 number).length

/-- The magnitude nearest to `digits * 10 ^ exponent`. Values beyond every
finite magnitude, or below half the least one, are decided by their size. -/
def ofScientific? (digits : Nat) (exponent : Int) : Option Nat :=
  if digits = 0 then some 0
  else
    let size := exponent + digitCount digits
    if size > 310 then none
    else if size < -330 then some 0
    else if 0 ≤ exponent then nearest? (digits * powerOfTen exponent.toNat) 1
    else nearest? digits (powerOfTen (-exponent).toNat)

end Decimal

end ElmClient
