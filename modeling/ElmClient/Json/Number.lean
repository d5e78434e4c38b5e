/-
The value of a number literal. Whole literals keep their value while 64 bits
hold it. Any other literal is read as the leading digits that 64 bits hold,
rounded, and then multiplied or divided by a rounded power of ten, each step
rounding to the nearest floating point number.
-/

import ElmClient.Json.Basic

namespace ElmClient.JsonNumber

open Decimal

structure Literal where
  negative : Bool
  whole : List Char
  fraction : Option (List Char)
  exponent : Option (Bool × List Char)

def digitValue (digit : Char) : Nat :=
  digit.toNat - '0'.toNat

def naturalOf (digits : List Char) : Nat :=
  digits.foldl (fun value digit => value * 10 + digitValue digit) 0

def wordLimit : Nat := powerOfTwo 64

/-- Take digits while the number stays below the limit; the rest is returned. -/
def accumulate : Nat → List Char → Nat × List Char
  | value, [] => (value, [])
  | value, digit :: rest =>
      if value * 10 + digitValue digit < wordLimit then
        accumulate (value * 10 + digitValue digit) rest
      else
        (value, digit :: rest)

/-- Divide by `10 ^ 308` while the exponent is below it, at most `tries` times. -/
def scaleDown (magnitude : Nat) : Nat → Nat → Option Nat
  | 0, _ => some 0
  | tries + 1, exponent =>
      if magnitude = 0 then some 0
      else if exponent ≤ 308 then do
        divide? magnitude (← ofScientific? 1 exponent)
      else do
        let reduced ← divide? magnitude (← ofScientific? 1 308)
        scaleDown reduced tries (exponent - 308)

/-- A rounded significand times a rounded power of ten; `none` when the result
is beyond every floating point number. -/
def scale? (significand : Nat) (exponent : Int) : Option Nat := do
  let magnitude ← nearest? significand 1
  if exponent < 0 then scaleDown magnitude 4 exponent.natAbs
  else if magnitude = 0 then some 0
  else if exponent ≤ 308 then multiply? magnitude (← ofScientific? 1 exponent)
  else none

/-- Exponents from here on are decided without computing a power. -/
def exponentLimit : Nat := powerOfTwo 31

def Literal.double? (literal : Literal) : Option Double := do
  let (whole, dropped) := accumulate 0 literal.whole
  let (significand, unused) := accumulate whole (literal.fraction.getD [])
  let places := (literal.fraction.getD []).length - unused.length
  let starting : Int := Int.ofNat dropped.length - Int.ofNat places
  let magnitude ←
    match literal.exponent with
    | none => scale? significand starting
    | some (negative, digits) =>
        let exponent := naturalOf digits
        if exponentLimit ≤ exponent then
          if significand = 0 || negative then some 0 else none
        else if negative then scale? significand (starting - exponent)
        else scale? significand (starting + exponent)
  some ⟨literal.negative, magnitude⟩

def ofLiteral? (literal : Literal) : Option JsonNumber :=
  let magnitude := naturalOf literal.whole
  let isWhole := literal.fraction.isNone && literal.exponent.isNone
  if isWhole && !literal.negative && magnitude < wordLimit then
    some (.whole magnitude)
  else if isWhole && literal.negative && 0 < magnitude && magnitude ≤ powerOfTwo 63 then
    some (.whole (-magnitude))
  else
    literal.double?.map .double

end ElmClient.JsonNumber
