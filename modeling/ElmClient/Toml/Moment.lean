/-
Dates and times of TOML. A date must exist in the Gregorian calendar and a time may
name a leap second. The written form has no trailing zeros in the fraction of the
second and writes an offset of no minutes as positive.
-/

import ElmClient.Json.Number

namespace ElmClient.Toml

structure Date where
  year : Nat
  month : Nat
  day : Nat
deriving DecidableEq, Repr, Inhabited

structure Time where
  hour : Nat
  minute : Nat
  second : Nat
  nanosecond : Nat
deriving DecidableEq, Repr, Inhabited

inductive Offset where
  | universal
  | fixed (behind : Bool) (minutes : Nat)
deriving DecidableEq, Repr

inductive Moment where
  | ofDate (date : Date)
  | ofTime (time : Time)
  | ofDateAndTime (date : Date) (time : Time) (offset : Option Offset)
deriving DecidableEq, Repr

def padded (width number : Nat) : String :=
  let digits := toString number
  String.ofList (List.replicate (width - digits.length) '0') ++ digits

namespace Date

def isLeapYear (year : Nat) : Bool :=
  year % 4 == 0 && (year % 100 != 0 || year % 400 == 0)

def daysIn (year month : Nat) : Nat :=
  if month == 2 then if isLeapYear year then 29 else 28
  else if [4, 6, 9, 11].contains month then 30
  else 31

def isReal (date : Date) : Bool :=
  1 ≤ date.month && date.month ≤ 12 && 1 ≤ date.day && date.day ≤ daysIn date.year date.month

def text (date : Date) : String :=
  padded 4 date.year ++ "-" ++ padded 2 date.month ++ "-" ++ padded 2 date.day

end Date

namespace Time

/-- Nanoseconds from the digits behind the point; digits past the ninth are lost. -/
def nanoseconds (digits : List Char) : Nat :=
  let kept := digits.take 9
  JsonNumber.naturalOf (kept ++ List.replicate (9 - kept.length) '0')

def isReal (time : Time) : Bool :=
  time.hour ≤ 23 && time.minute ≤ 59 && time.second ≤ 60

def fractionText (nanosecond : Nat) : String :=
  if nanosecond = 0 then ""
  else
    let digits := (padded 9 nanosecond).toList
    "." ++ String.ofList (digits.reverse.dropWhile (· == '0')).reverse

def text (time : Time) : String :=
  padded 2 time.hour ++ ":" ++ padded 2 time.minute ++ ":" ++ padded 2 time.second
    ++ fractionText time.nanosecond

end Time

def Offset.text : Offset → String
  | .universal => "Z"
  | .fixed behind minutes =>
      (if behind && minutes != 0 then "-" else "+") ++ padded 2 (minutes / 60) ++ ":"
        ++ padded 2 (minutes % 60)

def Moment.text : Moment → String
  | .ofDate date => date.text
  | .ofTime time => time.text
  | .ofDateAndTime date time offset =>
      date.text ++ "T" ++ time.text ++ (offset.map Offset.text).getD ""

end ElmClient.Toml
