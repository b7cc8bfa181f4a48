import FencedCode.Text.Basic

/-!
# Timestamps

A point in time is a number of seconds since the beginning of 1970 in UTC, with nanoseconds. It is
written by RFC 3339. A year outside 0 to 9999 is written with its sign. A leap second has the
nanoseconds from 10 ^ 9 of the last second of a minute, and is written as the second 60.
-/

namespace FencedCode

structure Timestamp where
  seconds : Int
  nanoseconds : Nat
  within_second : nanoseconds < 1000000000 ∨ nanoseconds < 2000000000 ∧ seconds % 60 = 59
deriving DecidableEq

namespace Timestamp

/-- A day of the Gregorian calendar. -/
structure Day where
  year : Int
  month : Nat
  dayOfMonth : Nat
deriving DecidableEq

/-- The calendar day that is `days` days after the first of 1970. Years are counted from March, so
that the leap day is the last of its year, in eras of 400 years. -/
def Day.ofEpochDays (days : Int) : Day :=
  let shifted := days + 719468
  let era := shifted / 146097
  let dayOfEra := (shifted % 146097).toNat
  let yearOfEra := (dayOfEra - dayOfEra / 1460 + dayOfEra / 36524 - dayOfEra / 146096) / 365
  let dayOfYear := dayOfEra - (365 * yearOfEra + yearOfEra / 4 - yearOfEra / 100)
  let marchMonth := (5 * dayOfYear + 2) / 153
  let month := if marchMonth < 10 then marchMonth + 3 else marchMonth - 9
  { year := yearOfEra + era * 400 + if month ≤ 2 then 1 else 0
    month
    dayOfMonth := dayOfYear - (153 * marchMonth + 2) / 5 + 1 }

/-- The point in time, when the calendar has it: its years are those from -262143 to 262142. -/
def ofUnix? (seconds : Int) (nanoseconds : Nat) : Option Timestamp :=
  let year := (Day.ofEpochDays (seconds / 86400)).year
  if h : nanoseconds < 1000000000 ∨ nanoseconds < 2000000000 ∧ seconds % 60 = 59 then
    if -262143 ≤ year ∧ year ≤ 262142 then some ⟨seconds, nanoseconds, h⟩ else none
  else none

/-- A number with zeros in front, so that it has at least the given number of digits. -/
def digits (width n : Nat) : Text :=
  List.replicate (width - (Text.ofNat n).length) '0' ++ Text.ofNat n

def yearText (year : Int) : Text :=
  if 0 ≤ year ∧ year ≤ 9999 then digits 4 year.toNat
  else (if year < 0 then '-' else '+') :: digits 4 year.natAbs

/-- The text by RFC 3339, in UTC with nine digits of a second's fraction. -/
def rfc3339 (t : Timestamp) : Text :=
  let day := Day.ofEpochDays (t.seconds / 86400)
  let second := (t.seconds % 86400).toNat
  yearText day.year ++ '-' :: digits 2 day.month ++ '-' :: digits 2 day.dayOfMonth ++
    'T' :: digits 2 (second / 3600) ++ ':' :: digits 2 (second / 60 % 60) ++
    ':' :: digits 2 (second % 60 + t.nanoseconds / 1000000000) ++
    '.' :: digits 9 (t.nanoseconds % 1000000000) ++ ['Z']

end Timestamp

end FencedCode
