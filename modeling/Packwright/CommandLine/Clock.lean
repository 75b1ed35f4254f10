import Packwright.Text.Numeral

/-! # Time stamps

Log lines carry the time they were written at: the date and the time of day in universal time, down
to the millisecond.
-/

namespace Packwright.CommandLine

open Text (ascii)

/-- A day of the calendar. -/
structure Day where
  year : Nat
  month : Nat
  day : Nat
  deriving DecidableEq, Repr

/-- The calendar day a number of days after the first day of 1970. Years are counted from March, so
that a leap day comes last, and in eras of 400 years, which all have the same number of days. -/
def Day.ofEpoch (days : Nat) : Day :=
  let shifted := days + 719468
  let era := shifted / 146097
  let dayOfEra := shifted % 146097
  let yearOfEra := (dayOfEra - dayOfEra / 1460 + dayOfEra / 36524 - dayOfEra / 146096) / 365
  let dayOfYear := dayOfEra - (365 * yearOfEra + yearOfEra / 4 - yearOfEra / 100)
  let marchMonth := (5 * dayOfYear + 2) / 153
  let month := if marchMonth < 10 then marchMonth + 3 else marchMonth - 9
  { year := era * 400 + yearOfEra + if month ≤ 2 then 1 else 0
    month
    day := dayOfYear - (153 * marchMonth + 2) / 5 + 1 }

/-- A number with zeros in front up to the given width. -/
def zeroPadded (width n : Nat) : Text :=
  let digits := Text.decimal n
  List.replicate (width - digits.length) 48 ++ digits

/-- The time stamp of a moment, given in milliseconds since the start of 1970. -/
def timeStamp (milliseconds : Nat) : Text :=
  let seconds := milliseconds / 1000
  let date := Day.ofEpoch (seconds / 86400)
  zeroPadded 4 date.year ++ ascii "-" ++ zeroPadded 2 date.month ++ ascii "-"
    ++ zeroPadded 2 date.day ++ ascii "T" ++ zeroPadded 2 (seconds / 3600 % 24) ++ ascii ":"
    ++ zeroPadded 2 (seconds / 60 % 60) ++ ascii ":" ++ zeroPadded 2 (seconds % 60) ++ ascii "."
    ++ zeroPadded 3 (milliseconds % 1000) ++ ascii "Z"

/-- The beginning of a log line written at a moment. -/
def logStamp (milliseconds : Nat) : Text := ascii "time=" ++ timeStamp milliseconds ++ ascii " "

end Packwright.CommandLine
