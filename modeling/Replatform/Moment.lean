/-!
# Moments

A day and a time on it, as clocks show them. All parts but the year are written with two digits.
-/

namespace Replatform

/-- A point in time. -/
structure Moment where
  year : Nat := 1970
  month : Nat := 1
  day : Nat := 1
  hour : Nat := 0
  minute : Nat := 0
  second : Nat := 0
deriving DecidableEq, Repr

namespace Moment

/-- A number with at least two digits. -/
def twoDigits (n : Nat) : String := if n < 10 then "0" ++ toString n else toString n

def writeDay (m : Moment) : String :=
  toString m.year ++ "-" ++ twoDigits m.month ++ "-" ++ twoDigits m.day

def writeTime (m : Moment) : String :=
  twoDigits m.hour ++ ":" ++ twoDigits m.minute ++ ":" ++ twoDigits m.second

def write (m : Moment) : String := m.writeDay ++ " " ++ m.writeTime

/-- A moment in writing without a blank. -/
def writeJoined (m : Moment) : String := m.writeDay ++ "T" ++ m.writeTime

/-- The moment so many seconds after the start of 1970. The days are counted in years that begin
in March, so that the leap day is the last of its year. -/
def ofSeconds (seconds : Nat) : Moment :=
  let rest := seconds % 86400
  let days := seconds / 86400 + 719468
  let era := days / 146097
  let dayOfEra := days % 146097
  let yearOfEra := (dayOfEra - dayOfEra / 1460 + dayOfEra / 36524 - dayOfEra / 146096) / 365
  let dayOfYear := dayOfEra - (365 * yearOfEra + yearOfEra / 4 - yearOfEra / 100)
  let shifted := (5 * dayOfYear + 2) / 153
  let month := if shifted < 10 then shifted + 3 else shifted - 9
  { year := yearOfEra + era * 400 + (if month ≤ 2 then 1 else 0)
    month
    day := dayOfYear - (153 * shifted + 2) / 5 + 1
    hour := rest / 3600
    minute := rest % 3600 / 60
    second := rest % 60 }

end Moment

end Replatform
