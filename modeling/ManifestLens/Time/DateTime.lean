/-!
# Dates and times

Moments of the proleptic Gregorian calendar, with the offset from universal time at which they were
noted. Two moments compare by their instants, whatever their offsets.
-/

namespace ManifestLens

namespace Calendar

/-- The year has a 29th of February. -/
def isLeap (year : Int) : Bool := year % 4 == 0 && (year % 100 != 0 || year % 400 == 0)

def daysInMonth (year : Int) (month : Nat) : Nat :=
  if month = 2 then if isLeap year then 29 else 28
  else if month = 4 ∨ month = 6 ∨ month = 9 ∨ month = 11 then 30
  else 31

/-- The number of days before the first of January of a year, counted from the year one. -/
def daysBeforeYear (year : Int) : Int :=
  let y := year - 1
  y * 365 + y / 4 - y / 100 + y / 400

/-- The number of days of a year before a month. -/
def daysBeforeMonth (year : Int) (month : Nat) : Nat :=
  ((List.range (month - 1)).map fun i => daysInMonth year (i + 1)).foldl (· + ·) 0

/-- The number of a day; the first of January of the year one has the number one. -/
def dayNumber (year : Int) (month day : Nat) : Int :=
  daysBeforeYear year + daysBeforeMonth year month + day

/-- The month and day of the `day`-th day of a year, looking from `month` on. -/
def monthAndDay (year : Int) : Nat → Nat → Nat → Nat × Nat
  | 0, month, day => (month, day)
  | fuel + 1, month, day =>
      if day ≤ daysInMonth year month then (month, day)
      else monthAndDay year fuel (month + 1) (day - daysInMonth year month)

/-- The year, month and day of a day near the given year. -/
def ofDayNumberNear (year : Int) (number : Int) : Int × Nat × Nat :=
  let year :=
    if number ≤ daysBeforeYear year then year - 1
    else if daysBeforeYear (year + 1) < number then year + 1
    else year
  let (month, day) := monthAndDay year 12 1 (number - daysBeforeYear year).toNat
  (year, month, day)

/-- The number of the Monday that starts the first ISO week of a year. -/
def isoYearStart (year : Int) : Int :=
  let first := dayNumber year 1 1
  let weekday := (first + 6) % 7
  let monday := first - weekday
  if 3 < weekday then monday + 7 else monday

end Calendar

/-- A moment as noted, to the microsecond. -/
structure DateTime where
  year : Nat
  month : Nat
  day : Nat
  hour : Nat
  minute : Nat
  second : Nat
  microsecond : Nat
  /-- The offset from universal time in microseconds. -/
  offset : Int
deriving DecidableEq, Repr

namespace DateTime

/-- The fields name a day of the years 1 to 9999 and a time of day. -/
def isValid (d : DateTime) : Bool :=
  1 ≤ d.year && d.year ≤ 9999 && 1 ≤ d.month && d.month ≤ 12 && 1 ≤ d.day &&
    d.day ≤ Calendar.daysInMonth d.year d.month && d.hour ≤ 23 && d.minute ≤ 59 &&
    d.second ≤ 59 && d.microsecond ≤ 999999

/-- Microseconds of universal time since the start of the calendar. -/
def instant (d : DateTime) : Int :=
  (((Calendar.dayNumber d.year d.month d.day * 24 + d.hour) * 60 + d.minute) * 60 + d.second) *
    1000000 + d.microsecond - d.offset

/-- The greatest offset, exclusive: a whole day. -/
def dayLength : Int := 24 * 60 * 60 * 1000000

/-- The moment so many seconds and microseconds after the start of the year 1970, in universal time. -/
def ofUnixTime (seconds : Nat) (microsecond : Nat) : DateTime :=
  let number := Calendar.dayNumber 1970 1 1 + (seconds / 86400 : Nat)
  let (year, month, day) := Calendar.ofDayNumberNear (number * 400 / 146097 + 1) number
  ⟨year.toNat, month, day, seconds / 3600 % 24, seconds / 60 % 60, seconds % 60, microsecond, 0⟩

/-- A number with leading zeros. -/
def padded (width n : Nat) : String :=
  let text := toString n
  String.ofList (List.replicate (width - text.length) '0') ++ text

/-- The day as year, month and day. -/
def dateText (d : DateTime) : String :=
  padded 4 d.year ++ "-" ++ padded 2 d.month ++ "-" ++ padded 2 d.day

/-- The day as year, month and day, where the year has no leading zeros. -/
def dayText (d : DateTime) : String :=
  toString d.year ++ "-" ++ padded 2 d.month ++ "-" ++ padded 2 d.day

/-- The moment as digits that sort by time and suit a file name. -/
def stampText (d : DateTime) : String :=
  padded 4 d.year ++ padded 2 d.month ++ padded 2 d.day ++ "_" ++
    padded 2 d.hour ++ padded 2 d.minute ++ padded 2 d.second ++ "_" ++ padded 6 d.microsecond

/-- An offset as hours and minutes, with seconds and parts of them where they are not zero. -/
def offsetText (offset : Int) : String :=
  let sign := if offset < 0 then "-" else "+"
  let micros := offset.natAbs
  let seconds := micros / 1000000
  let base := padded 2 (seconds / 3600) ++ ":" ++ padded 2 (seconds / 60 % 60)
  let tail :=
    if micros % 1000000 ≠ 0 then
      ":" ++ padded 2 (seconds % 60) ++ "." ++ padded 6 (micros % 1000000)
    else if seconds % 60 ≠ 0 then ":" ++ padded 2 (seconds % 60)
    else ""
  sign ++ base ++ tail

/-- The moment in the standard notation. -/
def text (d : DateTime) : String :=
  d.dateText ++ "T" ++ padded 2 d.hour ++ ":" ++ padded 2 d.minute ++ ":" ++ padded 2 d.second ++
    (if d.microsecond = 0 then "" else "." ++ padded 6 d.microsecond) ++ offsetText d.offset

end DateTime

end ManifestLens
