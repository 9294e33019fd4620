import ManifestLens.Number.Literal
import ManifestLens.Text.Trim
import ManifestLens.Time.DateTime

/-!
# Dates of messages

Dates as mail and web servers write them, such as `Sat, 01 Jun 2024 12:00:00 GMT`. The reader takes
many deviations: a missing day name, exchanged parts, points in the time, years of two digits, and
named or numeric zones. A zone that it does not know counts as universal time.
-/

namespace ManifestLens

namespace MailDate

/-- Why a text is no date. -/
inductive Failure where
  | malformed
  /-- A part is a number too great for a date to be tried. -/
  | overflow
deriving DecidableEq, Repr

/-- The abbreviations of the days of the week. -/
def dayNames : List (List Char) :=
  ["mon", "tue", "wed", "thu", "fri", "sat", "sun"].map String.toList

/-- The abbreviations and names of the months. -/
def monthNames : List (List Char) :=
  ["jan", "feb", "mar", "apr", "may", "jun", "jul", "aug", "sep", "oct", "nov", "dec", "january",
    "february", "march", "april", "may", "june", "july", "august", "september", "october",
    "november", "december"].map String.toList

/-- Zones by name, in hours times a hundred plus minutes. -/
def zones : List (List Char × Int) :=
  [("ut", 0), ("utc", 0), ("gmt", 0), ("z", 0), ("ast", -400), ("adt", -300), ("est", -500),
    ("edt", -400), ("cst", -600), ("cdt", -500), ("mst", -700), ("mdt", -600), ("pst", -800),
    ("pdt", -700)].map fun (name, offset) => (name.toList, offset)

/-- The words of a text between white space. -/
def words (text : List Char) : List (List Char) :=
  (split text).filter (!·.isEmpty)
where
  /-- The pieces between single blanks. -/
  split : List Char → List (List Char)
    | [] => [[]]
    | c :: rest =>
        if Text.isBlank c then [] :: split rest
        else
          match split rest with
          | [] => [[c]]
          | word :: more => (c :: word) :: more

/-- The text after the last occurrence of a character, or all of it. -/
def afterLast (c : Char) (text : List Char) : List Char :=
  (text.reverse.takeWhile (· != c)).reverse

def withoutDayName : List (List Char) → List (List Char)
  | [] => []
  | first :: rest =>
      if first.getLast? = some ',' ∨ dayNames.contains (Text.asciiLower first) then rest
      else afterLast ',' first :: rest

/-- The words with a date of the form `day-month-year` taken apart. -/
def splitHyphens (words : List (List Char)) : List (List Char) :=
  match words with
  | [first, second, third] =>
      let parts := Text.splitOn '-' first
      if parts.length = 3 then parts ++ [second, third] else words
  | _ => words

/-- Cuts a zone off the time it is joined to, at its sign; without one the zone is empty. -/
def splitZone (time : List Char) : List (List Char) :=
  let cut (sign : Char) : Option Nat :=
    let before := time.takeWhile (· != sign)
    if before.length = time.length then none else some before.length
  match cut '+' <|> cut '-' with
  | some (i + 1) => [time.take (i + 1), time.drop (i + 1)]
  | _ => [time, []]

/-- The words with the zone in a word of its own. -/
def withZone (words : List (List Char)) : List (List Char) :=
  match words with
  | [a, b, c, time] => [a, b, c] ++ splitZone time
  | _ => words

def withoutComma (text : List Char) : List Char :=
  if text.getLast? = some ',' then text.dropLast else text

def month? (name : List Char) : Option Nat :=
  (monthNames.findIdx? (· == name)).map fun i => i % 12 + 1

/-- The hours, minutes and seconds of a time. -/
def timeParts? (time : List Char) : Option (List Char × List Char × List Char) :=
  match Text.splitOn ':' time with
  | [h, m] => some (h, m, ['0'])
  | [h, m, s] => some (h, m, s)
  | [single] =>
      if single.contains '.' then
        match Text.splitOn '.' single with
        | [h, m] => some (h, m, ['0'])
        | [h, m, s] => some (h, m, s)
        | _ => none
      else none
  | _ => none

/-- The offset in seconds that a zone stands for; none for a zone that is not known. -/
def zoneSeconds (zone : List Char) : Option Int :=
  let number : Option Int :=
    match zones.find? (·.1 == Text.asciiLower zone) with
    | some (_, offset) => some offset
    | none =>
        match Literal.integer? zone with
        | some 0 => if zone.head? = some '-' then none else some 0
        | other => other
  number.map fun n =>
    let size : Int := (n.natAbs / 100 * 3600 + n.natAbs % 100 * 60 : Nat)
    if n < 0 then -size else size

/-- A number is too great to be tried as part of a date. -/
def isHuge (n : Int) : Bool := n < -2147483648 || 2147483647 < n

/-- The year that a short one stands for: the years from 1969 to 2068. -/
def fullYear (year : Int) : Int :=
  if year < 100 then if 68 < year then year + 1900 else year + 2000 else year

/-- The greatest number of days in a span of time. -/
def maxDays : Int := 999999999

def ofWords (day month year time zone : List Char) : Except Failure DateTime := do
  if day.isEmpty || month.isEmpty || year.isEmpty then throw .malformed
  let (day, month) ←
    match month? (Text.asciiLower month) with
    | some m => pure (day, m)
    | none =>
        match month? (Text.asciiLower day) with
        | some m => pure (Text.asciiLower month, m)
        | none => throw .malformed
  let day := withoutComma day
  let colonAt := (year.takeWhile (· != ':')).length
  let (year, time) := if 0 < colonAt ∧ colonAt < year.length then (time, year) else (year, time)
  let year := withoutComma year
  let (year, zone) ←
    match year.head? with
    | none => throw .malformed
    | some c => pure (if Text.isDecimal c then (year, zone) else (zone, year))
  match timeParts? (withoutComma time) with
  | none => throw .malformed
  | some (hour, minute, second) =>
      match Literal.integer? year, Literal.integer? day, Literal.integer? hour,
        Literal.integer? minute, Literal.integer? second with
      | some year, some day, some hour, some minute, some second =>
          let year := fullYear year
          let zone := zoneSeconds zone
          let offset := zone.getD 0
          if maxDays < offset / 86400 ∨ offset / 86400 < -maxDays then throw .overflow
          if offset ≤ -86400 ∨ 86400 ≤ offset then throw .malformed
          if [year, day, hour, minute, second].any isHuge then throw .overflow
          if year < 0 ∨ day < 0 ∨ hour < 0 ∨ minute < 0 ∨ second < 0 then throw .malformed
          let moment : DateTime :=
            ⟨year.toNat, month, day.toNat, hour.toNat, minute.toNat, second.toNat, 0,
              offset * 1000000⟩
          if moment.isValid then pure moment else throw .malformed
      | _, _, _, _, _ => throw .malformed

def parse (text : List Char) : Except Failure DateTime :=
  match (withZone (splitHyphens (withoutDayName (words text)))).take 5 with
  | [day, month, year, time, zone] => ofWords day month year time zone
  | _ => .error .malformed

end MailDate

end ManifestLens
