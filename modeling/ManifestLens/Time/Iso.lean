import ManifestLens.Text.Utf8
import ManifestLens.Time.DateTime

/-!
# Reading the standard notation

Moments in the notation of ISO 8601, in its extended and its basic form, with calendar dates or week
dates, an arbitrary separator before the time, and an optional offset. A moment without an offset is
taken as universal time.
-/

namespace ManifestLens

namespace IsoTime

/-- The digit that stands first in a text. -/
def digit? : List Char → Option Nat
  | c :: _ => if '0' ≤ c ∧ c ≤ '9' then some (c.toNat - '0'.toNat) else none
  | [] => none

/-- The number that the next `count` digits write, and the text after them. -/
def digits? : Nat → Nat → List Char → Option (Nat × List Char)
  | 0, value, text => some (value, text)
  | count + 1, value, text => do
      let d ← digit? text
      digits? count (value * 10 + d) (text.drop 1)

/-- The number of characters that the date takes. -/
def dateLength (text : List Char) : Nat :=
  let at_ (i : Nat) : Char := text.getD i '\x00'
  let isDigitAt (i : Nat) : Bool := '0' ≤ at_ i && at_ i ≤ '9'
  if text.length = 7 then 7
  else if at_ 4 = '-' then
    if at_ 5 = 'W' then
      if 8 < text.length ∧ at_ 8 = '-' then
        if 10 < text.length && isDigitAt 10 then 8 else 10
      else 8
    else 10
  else if at_ 4 = 'W' then
    let run := 7 + ((text.drop 7).takeWhile fun c => '0' ≤ c && c ≤ '9').length
    if run < 9 then run else if run % 2 = 0 then 7 else 8
  else 8

def ofWeek? (year week weekday : Nat) : Option (Int × Nat × Nat) :=
  let firstWeekday := Calendar.dayNumber year 1 1 % 7
  let isLong := firstWeekday == 4 || (firstWeekday == 3 && Calendar.isLeap year)
  if year = 0 ∨ week = 0 ∨ 53 < week ∨ (week = 53 ∧ !isLong) ∨ weekday = 0 ∨ 7 < weekday then none
  else
    some (Calendar.ofDayNumberNear year
      (Calendar.isoYearStart year + (week - 1 : Nat) * 7 + (weekday - 1 : Nat)))

/-- The text after a hyphen where one is needed. -/
def afterHyphen? (needed : Bool) (text : List Char) : Option (List Char) :=
  if needed then
    match text with
    | '-' :: rest => some rest
    | _ => none
  else some text

def date? (text : List Char) : Option (Int × Nat × Nat) := do
  let (year, rest) ← digits? 4 0 text
  let extended := rest.head? = some '-'
  let rest := if extended then rest.drop 1 else rest
  match rest with
  | 'W' :: rest =>
      let (week, rest) ← digits? 2 0 rest
      if rest.isEmpty then ofWeek? year week 1
      else
        let rest ← afterHyphen? extended rest
        let (weekday, rest) ← digits? 1 0 rest
        if rest.isEmpty then ofWeek? year week weekday else none
  | _ =>
      let (month, rest) ← digits? 2 0 rest
      let rest ← afterHyphen? extended rest
      let (day, rest) ← digits? 2 0 rest
      if rest.isEmpty then some (year, month, day) else none

/-- A time of day. -/
structure Clock where
  hour : Nat
  minute : Nat
  second : Nat
  microsecond : Nat

/-- The fraction of a second that a text writes, in microseconds, and whether the whole text does.
Digits after the sixth are read over. -/
def fraction? (text : List Char) : Option (Nat × Bool) := do
  let count := min text.length 6
  let (value, rest) ← digits? count 0 text
  let rest := rest.dropWhile fun c => '0' ≤ c && c ≤ '9'
  some (value * Nat.pow 10 (6 - count), rest.isEmpty)

/-- The parts of a time from the one with the given index on, after those read already. `colons`
tells whether the parts are set apart by colons. The second component tells whether the whole text
was read. -/
def clockFrom : Nat → Bool → List Nat → List Char → Option (List Nat × Nat × Bool)
  | 0, _, parts, text => (fraction? text).map fun (micro, whole) => (parts, micro, whole)
  | left + 1, colons, parts, text => do
      let (value, rest) ← digits? 2 0 text
      let parts := parts ++ [value]
      match rest with
      | [] => some (parts, 0, true)
      | [_] => some (parts, 0, false)
      | c :: more =>
          let colons := if parts.length = 1 then c == ':' else colons
          if colons && c = ':' then clockFrom left colons parts more
          else if c = '.' ∨ c = ',' then
            (fraction? more).map fun (micro, whole) => (parts, micro, whole)
          else if !colons then clockFrom left colons parts rest
          else none

/-- The time of day at the start of a text, and whether the whole text writes it. -/
def clock? (text : List Char) : Option (Clock × Bool) :=
  (clockFrom 3 true [] text).map fun (parts, micro, whole) =>
    (⟨parts.getD 0 0, parts.getD 1 0, parts.getD 2 0, micro⟩, whole)

def startsOffset (c : Char) : Bool := c == '+' || c == '-' || c == 'Z'

/-- The offset that a text writes, in microseconds. Parts of a second count only with whole ones. -/
def offset? : List Char → Option Int
  | 'Z' :: rest => if rest.isEmpty then some 0 else none
  | sign :: rest => do
      let (clock, whole) ← clock? rest
      if !whole then none
      else
        let seconds : Int := clock.hour * 3600 + clock.minute * 60 + clock.second
        let micros : Int := if seconds = 0 then 0 else seconds * 1000000 + clock.microsecond
        some (if sign = '-' then -micros else micros)
  | [] => none

/-- The time and offset that a text writes; without an offset none is given. -/
def time? (text : List Char) : Option (Clock × Option Int) := do
  let before := text.takeWhile fun c => !startsOffset c
  let (clock, whole) ← clock? before
  match text.drop before.length with
  | [] => if whole then some (clock, none) else none
  | offset => (offset? offset).map fun offset => (clock, some offset)

/-- The number of bytes of the character that a byte starts. -/
def characterBytes (b : Nat) : Nat :=
  if b < 0x80 then 1 else if 0xE0 ≤ b ∧ b < 0xF0 then 3 else if 0xF0 ≤ b then 4 else 2

/-- The moment that a text writes. The text is read byte by byte, so that a separator beyond ASCII
takes more than one place. -/
def parse? (text : List Char) : Option DateTime := do
  if text.length < 7 then none
  else
    let bytes := (Text.Utf8.encode text).map fun b => Char.ofNat b.toNat
    let length := dateLength bytes
    let (year, month, day) ← date? (bytes.take length)
    let rest := bytes.drop length
    let (clock, offset) ←
      match rest with
      | [] => some (⟨0, 0, 0, 0⟩, none)
      | separator :: _ => time? (rest.drop (characterBytes separator.toNat))
    let offset := offset.getD 0
    let moment : DateTime :=
      ⟨year.toNat, month, day, clock.hour, clock.minute, clock.second, clock.microsecond, offset⟩
    if moment.isValid && -DateTime.dayLength < offset && offset < DateTime.dayLength then
      some moment
    else none

end IsoTime

end ManifestLens
