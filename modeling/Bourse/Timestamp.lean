import Bourse.Text.Blank

/-!
# Points in time

Times are given in the civil calendar and in coordinated universal time, with
nanoseconds. They are written as `2024-01-01T00:00:00Z`, with three, six or nine
digits of a second only where they are needed, and with a sign in front of a year
that does not have four digits.

A leap second is told by the nanoseconds of the second before it, which then go on
past its end: any second can be stretched so, as `IsTime` allows. It is written as
the second after, so that at the end of a minute there is a second 60, and anywhere
else an ordinary second in its stead. `shown` is the time that is left of it then.

Reading is more lenient. The parts of a time may have fewer digits and blanks in
front, a space may stand for the `T`, and in place of the `Z` there may be `UTC`
or the offset of a local clock, as in `2024-01-01 01:00:00 +01:00`. A local time is
turned into universal time.
-/

namespace Bourse

namespace Timestamp

/-! ## The calendar -/

/-- Whether February has a day more. -/
def isLeap (year : Int) : Bool :=
  year % 4 == 0 && (year % 100 != 0 || year % 400 == 0)

/-- The number of days of a month. -/
def daysIn (year : Int) (month : Nat) : Nat :=
  if month = 2 then (if isLeap year then 29 else 28)
  else if month = 4 ∨ month = 6 ∨ month = 9 ∨ month = 11 then 30 else 31

/-- There is such a day, and its year is within reach of the calendar. -/
def IsDay (year : Int) (month day : Nat) : Prop :=
  -262143 ≤ year ∧ year ≤ 262142 ∧ 1 ≤ month ∧ month ≤ 12 ∧ 1 ≤ day ∧ day ≤ daysIn year month

instance (year : Int) (month day : Nat) : Decidable (IsDay year month day) := by
  unfold IsDay
  infer_instance

/-- There is such a time of a day. The nanoseconds beyond the end of a second belong to a leap
second behind it. -/
def IsTime (hour minute second nanosecond : Nat) : Prop :=
  hour < 24 ∧ minute < 60 ∧ second < 60 ∧ nanosecond < 2000000000

instance (hour minute second nanosecond : Nat) :
    Decidable (IsTime hour minute second nanosecond) := by
  unfold IsTime
  infer_instance

/-- The day after a day of the calendar, as year, month and day. -/
def dayAfter (year : Int) (month day : Nat) : Int × Nat × Nat :=
  if day < daysIn year month then (year, month, day + 1)
  else if month < 12 then (year, month + 1, 1)
  else (year + 1, 1, 1)

/-- The day before a day of the calendar, as year, month and day. -/
def dayBefore (year : Int) (month day : Nat) : Int × Nat × Nat :=
  if 1 < day then (year, month, day - 1)
  else if 1 < month then (year, month - 1, daysIn year (month - 1))
  else (year - 1, 12, 31)

end Timestamp

/-- A calendar day and a time of that day. -/
structure Timestamp where
  year : Int
  month : Nat
  day : Nat
  hour : Nat
  minute : Nat
  second : Nat
  nanosecond : Nat
  isDay : Timestamp.IsDay year month day
  isTime : Timestamp.IsTime hour minute second nanosecond
deriving DecidableEq

namespace Timestamp

/-- The point in time with these parts, if there is one. -/
def ofParts? (year : Int) (month day hour minute second nanosecond : Nat) : Option Timestamp :=
  if h : IsDay year month day ∧ IsTime hour minute second nanosecond then
    some ⟨year, month, day, hour, minute, second, nanosecond, h.1, h.2⟩
  else none

/-- The point in time that a clock with these parts shows. A clock goes on to the second 60 if the
minute ends with a leap second. -/
def ofClock? (year : Int) (month day hour minute second nanosecond : Nat) : Option Timestamp :=
  if second = 60 then ofParts? year month day hour minute 59 (nanosecond + 1000000000)
  else ofParts? year month day hour minute second nanosecond

/-- The universal time at which a clock `offset` minutes ahead of it shows `t`. The offset is
less than a day. -/
def ofLocal? (t : Timestamp) (offset : Int) : Option Timestamp :=
  let minutes : Int := t.hour * 60 + t.minute - offset
  let (year, month, day) :=
    if minutes < 0 then dayBefore t.year t.month t.day
    else if minutes < 1440 then (t.year, t.month, t.day)
    else dayAfter t.year t.month t.day
  let ofDay := (minutes % 1440).toNat
  ofParts? year month day (ofDay / 60) (ofDay % 60) t.second t.nanosecond

/-- A clock without an offset shows universal time. -/
theorem ofLocal?_zero (t : Timestamp) : t.ofLocal? 0 = some t := by
  obtain ⟨hh, hm, hs, hn⟩ := t.isTime
  have low : ¬ ((t.hour : Int) * 60 + t.minute - 0 < 0) := by omega
  have high : (t.hour : Int) * 60 + t.minute - 0 < 1440 := by omega
  have ofDay : (((t.hour : Int) * 60 + t.minute - 0) % 1440).toNat = t.hour * 60 + t.minute := by
    omega
  have hour : (t.hour * 60 + t.minute) / 60 = t.hour := by omega
  have minute : (t.hour * 60 + t.minute) % 60 = t.minute := by omega
  unfold ofLocal?
  simp only [low, high, if_false, if_true, ofDay, hour, minute]
  unfold ofParts?
  rw [dif_pos ⟨t.isDay, t.isTime⟩]

/-! ## Writing -/

/-- The second that a clock shows. -/
def clockSecond (t : Timestamp) : Nat := t.second + t.nanosecond / 1000000000

/-- The nanoseconds that have passed of the second that a clock shows. -/
def clockNanosecond (t : Timestamp) : Nat := t.nanosecond % 1000000000

/-- The point in time that is left when this one is written. A leap second that does not end its
minute is not told from the second after it. -/
def shown (t : Timestamp) : Timestamp :=
  if h : t.clockSecond < 60 then
    { t with
      second := t.clockSecond
      nanosecond := t.clockNanosecond
      isTime := by
        obtain ⟨hhour, hminute, -, -⟩ := t.isTime
        have hpassed : t.clockNanosecond < 1000000000 := Nat.mod_lt _ (by decide)
        exact ⟨hhour, hminute, h, by omega⟩ }
  else t

/-- The last `width` decimal digits of `n`. -/
def fixedDigits : (width n : Nat) → List Char
  | 0, _ => []
  | width + 1, n => fixedDigits width (n / 10) ++ [Nat.digitChar (n % 10)]

/-- A year, with four digits or with a sign and four digits at least. -/
def yearChars (year : Int) : List Char :=
  if 0 ≤ year ∧ year ≤ 9999 then fixedDigits 4 year.toNat
  else
    let written := Nat.toDigits 10 year.natAbs
    (if year < 0 then '-' else '+') :: (List.replicate (4 - written.length) '0' ++ written)

/-- The part of a second, in thousandths, millionths or billionths as needed. -/
def partChars (nanosecond : Nat) : List Char :=
  if nanosecond = 0 then []
  else if nanosecond % 1000000 = 0 then '.' :: fixedDigits 3 (nanosecond / 1000000)
  else if nanosecond % 1000 = 0 then '.' :: fixedDigits 6 (nanosecond / 1000)
  else '.' :: fixedDigits 9 nanosecond

/-- The written form, as a list of characters. -/
def toChars (t : Timestamp) : List Char :=
  yearChars t.year ++ '-' :: fixedDigits 2 t.month ++ '-' :: fixedDigits 2 t.day ++
    'T' :: fixedDigits 2 t.hour ++ ':' :: fixedDigits 2 t.minute ++
    ':' :: fixedDigits 2 t.clockSecond ++ partChars t.clockNanosecond ++ ['Z']

/-- The written form. -/
def text (t : Timestamp) : String := String.ofList t.toChars

/-! ## Reading

Each reader takes something off the front of a text and gives what follows it. -/

/-- The text from its first character that shows. -/
def skipBlank (cs : List Char) : List Char := cs.dropWhile Text.isBlankChar

/-- Reads a number of at most `most` digits. -/
def readNumber (most : Nat) (cs : List Char) : Option (Nat × List Char) :=
  let ds := (cs.take most).takeWhile Char.isDigit
  if ds.isEmpty then none else some (Nat.ofDigitChars 10 ds 0, cs.drop ds.length)

/-- Reads a part of a date or a time. -/
def readTwo (cs : List Char) : Option (Nat × List Char) := readNumber 2 (skipBlank cs)

/-- Reads a year, which may have more than four digits behind a sign. -/
def readYear (cs : List Char) : Option (Int × List Char) :=
  match skipBlank cs with
  | '-' :: rest => (readNumber rest.length rest).map fun (n, rest) => (-(n : Int), rest)
  | '+' :: rest => (readNumber rest.length rest).map fun (n, rest) => ((n : Int), rest)
  | rest => (readNumber 4 rest).map fun (n, rest) => ((n : Int), rest)

/-- Reads a given character. -/
def readMark (mark : Char) (cs : List Char) : Option (List Char) :=
  match skipBlank cs with
  | c :: rest => if c = mark then some rest else none
  | [] => none

/-- Reads the character between a day and a time. -/
def readSeparator : List Char → Option (List Char)
  | c :: rest => if c = 'T' ∨ c = 't' ∨ c = ' ' then some rest else none
  | [] => none

/-- Reads a part of a second of any length; digits beyond the ninth count for nothing. -/
def readPart : List Char → Option (Nat × List Char)
  | '.' :: rest =>
    let ds := rest.takeWhile Char.isDigit
    if ds.isEmpty then none
    else
      let nine := ds.take 9 ++ List.replicate (9 - ds.length) '0'
      some (Nat.ofDigitChars 10 nine 0, rest.dropWhile Char.isDigit)
  | rest => some (0, rest)

/-- The sign of an offset; a true minus sign is as good as a hyphen. -/
def offsetSign? (c : Char) : Option Int :=
  if c = '+' then some 1 else if c = '-' ∨ c = '−' then some (-1) else none

/-- Reads a number of exactly two digits. -/
def readPair : List Char → Option (Nat × List Char)
  | a :: b :: rest =>
    if a.isDigit ∧ b.isDigit then some (Nat.ofDigitChars 10 [a, b] 0, rest) else none
  | _ => none

/-- Reads the offset of a clock from universal time, in minutes. It is less than a day; colons
and blanks may stand between its hours and its minutes. -/
def readOffset (cs : List Char) : Option (Int × List Char) :=
  if (cs.take 3).map Char.toUpper = ['U', 'T', 'C'] then some (0, cs.drop 3)
  else
    match cs with
    | [] => none
    | c :: rest =>
      if c = 'Z' ∨ c = 'z' then some (0, rest)
      else do
        let sign ← offsetSign? c
        let (hours, rest) ← readPair rest
        let (minutes, rest) ← readPair (rest.dropWhile fun c => c == ':' || Text.isBlankChar c)
        if 24 ≤ hours ∨ 60 ≤ minutes then none
        else some (sign * (hours * 60 + minutes : Nat), rest)

/-- Reads a time. -/
def ofChars? (cs : List Char) : Option Timestamp := do
  let (year, cs) ← readYear cs
  let cs ← readMark '-' cs
  let (month, cs) ← readTwo cs
  let cs ← readMark '-' cs
  let (day, cs) ← readTwo cs
  let cs ← readSeparator cs
  let (hour, cs) ← readTwo cs
  let cs ← readMark ':' cs
  let (minute, cs) ← readTwo cs
  let cs ← readMark ':' cs
  let (second, cs) ← readTwo cs
  let (nanosecond, cs) ← readPart cs
  let (offset, cs) ← readOffset (skipBlank cs)
  if (skipBlank cs).isEmpty then
    (← ofClock? year month day hour minute second nanosecond).ofLocal? offset
  else none

/-- Reads a time from a text. -/
def ofText? (s : String) : Option Timestamp := ofChars? s.toList

end Timestamp

end Bourse
