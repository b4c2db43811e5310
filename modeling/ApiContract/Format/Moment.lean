import ApiContract.Number.Decimal

/-!
# Dates and times in texts

* `isDate`: a day as in `2024-02-29`.
* `isTime`: a time of day with its offset, as in `09:15:00.5+02:00`. A minute may have a second 60 only
  where the day ends in universal time.
* `isDateTime`: both, with a `T` between them.
-/

namespace ApiContract

/-- The number that a given number of digits write, if a text consists of exactly so many. -/
def fixedDigits? (width : Nat) (text : List Char) : Option Nat :=
  if text.length = width && text.all isDigit then some (decimalValue text) else none

def isLeapYear (year : Nat) : Bool := year % 4 == 0 && (year % 100 != 0 || year % 400 == 0)

/-- The number of days of a month. -/
def daysOfMonth (year month : Nat) : Nat :=
  if month = 2 then (if isLeapYear year then 29 else 28)
  else if month = 4 || month = 6 || month = 9 || month = 11 then 30
  else 31

/-- Whether a text is a date. -/
def isDate (text : List Char) : Bool :=
  match text.splitOn '-' with
  | [y, m, d] =>
    match fixedDigits? 4 y, fixedDigits? 2 m, fixedDigits? 2 d with
    | some year, some month, some day =>
      1 ≤ month && month ≤ 12 && 1 ≤ day && day ≤ daysOfMonth year month
    | _, _, _ => false
  | _ => false

/-- The minute of the day in universal time, of a local minute and the offset in minutes. -/
def universalMinute (minute offset : Nat) (east : Bool) : Nat :=
  if east then (minute + 1440 - offset) % 1440 else (minute + offset) % 1440

/-- Whether a text is an offset; a second of 60 needs the last minute of the day. -/
def isOffset (minute : Nat) (leap : Bool) (text : List Char) : Bool :=
  match text with
  | [c] => (c = 'Z' || c = 'z') && (!leap || minute == 1439)
  | sign :: rest =>
    (sign = '+' || sign = '-') &&
      (match rest.splitOn ':' with
       | [h, m] =>
         match fixedDigits? 2 h, fixedDigits? 2 m with
         | some hours, some minutes =>
           hours ≤ 23 && minutes ≤ 59 &&
             (!leap || universalMinute minute (hours * 60 + minutes) (sign == '+') == 1439)
         | _, _ => false
       | _ => false)
  | [] => false

/-- A fraction of a second is passed over; none if it has no digits. -/
def skipFraction? : List Char → Option (List Char)
  | '.' :: rest => if (rest.takeWhile isDigit).isEmpty then none else some (rest.dropWhile isDigit)
  | rest => some rest

/-- Whether a text is a time of day with its offset. -/
def isTime (text : List Char) : Bool :=
  match (text.take 8).splitOn ':', skipFraction? (text.drop 8) with
  | [h, m, s], some offset =>
    match fixedDigits? 2 h, fixedDigits? 2 m, fixedDigits? 2 s with
    | some hour, some minute, some second =>
      hour ≤ 23 && minute ≤ 59 && second ≤ 60 &&
        isOffset (hour * 60 + minute) (second == 60) offset
    | _, _, _ => false
  | _, _ => false

/-- Whether a text is a date and a time. -/
def isDateTime (text : List Char) : Bool :=
  let isMark (c : Char) : Bool := c = 'T' || c = 't'
  isDate (text.takeWhile fun c => !isMark c) &&
    isTime ((text.dropWhile fun c => !isMark c).drop 1)

end ApiContract
