import TangledGraph.Decimal.Reader
import TangledGraph.Text.Reader

/-!
# Dates and times

A day of the calendar, a time of day, or both with an offset at most. A text may
spell them in several ways; `DateTime.text` is the one layout in which they are
shown, and reading that layout gives the same date and time again.
-/
namespace TangledGraph.Toml

open Text Text.Reader

structure Date where
  year : Nat
  month : Nat
  day : Nat
  deriving DecidableEq, Repr

structure Time where
  hour : Nat
  minute : Nat
  second : Option Nat
  /-- The part of the second in billionths, if it is given. -/
  nanosecond : Option Nat
  deriving DecidableEq, Repr

/-- How far a clock is ahead of universal time. -/
inductive Offset
  | universal
  /-- In minutes, negative if the clock is behind. -/
  | ahead (minutes : Int)
  deriving DecidableEq, Repr

inductive DateTime
  | date (day : Date)
  | time (clock : Time)
  | moment (day : Date) (clock : Time) (offset : Option Offset)
  deriving DecidableEq, Repr

def isLeapYear (year : Nat) : Bool := year % 4 = 0 && (year % 100 != 0 || year % 400 = 0)

def daysInMonth (year month : Nat) : Nat :=
  if month = 2 then (if isLeapYear year then 29 else 28)
  else if [4, 6, 9, 11].contains month then 30
  else 31

/-- Whether the calendar has the day. -/
def Date.isValid (d : Date) : Bool :=
  1 ≤ d.month && d.month ≤ 12 && 1 ≤ d.day && d.day ≤ daysInMonth d.year d.month

/-- Whether a clock shows the time; a minute may have a leap second. -/
def Time.isValid (t : Time) : Bool :=
  t.hour ≤ 23 && t.minute ≤ 59 && t.second.all (· ≤ 60)

/-- A number of exactly `width` digits. -/
def digits (width : Nat) : Reader Nat := do
  let text ← takeWhile Decimal.isDigit
  if text.length = width then pure (Decimal.natural text) else failure

def Date.reader : Reader Date := do
  let year ← digits 4
  char '-'
  let month ← digits 2
  char '-'
  let day ← digits 2
  let d : Date := ⟨year, month, day⟩
  if d.isValid then pure d else failure

/-- The billionths that the digits after a point stand for; further digits do
not count. -/
def nanoseconds (text : List Char) : Nat :=
  Decimal.natural ((text ++ List.replicate 9 '0').take 9)

/-- The part of a second, after the point. -/
def fraction : Reader Nat := do
  let text ← takeWhile Decimal.isDigit
  if text.isEmpty then failure else pure (nanoseconds text)

/-- What follows a mark, if the mark comes next. -/
def after {α : Type} (mark : Char) (r : Reader α) : Reader (Option α) := do
  if ← tryChar mark then return some (← r) else pure none

def Time.reader : Reader Time := do
  let hour ← digits 2
  char ':'
  let minute ← digits 2
  let second ← after ':' (digits 2)
  let nanosecond ← if second.isSome then after '.' fraction else pure none
  let t : Time := ⟨hour, minute, second, nanosecond⟩
  if t.isValid then pure t else failure

/-- Hours and minutes of an offset, after its sign. -/
def offsetMinutes : Reader Nat := do
  let hours ← digits 2
  char ':'
  let minutes ← digits 2
  if hours ≤ 23 && minutes ≤ 59 then pure (hours * 60 + minutes) else failure

def Offset.reader : Reader (Option Offset) := do
  if (← tryChar 'Z') || (← tryChar 'z') then pure (some .universal)
  else if ← tryChar '+' then return some (.ahead (← offsetMinutes))
  else if ← tryChar '-' then return some (.ahead (-(← offsetMinutes)))
  else pure none

/-- Takes the mark between a day and a time, if a time follows: a `T`, or a
blank before a digit. -/
def timeMark : Reader Bool := do
  match ← remaining with
  | 'T' :: _ | 't' :: _ => let _ ← next; pure true
  | ' ' :: c :: _ => if Decimal.isDigit c then tryChar ' ' else pure false
  | _ => pure false

/-- A day, with the time and the offset that follow. -/
def dayReader : Reader DateTime := do
  let day ← Date.reader
  if ← timeMark then
    let clock ← Time.reader
    return .moment day clock (← Offset.reader)
  else pure (.date day)

/-- A date or a time, if the text starts like one: digits before a dash or a
colon. Then it has to be one. -/
def DateTime.tryReader : Reader (Option DateTime) := do
  let text ← remaining
  if !text.head?.any Decimal.isDigit then pure none
  else match (text.dropWhile Decimal.isDigit).head? with
    | some '-' => return some (← dayReader)
    | some ':' => return some (.time (← Time.reader))
    | _ => pure none

/-- A number with zeros in front up to a width. -/
def padded (width n : Nat) : String := String.ofList ((Nat.toDigits 10 n).leftpad width '0')

def Date.text (d : Date) : String :=
  padded 4 d.year ++ "-" ++ padded 2 d.month ++ "-" ++ padded 2 d.day

/-- The digits of a part of a second without zeros at the end, but one at least. -/
def fractionText (nanosecond : Nat) : String :=
  let kept := (padded 9 nanosecond).toList.reverse.dropWhile (· = '0')
  if kept.isEmpty then "0" else String.ofList kept.reverse

def Time.text (t : Time) : String :=
  padded 2 t.hour ++ ":" ++ padded 2 t.minute
    ++ (t.second.map fun s => ":" ++ padded 2 s).getD ""
    ++ (t.nanosecond.map fun n => "." ++ fractionText n).getD ""

def Offset.text : Offset → String
  | universal => "Z"
  | ahead minutes =>
    (if minutes < 0 then "-" else "+") ++ padded 2 (minutes.natAbs / 60) ++ ":"
      ++ padded 2 (minutes.natAbs % 60)

def DateTime.text : DateTime → String
  | date day => day.text
  | time clock => clock.text
  | moment day clock offset =>
    day.text ++ "T" ++ clock.text ++ (offset.map Offset.text).getD ""

end TangledGraph.Toml
