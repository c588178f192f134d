/-!
# Moments in calendar form

A moment is a number of seconds since the start of 1970, counted without leap seconds, and is shown
by its date in the Gregorian calendar and its time of day in UTC.
-/

namespace DelayLedger.Text

/-- A day of the Gregorian calendar, extended to all years. -/
structure Day where
  year : Int
  month : Nat
  day : Nat
deriving DecidableEq, Repr

/-- The day that is `n` days after the first of January 1970.  Years are counted from March here, so
that a leap day ends its year; an era is the 400 years after which the calendar repeats. -/
def Day.ofNumber (n : Int) : Day :=
  let shifted := n + 719468
  let era := shifted.fdiv 146097
  let dayOfEra := (shifted - era * 146097).toNat
  let yearOfEra := (dayOfEra - dayOfEra / 1460 + dayOfEra / 36524 - dayOfEra / 146096) / 365
  let dayOfYear := dayOfEra - (365 * yearOfEra + yearOfEra / 4 - yearOfEra / 100)
  let monthFromMarch := (5 * dayOfYear + 2) / 153
  let month := if monthFromMarch < 10 then monthFromMarch + 3 else monthFromMarch - 9
  { year := yearOfEra + era * 400 + if month ≤ 2 then 1 else 0
    month := month
    day := dayOfYear - (153 * monthFromMarch + 2) / 5 + 1 }

def padded (width n : Nat) : String :=
  let digits := toString n
  String.ofList (List.replicate (width - digits.length) '0') ++ digits

/-- A year with at least four digits, and with a sign if it is negative or has more. -/
def yearText (y : Int) : String :=
  if 0 ≤ y ∧ y ≤ 9999 then padded 4 y.toNat
  else (if y < 0 then "-" else "+") ++ padded 4 y.natAbs

/-- The first and the last year that are shown in calendar form. -/
def firstYear : Int := -262143

def lastYear : Int := 262142

/-- A moment in calendar form.  The number is read as one of 64 bits with a sign; moments outside the
years that are shown appear as the number itself. -/
def moment (seconds : UInt64) : String :=
  let signed := seconds.toInt64.toInt
  let number := signed.fdiv 86400
  let rest := (signed - number * 86400).toNat
  let d := Day.ofNumber number
  if firstYear ≤ d.year ∧ d.year ≤ lastYear then
    s!"{yearText d.year}-{padded 2 d.month}-{padded 2 d.day} {padded 2 (rest / 3600)}:{padded 2 (rest / 60 % 60)}:{padded 2 (rest % 60)} UTC"
  else s!"@{seconds}"

end DelayLedger.Text
