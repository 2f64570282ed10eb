/-!
Days of the calendar with a leap year every four years but not in three of four centuries, carried
back before its introduction. Days are numbered from the first day of year one, so shifts are sums.
-/

namespace CallEvolution

def isLeapYear (y : Int) : Bool := y % 4 = 0 && (y % 100 ≠ 0 || y % 400 = 0)

/-- The lengths of the months of a year. -/
def monthLengths (y : Int) : List Nat :=
  [31, if isLeapYear y then 29 else 28, 31, 30, 31, 30, 31, 31, 30, 31, 30, 31]

def daysInMonth (y : Int) (month : Nat) : Nat := (monthLengths y).getD (month - 1) 0

/-- The years that can be represented, and the days that exist in them. -/
def IsDay (year : Int) (month day : Nat) : Prop :=
  -262143 ≤ year ∧ year ≤ 262142 ∧ 1 ≤ month ∧ month ≤ 12 ∧ 1 ≤ day ∧ day ≤ daysInMonth year month

instance (year : Int) (month day : Nat) : Decidable (IsDay year month day) :=
  inferInstanceAs (Decidable (_ ∧ _))

structure Date where
  year : Int
  month : Nat
  day : Nat
  isDay : IsDay year month day
  deriving DecidableEq

namespace Date

def ofParts? (year : Int) (month day : Nat) : Option Date :=
  if h : IsDay year month day then some ⟨year, month, day, h⟩ else none

/-- The first day of 1970. -/
def epoch : Date := ⟨1970, 1, 1, by decide⟩

instance : Inhabited Date := ⟨epoch⟩

/-- The number of days before the first day of a year. -/
def daysBeforeYear (y : Int) : Int := 365 * (y - 1) + (y - 1) / 4 - (y - 1) / 100 + (y - 1) / 400

/-- The number of days of a year before the first day of a month. -/
def daysBeforeMonth (y : Int) (month : Nat) : Nat :=
  ((monthLengths y).take (month - 1)).foldr (· + ·) 0

def number (d : Date) : Int := daysBeforeYear d.year + daysBeforeMonth d.year d.month + d.day - 1

/-- The month and day of a day of the year that is counted from zero. -/
def splitDay : List Nat → Nat → Nat → Nat × Nat
  | [], month, rest => (month, rest + 1)
  | length :: lengths, month, rest =>
    if rest < length then (month, rest + 1) else splitDay lengths (month + 1) (rest - length)

def ofNumber? (n : Int) : Option Date :=
  let cycle := n % 146097
  let century := min (cycle / 36524) 3
  let inCentury := cycle - century * 36524
  let inFour := inCentury % 1461
  let yearInFour := min (inFour / 365) 3
  let year := n / 146097 * 400 + century * 100 + inCentury / 1461 * 4 + yearInFour + 1
  let (month, day) := splitDay (monthLengths year) 1 (inFour - yearInFour * 365).toNat
  ofParts? year month day

/-- The day `n` days later, if it can be represented. -/
def addDays? (d : Date) (n : Int) : Option Date := ofNumber? (d.number + n)

end Date
end CallEvolution
