import CallEvolution.Calendar.Date

/-!
Times of the day, with leap seconds, and moments that join a day and a time.
-/

namespace CallEvolution

/-- A time of the day. A fraction of a second or more is that of the leap second which follows. -/
structure Time where
  seconds : Nat
  nanos : Nat
  seconds_lt : seconds < 86400 := by decide
  nanos_lt : nanos < 2000000000 := by decide
  deriving DecidableEq

structure Moment where
  date : Date
  time : Time
  deriving DecidableEq

namespace Time

def midnight : Time := { seconds := 0, nanos := 0 }

instance : Inhabited Time := ⟨midnight⟩

def nanosPerSecond : Nat := 1000000000

/-- Second 60 is the leap second, in any minute. -/
def ofParts? (hour minute second nanos : Nat) : Option Time :=
  let whole := min second 59
  let nanos := nanos + (second - whole) * nanosPerSecond
  if h : hour < 24 ∧ minute < 60 ∧ second ≤ 60 ∧ nanos < 2000000000 then
    some
      { seconds := hour * 3600 + minute * 60 + whole
        nanos := nanos
        seconds_lt := by omega
        nanos_lt := h.2.2.2 }
  else none

def hour (t : Time) : Nat := t.seconds / 3600

def minute (t : Time) : Nat := t.seconds / 60 % 60

/-- The second of the minute, 60 in a leap second. -/
def second (t : Time) : Nat := t.seconds % 60 + t.nanos / nanosPerSecond

/-- The part of a second. -/
def subsecond (t : Time) : Nat := t.nanos % nanosPerSecond

/-- The time `n` seconds later and the number of days that passed. A leap second is left at its end
when time goes on and at its start when time goes back. -/
def shift (t : Time) (n : Int) : Time × Int :=
  if n = 0 then (t, 0)
  else
    let leap := nanosPerSecond ≤ t.nanos
    let total : Int := t.seconds + n + if leap && decide (n < 0) then 1 else 0
    ({ seconds := (total % 86400).toNat
       nanos := t.nanos % nanosPerSecond
       seconds_lt := by omega
       nanos_lt := by unfold nanosPerSecond; omega },
     total / 86400)

end Time

namespace Moment

def epoch : Moment := ⟨.epoch, .midnight⟩

instance : Inhabited Moment := ⟨epoch⟩

/-- The moment `n` seconds later, if it can be represented. -/
def addSeconds? (m : Moment) (n : Int) : Option Moment := do
  let (time, days) := m.time.shift n
  let date ← m.date.addDays? days
  return ⟨date, time⟩

end Moment

/-- The longest span of time, in seconds. -/
def longestSpan : Nat := 9223372036854775

end CallEvolution
