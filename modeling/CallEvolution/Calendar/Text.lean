import CallEvolution.Calendar.Time
import CallEvolution.Number.Power
import CallEvolution.Text.Blank
import CallEvolution.Text.Digits

/-!
Days, times and moments as text. Years of up to four digits stand bare, all others carry a sign. Two
readings are given: one that admits blanks only in front of numbers, and one that admits them in
front of separators and at the end too and reads fractions of a second.
-/

namespace CallEvolution.Calendar

def padded (width n : Nat) : String :=
  let s := toString n
  "".pushn '0' (width - s.length) ++ s

def yearText (y : Int) : String :=
  if 0 ≤ y ∧ y ≤ 9999 then padded 4 y.toNat
  else (if y < 0 then "-" else "+") ++ padded 4 y.natAbs

def dateText (d : Date) : String :=
  yearText d.year ++ "-" ++ padded 2 d.month ++ "-" ++ padded 2 d.day

/-- A time without its fraction. -/
def timeText (t : Time) : String :=
  padded 2 t.hour ++ ":" ++ padded 2 t.minute ++ ":" ++ padded 2 t.second

def momentText (m : Moment) : String := dateText m.date ++ "T" ++ timeText m.time

/-- A fraction of a second with as many groups of three digits as it needs. -/
def fractionText (nanos : Nat) : String :=
  if nanos = 0 then ""
  else if nanos % 1000000 = 0 then "." ++ padded 3 (nanos / 1000000)
  else if nanos % 1000 = 0 then "." ++ padded 6 (nanos / 1000)
  else "." ++ padded 9 nanos

def fullTimeText (t : Time) : String := timeText t ++ fractionText t.subsecond

def fullMomentText (m : Moment) : String := dateText m.date ++ "T" ++ fullTimeText m.time

/-- Where blanks are admitted. -/
inductive Spacing where
  | beforeNumbers
  | everywhere
  deriving DecidableEq

def skipBlanks (cs : List Char) : List Char := cs.dropWhile Text.isBlank

/-- The number that the leading digits write. -/
def digits? (cs : List Char) : Option (Nat × List Char) :=
  let digits := cs.takeWhile Char.isDigit
  if digits.isEmpty then none else some (Text.ofDigits digits, cs.dropWhile Char.isDigit)

/-- A number of at most `width` digits. -/
def number? (width : Nat) (cs : List Char) : Option (Nat × List Char) := do
  let cs := skipBlanks cs
  let digits := (cs.take width).takeWhile Char.isDigit
  if digits.isEmpty then none else some (Text.ofDigits digits, cs.drop digits.length)

def year? (cs : List Char) : Option (Int × List Char) :=
  match skipBlanks cs with
  | '-' :: cs => (digits? cs).map fun (n, cs) => (-(n : Int), cs)
  | '+' :: cs => (digits? cs).map fun (n, cs) => ((n : Int), cs)
  | cs => (number? 4 cs).map fun (n, cs) => ((n : Int), cs)

def spaced (s : Spacing) (cs : List Char) : List Char :=
  match s with
  | .beforeNumbers => cs
  | .everywhere => skipBlanks cs

def separator? (s : Spacing) (c : Char) (cs : List Char) : Option (List Char) :=
  match spaced s cs with
  | d :: cs => if d = c then some cs else none
  | [] => none

def dateAt? (s : Spacing) (cs : List Char) : Option (Date × List Char) := do
  let (year, cs) ← year? cs
  let cs ← separator? s '-' cs
  let (month, cs) ← number? 2 cs
  let cs ← separator? s '-' cs
  let (day, cs) ← number? 2 cs
  let date ← Date.ofParts? year month day
  return (date, cs)

/-- The nanoseconds that a fraction writes; digits behind the ninth do not count. -/
def fraction? : List Char → Option (Nat × List Char)
  | '.' :: cs =>
    let digits := cs.takeWhile Char.isDigit
    if digits.isEmpty then none
    else
      let kept := digits.take 9
      some (Text.ofDigits kept * tenPow (9 - kept.length), cs.dropWhile Char.isDigit)
  | cs => some (0, cs)

def secondAt? (s : Spacing) (cs : List Char) : Option (Nat × Nat × List Char) := do
  let cs ← separator? s ':' cs
  let (second, cs) ← number? 2 cs
  if 60 < second then none
  let (nanos, cs) ← match s with
    | .beforeNumbers => some (0, cs)
    | .everywhere => fraction? cs
  return (second, nanos, cs)

def timeAt? (s : Spacing) (cs : List Char) : Option (Time × List Char) := do
  let (hour, cs) ← number? 2 cs
  let cs ← separator? s ':' cs
  let (minute, cs) ← number? 2 cs
  let (second, nanos, cs) ← secondAt? s cs
  let time ← Time.ofParts? hour minute second nanos
  return (time, cs)

/-- A whole text; what stands behind a value must be admitted blanks. -/
def whole? {α : Type} (s : Spacing) (result : Option (α × List Char)) : Option α := do
  let (value, cs) ← result
  if (spaced s cs).isEmpty then some value else none

def date? (s : Spacing) (text : String) : Option Date := whole? s (dateAt? s text.toList)

def time? (s : Spacing) (text : String) : Option Time := whole? s (timeAt? s text.toList)

def moment? (s : Spacing) (text : String) : Option Moment :=
  whole? s do
    let (date, cs) ← dateAt? s text.toList
    let cs ← separator? s 'T' cs
    let (time, cs) ← timeAt? s cs
    return (⟨date, time⟩, cs)

/-- A time whose seconds may be missing. -/
def shortTime? (text : String) : Option Time :=
  match time? .everywhere text with
  | some t => some t
  | none => whole? .everywhere do
    let (hour, cs) ← number? 2 text.toList
    let cs ← separator? .everywhere ':' cs
    let (minute, cs) ← number? 2 cs
    let time ← Time.ofParts? hour minute 0 0
    return (time, cs)

end CallEvolution.Calendar
