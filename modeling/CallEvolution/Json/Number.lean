import CallEvolution.Decimal.Reader
import CallEvolution.Json.Basic

/-!
Numbers in JSON text. A number with a fraction, an exponent or more than 64 bits is read in one pass:
its digits are gathered in 64 bits, those that do not fit are dropped, and one multiplication or
division by a power of ten gives the value (`scaled`). Gathering and scaling round once each, so the
value of a long number may be a neighbour of the nearest one.
-/

namespace CallEvolution.Json

/-- Appends digits to `n` as long as the number has 64 bits, and counts the digits that are left. -/
def gather : Nat → List Char → Nat × Nat
  | n, [] => (n, 0)
  | n, c :: cs =>
    if 10 * n + Text.digitValue c < twoPow 64 then gather (10 * n + Text.digitValue c) cs
    else (n, cs.length + 1)

/-- The exponent of the greatest power of ten that is a finite number. -/
def greatestTen : Int := 308

def tenTimes (exponent : Int) : Double := Binary.ofInt (tenPow exponent.toNat)

/-- A number of 64 bits times a power of ten. Two divisions bring it below the least positive number
before the exponent runs out, so there is nothing to be done for smaller exponents. -/
def scaled (x : Double) (exponent : Int) : Double :=
  if greatestTen < exponent then if x.same 0 then 0 else .infinity false
  else if 0 ≤ exponent then x * tenTimes exponent
  else if -greatestTen ≤ exponent then x / tenTimes (-exponent)
  else if -(2 * greatestTen) ≤ exponent then
    x / tenTimes greatestTen / tenTimes (-exponent - greatestTen)
  else 0

/-- The value of a number with the given digits before and behind the point. A digit that is dropped
before the point counts as a zero. -/
def realOf (negative : Bool) (whole places : List Char) (exponent : Int) : Double :=
  let (n, dropped) := gather 0 whole
  let (n, droppedPlaces) := gather n places
  let x := scaled (Binary.ofInt n) (exponent + dropped - (places.length - droppedPlaces : Nat))
  if negative then -x else x

/-- The whole part of a number: no zero stands in front of other digits. -/
def wholePart? (cs : List Char) : Option (List Char × List Char) :=
  let digits := cs.takeWhile Char.isDigit
  match digits with
  | [] => none
  | '0' :: _ :: _ => none
  | _ => some (digits, cs.dropWhile Char.isDigit)

/-- The places of a number behind a point. -/
def places? : List Char → Option (List Char × List Char)
  | '.' :: cs =>
    let digits := cs.takeWhile Char.isDigit
    if digits.isEmpty then none else some (digits, cs.dropWhile Char.isDigit)
  | cs => some ([], cs)

/-- The exponent of a number, if it has one. -/
def exponentPart? (cs : List Char) : Option (Option Int × List Char) :=
  match cs with
  | c :: rest =>
    if c = 'e' ∨ c = 'E' then
      let (negative, rest) := Decimal.splitSign rest
      let digits := rest.takeWhile Char.isDigit
      if digits.isEmpty then none
      else
        let n : Int := Text.ofDigits digits
        some (some (if negative then -n else n), rest.dropWhile Char.isDigit)
    else some (none, cs)
  | [] => some (none, [])

/-- A number. It is kept whole if it is written so and has 64 bits; there is no whole `-0`. -/
def number? (cs : List Char) : Option (Json × List Char) := do
  let (negative, cs) := match cs with
    | '-' :: cs => (true, cs)
    | cs => (false, cs)
  let (whole, cs) ← wholePart? cs
  let (places, cs) ← places? cs
  let (exponent, cs) ← exponentPart? cs
  let n := Text.ofDigits whole
  if places.isEmpty ∧ exponent = none ∧
      (if negative then 0 < n ∧ n ≤ twoPow 63 else n < twoPow 64) then
    return (integer (if negative then -(n : Int) else n), cs)
  else
    return (real (realOf negative whole places (exponent.getD 0)), cs)

end CallEvolution.Json
