import CallEvolution.Number.Binary
import CallEvolution.Text.Digits

/-!
Reading numbers from text: decimals with optional sign, fraction and exponent, the names of the
special values, and whole numbers.
-/

namespace CallEvolution.Decimal

open Text (ofDigits)

/-- A leading sign, and the rest. -/
def splitSign : List Char → Bool × List Char
  | '-' :: cs => (true, cs)
  | '+' :: cs => (false, cs)
  | cs => (false, cs)

/-- An optional exponent that ends the text. -/
def exponent? : List Char → Option Int
  | [] => some 0
  | c :: cs =>
    if c = 'e' ∨ c = 'E' then
      let (negative, digits) := splitSign cs
      if digits.isEmpty || !digits.all Char.isDigit then none
      else some (if negative then -(ofDigits digits : Int) else ofDigits digits)
    else none

/-- Digits with an optional point among or around them and an optional exponent. -/
def magnitude? (cs : List Char) : Option (Nat × Int) := do
  let whole := cs.takeWhile Char.isDigit
  let rest := cs.dropWhile Char.isDigit
  let (places, rest) := match rest with
    | '.' :: rest => (rest.takeWhile Char.isDigit, rest.dropWhile Char.isDigit)
    | rest => ([], rest)
  if whole.isEmpty && places.isEmpty then none
  let exponent ← exponent? rest
  some (ofDigits (whole ++ places), exponent - places.length)

/-- The number nearest to the decimal in `text`; `inf`, `infinity` and `nan` are read in any case. -/
def real? (F : Format) (text : String) : Option (Binary F) :=
  let (negative, cs) := splitSign text.toList
  let word := String.ofList (cs.map Char.toLower)
  if word = "inf" || word = "infinity" then some (.infinity negative)
  else if word = "nan" then some .nan
  else (magnitude? cs).map fun (digits, exponent) => Binary.ofDecimal negative digits exponent

/-- The whole number in `text`. -/
def integer? (text : String) : Option Int :=
  let (negative, cs) := splitSign text.toList
  if cs.isEmpty || !cs.all Char.isDigit then none
  else some (if negative then -(ofDigits cs : Int) else ofDigits cs)

end CallEvolution.Decimal
