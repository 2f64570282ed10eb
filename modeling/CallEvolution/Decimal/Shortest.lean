import CallEvolution.Number.Binary

/-!
The shortest decimal that reads back as a given binary number, and of those the nearest. The reals
that round to a magnitude reach half way to its two neighbours, the ends included when its
significand is even; decimal grids are tried from the coarsest on.
-/

namespace CallEvolution.Decimal

/-- The number `digits * 10 ^ exponent`. -/
structure Numeral where
  digits : Nat
  exponent : Int
  deriving DecidableEq

/-- Which of two equally near decimals is taken. -/
inductive Tie where
  | toEven
  | up
  deriving DecidableEq

/-- The magnitudes that round to a given one, in units of half the least positive value. -/
structure Interval where
  low : Nat
  middle : Nat
  high : Nat
  closed : Bool

def Interval.around (F : Format) (units : Nat) : Interval where
  low := 2 * units - F.spacing (units - 1)
  middle := 2 * units
  high := 2 * units + F.spacing units
  closed := (units / F.spacing units) % 2 = 0

/-- Does `num / den` lie in the interval? -/
def Interval.contains (i : Interval) (num den : Nat) : Bool :=
  if i.closed then i.low * den ≤ num ∧ num ≤ i.high * den
  else i.low * den < num ∧ num < i.high * den

/-- The best point on the grid of multiples of `10 ^ exponent`, if one lies in the interval. -/
def onGrid (F : Format) (tie : Tie) (i : Interval) (exponent : Int) : Option Numeral :=
  let scale := twoPow (F.fraction + 1) * tenPow exponent.toNat
  let den := tenPow (-exponent).toNat
  let below := i.middle * den / scale
  let above := below + 1
  let lowIn := i.contains (below * scale) den
  let highIn := i.contains (above * scale) den
  let toBelow := i.middle * den - below * scale
  let toAbove := above * scale - i.middle * den
  if lowIn && highIn then
    if toBelow < toAbove then some ⟨below, exponent⟩
    else if toAbove < toBelow then some ⟨above, exponent⟩
    else if tie = .up then some ⟨above, exponent⟩
    else some ⟨if below % 2 = 0 then below else above, exponent⟩
  else if lowIn then some ⟨below, exponent⟩
  else if highIn then some ⟨above, exponent⟩
  else none

/-- An exponent of ten above which no grid holds a point near the magnitude. -/
def topExponent (F : Format) (units : Nat) : Int :=
  (((2 * units).log2 : Int) - (F.fraction + 1 : Nat)) * 1233 / 4096 + 2

/-- The shortest decimal for a positive magnitude; seventeen digits always suffice. -/
def shortest (F : Format) (tie : Tie) (units : Nat) : Numeral :=
  let i := Interval.around F units
  let top := topExponent F units
  ((List.range 24).findSome? fun k : Nat => onGrid F tie i (top - k)).getD ⟨0, 0⟩

end CallEvolution.Decimal
