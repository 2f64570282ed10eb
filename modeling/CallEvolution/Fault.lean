import CallEvolution.Number.Power

/-!
Reasons for which a computation is given up without an answer.
-/

namespace CallEvolution

inductive Fault where
  /-- A draw from a range without members. -/
  | emptyRange
  /-- A draw from a range whose width is not a finite number. -/
  | unboundedRange
  /-- A chance outside `[0, 1]`. -/
  | invalidProbability
  /-- Weights whose sum is not a finite number. -/
  | unboundedWeights
  /-- Bounds that are not ordered because one is not a number. -/
  | unorderedBounds
  /-- A position outside a list or an arena. -/
  | outOfRange
  /-- A time span that is too long to be represented. -/
  | unboundedSpan
  /-- Room asked for more members than can be held. -/
  | unboundedRoom
  /-- A whole number that left the range of its type. -/
  | overflow
  /-- A draw that was rejected as often as is allowed. -/
  | endlessRedraw
  deriving DecidableEq, Repr

/-- From this length on there is no room for a text. -/
def textRoom : Nat := twoPow 63

end CallEvolution
