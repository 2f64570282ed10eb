import CallEvolution.Random.Uniform

/-!
Draws by weight. A position is drawn with a chance in proportion to its weight, and evenly when the
weights are unusable: none, one that is negative or no number, or all of them zero.
-/

namespace CallEvolution.Draw

variable {γ : Type} [RandomSource γ]

/-- The sums of the leading weights, the last being the total. -/
def runningSums : Double → List Double → List Double
  | _, [] => []
  | sum, w :: ws => (sum + w) :: runningSums (sum + w) ws

/-- A first weight stands for itself, without an addition. -/
def cumulative : List Double → List Double
  | [] => []
  | w :: ws => w :: runningSums w ws

def usableWeights (weights : List Double) : Bool :=
  !weights.isEmpty && weights.all (fun w => 0 ≤ w) &&
    !((cumulative weights).getLastD 0).same 0

/-- The largest fraction that a draw can give. -/
def greatestFraction : Double := Binary.ofRatio (twoPow 52 - 1 : Nat) (twoPow 52)

/-- `total`, made smaller until no fraction of it reaches `total`. -/
def shrinkScale (total : Double) : Nat → Double → Double
  | 0, scale => scale
  | limit + 1, scale =>
    if total ≤ scale * greatestFraction then shrinkScale total limit scale.shrink else scale

/-- A position of a list of weights; zero if the list is empty. -/
def weighted (weights : List Double) : Draw γ Nat :=
  if usableWeights weights then
    let sums := cumulative weights
    let total := sums.getLastD 0
    if !total.isFinite then fault .unboundedWeights
    else do
      let scale := shrinkScale total 8 total
      let x := (← fraction .double .bits64 12) * scale
      return (sums.dropLast.takeWhile fun s => s ≤ x).length
  else index (max weights.length 1)

end CallEvolution.Draw
