import CallEvolution.Number.Binary
import CallEvolution.Random.Source

/-!
Uniform draws: whole numbers from a range, binary numbers from an interval, chances, letters and
members of a list. Whole numbers come from the high part of the product of a word and the size of
the range; the words whose low part falls behind the last full multiple are drawn again.
-/

namespace CallEvolution.Draw

variable {γ : Type} [RandomSource γ]

/-- The width of the words of a draw. -/
inductive Width where
  | bits32
  | bits64
  deriving DecidableEq

def Width.bits : Width → Nat
  | bits32 => 32
  | bits64 => 64

def word : Width → Draw γ Nat
  | .bits32 => word32
  | .bits64 => word64

/-- The position in a range of `size` members that a word selects, if it selects one evenly. -/
def select? (bits size : Nat) (word : Nat) : Option Nat :=
  let zone := size * twoPow (bits - 1 - size.log2) - 1
  if word * size % twoPow bits ≤ zone then some (word * size / twoPow bits) else none

/-- A number below `size`, for a positive size of at most `bits` bits. -/
def below (w : Width) (size : Nat) : Draw γ Nat :=
  untilSome (do return select? w.bits size (← word w)) redrawLimit

/-- A whole number of `[low, high]`. A full range takes the word as the distance from `low`, or in two's
complement when there are negative members. -/
def integer (w : Width) (low high : Int) : Draw γ Int :=
  if high < low then fault .emptyRange
  else
    let size := (high - low + 1).toNat
    if size = twoPow w.bits then do
      let v ← word w
      return if low < 0 then Int.bmod v (twoPow w.bits) else low + v
    else do
      return low + (← below w size)

/-- A count of `[low, high]`. -/
def count (low high : Nat) : Draw γ Nat := do
  return (← integer .bits64 low high).toNat

/-- A position in a list of `size` members. -/
def index (size : Nat) : Draw γ Nat :=
  if size = 0 then fault .emptyRange else count 0 (size - 1)

/-- A fraction of `[0, 1)` with as many bits as a word leaves beside `discard` low ones. -/
def fraction (F : Format) (w : Width) (discard : Nat) : Draw γ (Binary F) := do
  let v ← word w
  return Binary.ofRatio (v / twoPow discard : Nat) (twoPow (w.bits - discard))

/-- A number of `[low, high)`. -/
def real {F : Format} (w : Width) (discard : Nat) (low high : Binary F) : Draw γ (Binary F) :=
  if ¬ low < high then fault .emptyRange
  else
    let scale := high - low
    if !scale.isFinite then fault .unboundedRange
    else
      untilSome (do
        let x := (← fraction F w discard) * scale + low
        return if x < high then some x else none) redrawLimit

def double (low high : Double) : Draw γ Double := real .bits64 12 low high

def single (low high : Single) : Draw γ Single := real .bits32 9 low high

/-- True with chance `p`; certainty needs no word. -/
def chance (p : Double) : Draw γ Bool :=
  if p.same 1 then pure true
  else if 0 ≤ p ∧ p < 1 then do
    let threshold := (p * Binary.ofInt (twoPow 64)).truncate?.getD 0
    return decide ((← word64 : Int) < threshold)
  else fault .invalidProbability

/-- The letters and digits that random text is made of. -/
def alphabet : List Char :=
  "ABCDEFGHIJKLMNOPQRSTUVWXYZabcdefghijklmnopqrstuvwxyz0123456789".toList

def letter : Draw γ Char :=
  untilSome (do return alphabet[(← word32) / twoPow 26]?) redrawLimit

def letters : Nat → Draw γ (List Char)
  | 0 => pure []
  | length + 1 => do
    let c ← letter
    return c :: (← letters length)

/-- A text of `length` letters and digits, for which there has to be room. -/
def text (length : Nat) : Draw γ String :=
  if textRoom ≤ length then fault .unboundedRoom
  else do
    return String.ofList (← letters length)

/-- A member of a list, none if there is none. -/
def member? {α : Type} (xs : List α) : Draw γ (Option α) :=
  if xs.isEmpty then pure none
  else do
    return xs[(← integer .bits32 0 (xs.length - 1 : Nat)).toNat]?

end CallEvolution.Draw
