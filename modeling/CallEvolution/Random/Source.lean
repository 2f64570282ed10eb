import CallEvolution.Fault
import CallEvolution.Number.Power

/-!
Draws from a source of random words. A draw takes the state of the source and gives a value with the
next state, or a fault. What a source answers is left open, so a statement about all sources is one
about every stream of random words.
-/

namespace CallEvolution

/-- States from which words of 32 and 64 bits can be taken. -/
class RandomSource (γ : Type) where
  next32 : γ → UInt32 × γ
  next64 : γ → UInt64 × γ

abbrev Draw (γ : Type) := StateT γ (Except Fault)

namespace Draw

variable {γ : Type} [RandomSource γ] {α : Type}

def fault (f : Fault) : Draw γ α := fun _ => .error f

/-- A computation that draws nothing. -/
def ofExcept (r : Except Fault α) : Draw γ α := fun s => r.map fun x => (x, s)

/-- A word of 32 bits as a number. -/
def word32 : Draw γ Nat := fun s =>
  let (w, s) := RandomSource.next32 s
  .ok (w.toNat, s)

/-- A word of 64 bits as a number. -/
def word64 : Draw γ Nat := fun s =>
  let (w, s) := RandomSource.next64 s
  .ok (w.toNat, s)

/-- How often a draw is repeated before it is given up. -/
def redrawLimit : Nat := twoPow 62

/-- Repeats `draw` until it gives a value, at most `limit` times. -/
def untilSome (draw : Draw γ (Option α)) : Nat → Draw γ α
  | 0 => fault .endlessRedraw
  | limit + 1 => do
    match ← draw with
    | some x => pure x
    | none => untilSome draw limit

end Draw
end CallEvolution
