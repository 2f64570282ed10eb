import CallEvolution.Random.Source

/-!
A source that gives listed words first and then those of the SplitMix64 generator. Each draw takes
one word; one of 32 bits is the high half of it.
-/

namespace CallEvolution

structure WordSource where
  listed : List UInt64
  seed : UInt64

namespace WordSource

/-- The SplitMix64 output for a state. -/
def scramble (s : UInt64) : UInt64 :=
  let z := (s ^^^ (s >>> 30)) * 0xBF58476D1CE4E5B9
  let z := (z ^^^ (z >>> 27)) * 0x94D049BB133111EB
  z ^^^ (z >>> 31)

def next (s : WordSource) : UInt64 × WordSource :=
  match s.listed with
  | w :: ws => (w, { s with listed := ws })
  | [] =>
    let seed := s.seed + 0x9E3779B97F4A7C15
    (scramble seed, { s with seed })

instance : RandomSource WordSource where
  next32 s := let (w, s) := s.next; ((w >>> 32).toUInt32, s)
  next64 := next

end WordSource
end CallEvolution
