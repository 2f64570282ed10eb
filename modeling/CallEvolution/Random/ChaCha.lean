import CallEvolution.Random.Source

/-!
The ChaCha generator with twelve rounds, seeded from one number. The key stream is read word by word;
a draw of 64 bits takes two words, the low half first.
-/

namespace CallEvolution

structure ChaCha where
  key : Array UInt32
  counter : UInt64
  /-- Words of the current block that are still unread. -/
  pending : List UInt32

namespace ChaCha

def rotateLeft (x : UInt32) (n : UInt32) : UInt32 := (x <<< n) ||| (x >>> (32 - n))

def quarterRound (s : Array UInt32) (a b c d : Nat) : Array UInt32 :=
  let xa := s.getD a 0
  let xb := s.getD b 0
  let xc := s.getD c 0
  let xd := s.getD d 0
  let xa := xa + xb
  let xd := rotateLeft (xd ^^^ xa) 16
  let xc := xc + xd
  let xb := rotateLeft (xb ^^^ xc) 12
  let xa := xa + xb
  let xd := rotateLeft (xd ^^^ xa) 8
  let xc := xc + xd
  let xb := rotateLeft (xb ^^^ xc) 7
  (((s.setIfInBounds a xa).setIfInBounds b xb).setIfInBounds c xc).setIfInBounds d xd

/-- A round on the columns and one on the diagonals. -/
def doubleRound (s : Array UInt32) : Array UInt32 :=
  let s := quarterRound s 0 4 8 12
  let s := quarterRound s 1 5 9 13
  let s := quarterRound s 2 6 10 14
  let s := quarterRound s 3 7 11 15
  let s := quarterRound s 0 5 10 15
  let s := quarterRound s 1 6 11 12
  let s := quarterRound s 2 7 8 13
  quarterRound s 3 4 9 14

/-- The sixteen key-stream words for a block number. -/
def block (key : Array UInt32) (counter : UInt64) : List UInt32 :=
  let constants : Array UInt32 := #[0x61707865, 0x3320646e, 0x79622d32, 0x6b206574]
  let start := constants ++ key ++ #[counter.toUInt32, (counter >>> 32).toUInt32, 0, 0]
  let mixed := (List.range 6).foldl (fun s _ => doubleRound s) start
  List.zipWith (· + ·) mixed.toList start.toList

/-- Key words from a seed: a linear congruential state, each word a rotated part of it. -/
def keyWords : Nat → UInt64 → List UInt32
  | 0, _ => []
  | n + 1, state =>
    let state := state * 6364136223846793005 + 11634580027462260723
    let x := (((state >>> 18) ^^^ state) >>> 27).toUInt32
    let r := (state >>> 59).toUInt32
    ((x >>> r) ||| (x <<< ((32 - r) % 32))) :: keyWords n state

def ofSeed (seed : UInt64) : ChaCha where
  key := (keyWords 8 seed).toArray
  counter := 0
  pending := []

def next (s : ChaCha) : UInt32 × ChaCha :=
  match s.pending with
  | w :: ws => (w, { s with pending := ws })
  | [] =>
    match block s.key s.counter with
    | w :: ws => (w, { s with pending := ws, counter := s.counter + 1 })
    | [] => (0, s)

instance : RandomSource ChaCha where
  next32 := next
  next64 s :=
    let (low, s) := s.next
    let (high, s) := s.next
    (low.toUInt64 ||| (high.toUInt64 <<< 32), s)

end ChaCha
end CallEvolution
