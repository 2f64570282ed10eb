import CallEvolution.Number.Format

/-!
Binary floating-point numbers with correctly rounded operations: each operation is the exact result,
rounded once to the nearest number of the format, a half to the even neighbour. A finite number is a
sign and a representable magnitude, so two numbers with the same written form are equal; `same` is
the numeric equality, for which zero has one value and a NaN none.
-/

namespace CallEvolution

inductive Binary (F : Format) where
  | nan
  | infinity (negative : Bool)
  | finite (negative : Bool) (units : Nat) (representable : F.Representable units)
  deriving DecidableEq

/-- The numbers of the 64-bit format. -/
abbrev Double := Binary .double

/-- The numbers of the 32-bit format. -/
abbrev Single := Binary .single

namespace Binary

variable {F : Format}

/-- The number nearest to `num / den` units with the given sign. -/
def round (negative : Bool) (num den : Nat) : Binary F :=
  let spacing := F.spacing (num / den)
  if h : nearest num (den * spacing) * spacing < twoPow F.top then
    finite negative (nearest num (den * spacing) * spacing) ⟨F.spacing_dvd_nearest num den, h⟩
  else
    infinity negative

/-- The number nearest to `num / den`. -/
def ofRatio (num : Int) (den : Nat) : Binary F :=
  round (decide (num < 0)) (num.natAbs * twoPow F.fraction) den

def ofInt (n : Int) : Binary F := ofRatio n 1

instance (n : Nat) : OfNat (Binary F) n := ⟨ofInt n⟩

instance : Inhabited (Binary F) := ⟨ofInt 0⟩

/-- The number nearest to the decimal `± digits * 10 ^ exponent`. Beyond 400 places in front of or
behind the point every format of this module overflows or underflows. -/
def ofDecimal (negative : Bool) (digits : Nat) (exponent : Int) : Binary F :=
  let length : Int := (Nat.toDigits 10 digits).length
  if digits = 0 ∨ exponent + length < -400 then round negative 0 1
  else if 400 < exponent then infinity negative
  else if 0 ≤ exponent then round negative (digits * tenPow exponent.toNat * twoPow F.fraction) 1
  else round negative (digits * twoPow F.fraction) (tenPow (-exponent).toNat)

instance : OfScientific (Binary F) :=
  ⟨fun digits isNegative places =>
    ofDecimal false digits (if isNegative then -places else places)⟩

/-- The sign and magnitude as one integer. -/
def signed (negative : Bool) (units : Nat) : Int := if negative then -units else units

def isFinite : Binary F → Bool
  | finite .. => true
  | _ => false

def isNaN : Binary F → Bool
  | nan => true
  | _ => false

def neg : Binary F → Binary F
  | nan => nan
  | infinity s => infinity !s
  | finite s m h => finite (!s) m h

def abs : Binary F → Binary F
  | nan => nan
  | infinity _ => infinity false
  | finite _ m h => finite false m h

/-- A sum of zero is negative only if both parts are. -/
def add : Binary F → Binary F → Binary F
  | nan, _ => nan
  | _, nan => nan
  | infinity s, infinity t => if s = t then infinity s else nan
  | infinity s, finite .. => infinity s
  | finite .., infinity t => infinity t
  | finite s m _, finite t n _ =>
    let sum := signed s m + signed t n
    if sum = 0 then round (s && t) 0 1 else round (decide (sum < 0)) sum.natAbs 1

def sub (x y : Binary F) : Binary F := add x (neg y)

def mul : Binary F → Binary F → Binary F
  | nan, _ => nan
  | _, nan => nan
  | infinity s, infinity t => infinity (s ^^ t)
  | infinity s, finite t n _ => if n = 0 then nan else infinity (s ^^ t)
  | finite s m _, infinity t => if m = 0 then nan else infinity (s ^^ t)
  | finite s m _, finite t n _ => round (s ^^ t) (m * n) (twoPow F.fraction)

def div : Binary F → Binary F → Binary F
  | nan, _ => nan
  | _, nan => nan
  | infinity _, infinity _ => nan
  | infinity s, finite t _ _ => infinity (s ^^ t)
  | finite s _ _, infinity t => round (s ^^ t) 0 1
  | finite s m _, finite t n _ =>
    if n = 0 then if m = 0 then nan else infinity (s ^^ t)
    else round (s ^^ t) (m * twoPow F.fraction) n

instance : Neg (Binary F) := ⟨neg⟩
instance : Add (Binary F) := ⟨add⟩
instance : Sub (Binary F) := ⟨sub⟩
instance : Mul (Binary F) := ⟨mul⟩
instance : Div (Binary F) := ⟨div⟩

/-- Numeric comparison; no NaN is comparable with anything. -/
def less : Binary F → Binary F → Bool
  | nan, _ => false
  | _, nan => false
  | infinity s, infinity t => s && !t
  | infinity s, finite .. => s
  | finite .., infinity t => !t
  | finite s m _, finite t n _ => decide (signed s m < signed t n)

def same : Binary F → Binary F → Bool
  | infinity s, infinity t => s == t
  | finite s m _, finite t n _ => decide (signed s m = signed t n)
  | _, _ => false

instance : LT (Binary F) := ⟨fun x y => less x y = true⟩
instance : LE (Binary F) := ⟨fun x y => (less x y || same x y) = true⟩
instance (x y : Binary F) : Decidable (x < y) := inferInstanceAs (Decidable (_ = _))
instance (x y : Binary F) : Decidable (x ≤ y) := inferInstanceAs (Decidable (_ = _))

/-- The larger of two numbers; a NaN gives way to a number. -/
def max (x y : Binary F) : Binary F :=
  if x.isNaN then y else if x < y then y else x

/-- The smaller of two numbers; a NaN gives way to a number. -/
def min (x y : Binary F) : Binary F :=
  if x.isNaN then y else if y < x then y else x

/-- The point of `[low, high]` nearest to `x`; a NaN stays. -/
def clamp (x low high : Binary F) : Binary F :=
  if x < low then low else if high < x then high else x

/-- The exact value without its fraction, if there is a value. -/
def truncate? : Binary F → Option Int
  | finite s m _ => some (signed s (m / twoPow F.fraction))
  | _ => none

/-- The nearest number of another format. -/
def convert {G : Format} : Binary F → Binary G
  | nan => nan
  | infinity s => infinity s
  | finite s m _ => round s (m * twoPow G.fraction) (twoPow F.fraction)

/-- The next smaller magnitude of a finite number. -/
def shrink : Binary F → Binary F
  | finite s m _ => round s (m - F.spacing (m - 1)) 1
  | x => x

end Binary
end CallEvolution
