import CallEvolution.Number.Power

/-!
Binary floating-point formats. The finite magnitudes of a format are the natural numbers, counted
in units of its least positive value, that have at most `digits` significant bits and lie below
`twoPow top`. Main statement: rounding to the spacing around a ratio gives a representable magnitude
or one that is too large (`spacing_dvd_nearest`).
-/

namespace CallEvolution

/-- A format whose value one is `twoPow fraction` units. -/
structure Format where
  digits : Nat
  fraction : Nat
  top : Nat
  digits_pos : 0 < digits := by decide
  deriving DecidableEq

namespace Format

/-- The 32-bit format. -/
def single : Format := { digits := 24, fraction := 149, top := 277 }

/-- The 64-bit format. -/
def double : Format := { digits := 53, fraction := 1074, top := 2098 }

/-- The distance of neighbouring magnitudes around `m`. -/
def spacing (F : Format) (m : Nat) : Nat := twoPow (m.log2 + 1 - F.digits)

/-- At most `digits` significant bits, and in range. -/
def Representable (F : Format) (m : Nat) : Prop := F.spacing m ∣ m ∧ m < twoPow F.top

instance (F : Format) (m : Nat) : Decidable (F.Representable m) :=
  inferInstanceAs (Decidable (_ ∧ _))

theorem spacing_pos (F : Format) (m : Nat) : 0 < F.spacing m := twoPow_pos _

end Format

/-- The natural number nearest to `num / den`; a half goes to the even neighbour. -/
def nearest (num den : Nat) : Nat :=
  let q := num / den
  let r := num % den
  if 2 * r < den then q
  else if den < 2 * r then q + 1
  else if q % 2 = 0 then q else q + 1

theorem nearest_le_succ (num den : Nat) : nearest num den ≤ num / den + 1 := by
  simp only [nearest]
  split
  · omega
  · split
    · omega
    · split <;> omega

theorem le_nearest (num den : Nat) : num / den ≤ nearest num den := by
  simp only [nearest]
  split
  · omega
  · split
    · omega
    · split <;> omega

namespace Format

/-- A multiple of a power of two that has at most `digits` bits above it is a multiple of its own
spacing. -/
theorem spacing_dvd_mul (F : Format) {n k : Nat} (h : n ≤ twoPow F.digits) :
    F.spacing (n * twoPow k) ∣ n * twoPow k := by
  rcases Nat.eq_zero_or_pos n with rfl | hn
  · simp
  have hpos : n * twoPow k ≠ 0 := Nat.mul_ne_zero (by omega) (Nat.pos_iff_ne_zero.1 (twoPow_pos k))
  rcases Nat.lt_or_eq_of_le h with hlt | rfl
  · have hlog : (n * twoPow k).log2 < F.digits + k := by
      rw [log2_lt_iff hpos, twoPow_add]
      exact Nat.mul_lt_mul_of_pos_right hlt (twoPow_pos k)
    exact Nat.dvd_trans (twoPow_dvd (by omega)) (Nat.dvd_mul_left ..)
  · rw [spacing, ← twoPow_add, log2_twoPow]
    exact twoPow_dvd (by have := F.digits_pos; omega)

theorem spacing_dvd_nearest (F : Format) (num den : Nat) :
    F.spacing (nearest num (den * F.spacing (num / den)) * F.spacing (num / den)) ∣
      nearest num (den * F.spacing (num / den)) * F.spacing (num / den) := by
  refine F.spacing_dvd_mul (Nat.le_trans (nearest_le_succ _ _) (Nat.succ_le_of_lt ?_))
  rw [← Nat.div_div_eq_div_mul, Nat.div_lt_iff_lt_mul (F.spacing_pos _), spacing, ← twoPow_add]
  exact Nat.lt_of_lt_of_le (lt_twoPow_log2 _) (twoPow_le (by omega))

end Format
end CallEvolution
