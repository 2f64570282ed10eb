import CallEvolution.Number.Binary
import Mathlib.Algebra.Order.Field.Rat
import Mathlib.Data.Nat.Cast.Order.Field
import Mathlib.Tactic.Linarith
import Mathlib.Tactic.FieldSimp
import Mathlib.Tactic.Ring

/-! Rounding of magnitudes. What is rounded stays on its side of every representable magnitude, and is
moved by half a spacing at most. -/

namespace CallEvolution

variable {num num' den n : Nat}

theorem nearest_le_of_le (h : num ≤ n * den) : nearest num den ≤ n := by
  rcases Nat.eq_zero_or_pos den with rfl | hden
  · have hzero : num = 0 := by simpa using h
    simp [nearest, hzero]
  · by_cases heq : num / den = n
    · have hexact : num % den = 0 := by
        have hdiv := Nat.div_add_mod num den
        rw [heq, Nat.mul_comm] at hdiv
        omega
      simp [nearest, hexact, hden, heq]
    · have hle : num / den ≤ n := Nat.div_le_of_le_mul (by rwa [Nat.mul_comm])
      have hsucc := nearest_le_succ num den
      omega

theorem le_nearest_of_le (hden : 0 < den) (h : n * den ≤ num) : n ≤ nearest num den :=
  ((Nat.le_div_iff_mul_le hden).mpr h).trans (le_nearest num den)

theorem nearest_mono (h : num ≤ num') : nearest num den ≤ nearest num' den := by
  have hdiv : num / den ≤ num' / den := Nat.div_le_div_right h
  by_cases heq : num / den = num' / den
  · have hmod : num % den ≤ num' % den := by
      have h₁ := Nat.div_add_mod num den
      have h₂ := Nat.div_add_mod num' den
      rw [heq] at h₁
      omega
    unfold nearest
    simp only [heq]
    split_ifs <;> omega
  · have h₁ := nearest_le_succ num den
    have h₂ := le_nearest num' den
    omega

/-- What is rounded is moved by one half at most. -/
theorem nearest_near (num : Nat) (hden : 0 < den) :
    2 * (nearest num den * den) ≤ 2 * num + den ∧ 2 * num ≤ 2 * (nearest num den * den) + den := by
  have hdiv := Nat.div_add_mod num den
  rw [Nat.mul_comm] at hdiv
  have hsucc : (num / den + 1) * den = num / den * den + den := Nat.succ_mul _ _
  have hlt := Nat.mod_lt num hden
  unfold nearest
  simp only
  split_ifs
  · omega
  · rw [hsucc]
    omega
  · omega
  · rw [hsucc]
    omega

namespace Format

variable {F : Format} {m p : Nat}

theorem spacing_dvd_spacing (h : m ≤ p) : F.spacing m ∣ F.spacing p := by
  rcases Nat.eq_zero_or_pos m with rfl | hm
  · refine twoPow_dvd ?_
    rw [Nat.log2_zero]
    have := F.digits_pos
    omega
  · have hlog : m.log2 ≤ p.log2 := (Nat.le_log2 (by omega)).mpr ((Nat.log2_self_le (by omega)).trans h)
    exact twoPow_dvd (by omega)

theorem spacing_mono (h : m ≤ p) : F.spacing m ≤ F.spacing p :=
  Nat.le_of_dvd (F.spacing_pos p) (spacing_dvd_spacing h)

/-- Behind a magnitude the next one is a spacing away. -/
theorem add_spacing_le (hm : F.spacing m ∣ m) (hp : F.spacing p ∣ p) (h : m < p) :
    m + F.spacing m ≤ p := by
  obtain ⟨k, hk⟩ := hm
  obtain ⟨j, hj⟩ := (spacing_dvd_spacing h.le).trans hp
  have hkj : k < j := by
    by_contra hnot
    have hmul : F.spacing m * j ≤ F.spacing m * k := Nat.mul_le_mul_left _ (by omega)
    omega
  have hmul : F.spacing m * (k + 1) ≤ F.spacing m * j := Nat.mul_le_mul_left _ hkj
  rw [Nat.mul_succ] at hmul
  omega

/-- The magnitude that a ratio is rounded to. -/
def rounded (F : Format) (num den : Nat) : Nat :=
  nearest num (den * F.spacing (num / den)) * F.spacing (num / den)

theorem spacing_dvd_rounded (F : Format) (num den : Nat) :
    F.spacing (F.rounded num den) ∣ F.rounded num den := F.spacing_dvd_nearest num den

theorem rounded_le (hm : F.spacing m ∣ m) (h : num ≤ m * den) : F.rounded num den ≤ m := by
  have hquotient : num / den ≤ m := Nat.div_le_of_le_mul (by rwa [Nat.mul_comm])
  obtain ⟨k, hk⟩ := (spacing_dvd_spacing hquotient).trans hm
  have hnearest : nearest num (den * F.spacing (num / den)) ≤ k := by
    refine nearest_le_of_le (h.trans_eq ?_)
    nth_rewrite 1 [hk]
    ring
  calc F.rounded num den ≤ k * F.spacing (num / den) := Nat.mul_le_mul_right _ hnearest
    _ = m := by rw [Nat.mul_comm, ← hk]

theorem le_rounded_of_spacing_dvd (hden : 0 < den) (hm : F.spacing (num / den) ∣ m)
    (h : m * den ≤ num) : m ≤ F.rounded num den := by
  obtain ⟨k, hk⟩ := hm
  have hnearest : k ≤ nearest num (den * F.spacing (num / den)) := by
    refine le_nearest_of_le (Nat.mul_pos hden (F.spacing_pos _)) (Nat.le_trans (Nat.le_of_eq ?_) h)
    rw [hk]
    ring
  calc m = k * F.spacing (num / den) := by rw [Nat.mul_comm, ← hk]
    _ ≤ F.rounded num den := Nat.mul_le_mul_right _ hnearest

theorem le_rounded (hden : 0 < den) (hm : F.spacing m ∣ m) (h : m * den ≤ num) :
    m ≤ F.rounded num den := by
  have hquotient : m ≤ num / den := (Nat.le_div_iff_mul_le hden).mpr h
  rcases Nat.eq_zero_or_pos m with rfl | hpos
  · exact Nat.zero_le _
  · have hlog : m.log2 ≤ (num / den).log2 :=
      (Nat.le_log2 (by omega)).mpr ((Nat.log2_self_le (by omega)).trans hquotient)
    by_cases hsame : m.log2 = (num / den).log2
    · refine le_rounded_of_spacing_dvd hden ?_ h
      rwa [spacing, ← hsame]
    · -- a power of two lies between them, and every such power is representable
      have hbelow : m ≤ twoPow (num / den).log2 := by
        have hlt := lt_twoPow_log2 m
        have hle : twoPow (m.log2 + 1) ≤ twoPow (num / den).log2 := twoPow_le (by omega)
        omega
      have hpower : twoPow (num / den).log2 ≤ num / den := Nat.log2_self_le (by omega)
      refine hbelow.trans (le_rounded_of_spacing_dvd hden (twoPow_dvd ?_) ?_)
      · have := F.digits_pos
        omega
      · exact (Nat.le_div_iff_mul_le hden).mp hpower

theorem rounded_mul_self (hden : 0 < den) (hm : F.spacing m ∣ m) : F.rounded (m * den) den = m :=
  Nat.le_antisymm (rounded_le hm (Nat.le_refl _)) (le_rounded hden hm (Nat.le_refl _))

theorem rounded_one (hm : F.spacing m ∣ m) : F.rounded m 1 = m := by
  simpa using rounded_mul_self (F := F) Nat.one_pos hm

theorem rounded_mono (hden : 0 < den) (h : num ≤ num') : F.rounded num den ≤ F.rounded num' den := by
  by_cases hsame : F.spacing (num / den) = F.spacing (num' / den)
  · rw [rounded, rounded, ← hsame]
    exact Nat.mul_le_mul_right _ (nearest_mono h)
  · have hdiv : num / den ≤ num' / den := Nat.div_le_div_right h
    have hlog : (num / den).log2 < (num' / den).log2 := by
      by_contra hnot
      have hle : F.spacing (num' / den) ≤ F.spacing (num / den) := twoPow_le (by omega)
      exact hsame (Nat.le_antisymm (spacing_mono hdiv) hle)
    have hpos : num' / den ≠ 0 := by
      intro hzero
      rw [hzero, Nat.log2_zero] at hlog
      omega
    -- a power of two lies between the ratios
    have hpower : F.spacing (twoPow (num' / den).log2) ∣ twoPow (num' / den).log2 := by
      rw [spacing, log2_twoPow]
      exact twoPow_dvd (by have := F.digits_pos; omega)
    have habove : twoPow (num' / den).log2 * den ≤ num' :=
      (Nat.le_div_iff_mul_le hden).mp (Nat.log2_self_le hpos)
    have hbelow : num ≤ twoPow (num' / den).log2 * den := by
      have hlt := lt_twoPow_log2 (num / den)
      have hle : twoPow ((num / den).log2 + 1) ≤ twoPow (num' / den).log2 := twoPow_le (by omega)
      exact (Nat.div_lt_iff_lt_mul hden).mp (by omega) |>.le
    exact (rounded_le hpower hbelow).trans (le_rounded hden hpower habove)

/-- What is rounded is moved by half a spacing at most. -/
theorem rounded_near (F : Format) (num : Nat) (hden : 0 < den) :
    2 * (F.rounded num den * den) ≤ 2 * num + den * F.spacing (num / den) ∧
      2 * num ≤ 2 * (F.rounded num den * den) + den * F.spacing (num / den) := by
  have hnear := nearest_near num (Nat.mul_pos hden (F.spacing_pos (num / den)))
  have hassoc : nearest num (den * F.spacing (num / den)) * (den * F.spacing (num / den)) =
      F.rounded num den * den := by
    rw [rounded]
    ring
  rwa [hassoc] at hnear

/-- What is closer to a magnitude than to the next one is not rounded up behind it. -/
theorem rounded_le_of_lt (hden : 0 < den) (hm : F.spacing m ∣ m)
    (h : 2 * num + den * F.spacing (num / den) < 2 * ((m + F.spacing m) * den)) :
    F.rounded num den ≤ m := by
  by_contra hnot
  have hgap := add_spacing_le hm (F.spacing_dvd_rounded num den) (by omega)
  have hmul : (m + F.spacing m) * den ≤ F.rounded num den * den := Nat.mul_le_mul_right _ hgap
  have hnear := (F.rounded_near num hden).1
  omega

/-- The spacing is the part of a magnitude that its digits leave open, or one unit. -/
theorem spacing_mul_le (F : Format) (m : Nat) : F.spacing m * twoPow F.digits ≤ 2 * m + twoPow F.digits := by
  rcases Nat.eq_zero_or_pos m with rfl | hm
  · have hone : F.spacing 0 = 1 := by
      have := F.digits_pos
      rw [spacing, Nat.log2_zero, Nat.sub_eq_zero_of_le (by omega)]
      rfl
    rw [hone]
    omega
  · by_cases hsmall : m.log2 + 1 ≤ F.digits
    · rw [spacing, Nat.sub_eq_zero_of_le hsmall]
      change 1 * _ ≤ _
      omega
    · have hpower : F.spacing m * twoPow F.digits = 2 * twoPow m.log2 := by
        rw [spacing, ← twoPow_add, Nat.sub_add_cancel (by omega), Nat.add_comm, twoPow_add]
        rfl
      have hle : twoPow m.log2 ≤ m := Nat.log2_self_le (by omega)
      omega

/-- A ratio grows by a part of itself at most when it is rounded, and by half a unit. -/
theorem rounded_le_add (F : Format) (num : Nat) (hden : 0 < den) :
    (F.rounded num den : Rat) ≤ num / den * (1 + 1 / twoPow F.digits) + 1 / 2 := by
  have hnear := (F.rounded_near num hden).1
  have hspacing := F.spacing_mul_le (num / den)
  have hquotient : (((num / den : Nat) : Rat)) ≤ num / den := Nat.cast_div_le
  have hdigits : (0 : Rat) < twoPow F.digits := by exact_mod_cast twoPow_pos F.digits
  have hden' : (0 : Rat) < den := by exact_mod_cast hden
  have hspacing' : (F.spacing (num / den) : Rat) ≤ 2 * (num / den) / twoPow F.digits + 1 := by
    have hcast : (F.spacing (num / den) : Rat) * twoPow F.digits ≤
        2 * ((num / den : Nat) : Rat) + twoPow F.digits := by exact_mod_cast hspacing
    rw [div_add_one hdigits.ne', le_div_iff₀ hdigits]
    linarith
  have hnear' : (F.rounded num den : Rat) ≤ num / den + F.spacing (num / den) / 2 := by
    have hcast : 2 * ((F.rounded num den : Rat) * den) ≤ 2 * num + den * F.spacing (num / den) := by
      exact_mod_cast hnear
    rw [div_add_div _ _ hden'.ne' two_ne_zero, le_div_iff₀ (by positivity)]
    linarith
  calc (F.rounded num den : Rat) ≤ num / den + F.spacing (num / den) / 2 := hnear'
    _ ≤ num / den + (2 * (num / den) / twoPow F.digits + 1) / 2 := by linarith
    _ = num / den * (1 + 1 / twoPow F.digits) + 1 / 2 := by ring

end Format
end CallEvolution
