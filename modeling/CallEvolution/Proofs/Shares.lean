import CallEvolution.Proofs.Magnitudes

/-! Chances that are raised. A share of what is left of one is added to a part of one, and the sum is rounded
four times on the way: it exceeds one by its last digit at most, and not at all unless the share is whole. -/

namespace CallEvolution

namespace Format

variable {F : Format} {m n w : Nat}

/-- Has a format some digits, and more places behind the point than those digits need? -/
structure IsWide (F : Format) : Prop where
  digits_ge : 3 ≤ F.digits
  fraction_ge : F.digits + 3 ≤ F.fraction
  top_gt : F.fraction + 1 < F.top

theorem isWide_double : double.IsWide := ⟨by decide, by decide, by decide⟩

/-- The units of the number one. -/
def one (F : Format) : Nat := twoPow F.fraction

/-- The last digit of the number one, in units. -/
def lastDigit (F : Format) : Nat := F.spacing F.one

theorem one_pos (F : Format) : 0 < F.one := twoPow_pos _

theorem one_lt_top (hF : F.IsWide) : F.one < twoPow F.top :=
  Nat.pow_lt_pow_right (by decide) (by have := hF.top_gt; omega)

theorem lastDigit_eq (F : Format) : F.lastDigit = twoPow (F.fraction + 1 - F.digits) := by
  rw [lastDigit, spacing, one, log2_twoPow]

theorem one_eq (hF : F.IsWide) : F.one = twoPow (F.digits - 1) * F.lastDigit := by
  have hdigits := F.digits_pos
  have hfraction := hF.fraction_ge
  rw [lastDigit_eq, one, ← twoPow_add]
  congr 1
  omega

theorem spacing_dvd_one (hF : F.IsWide) : F.spacing F.one ∣ F.one :=
  ⟨twoPow (F.digits - 1), (one_eq hF).trans (Nat.mul_comm _ _)⟩

theorem spacing_le_lastDigit (h : m < 2 * F.one) : F.spacing m ≤ F.lastDigit := by
  rw [lastDigit_eq]
  rcases Nat.eq_zero_or_pos m with rfl | hm
  · refine twoPow_le ?_
    rw [Nat.log2_zero]
    omega
  · have hlog : m.log2 < 1 + F.fraction := by
      rw [log2_lt_iff (by omega), twoPow_add]
      exact h
    exact twoPow_le (by omega)

theorem two_mul_spacing_le (hF : F.IsWide) (h : m < F.one) :
    2 * F.spacing m ≤ F.lastDigit := by
  have hfraction := hF.fraction_ge
  have hlog : m.log2 + 1 ≤ F.fraction := by
    rcases Nat.eq_zero_or_pos m with rfl | hm
    · rw [Nat.log2_zero]
      omega
    · exact (log2_lt_iff (by omega)).mpr h
  have htwo : 2 * F.spacing m = twoPow (1 + (m.log2 + 1 - F.digits)) := (twoPow_add 1 _).symm
  rw [htwo, lastDigit_eq]
  exact twoPow_le (by omega)

/-- Whole numbers are representable as long as they have no more digits than the format. -/
theorem rounded_whole (h : n ≤ twoPow F.digits) : F.rounded (n * F.one) 1 = n * F.one :=
  rounded_one (F.spacing_dvd_mul h)

theorem spacing_dvd_twoPow_mul_one (F : Format) (k : Nat) :
    F.spacing (twoPow k * F.one) ∣ twoPow k * F.one := by
  have hpower : twoPow k * F.one = 1 * twoPow (k + F.fraction) := by
    rw [one, ← twoPow_add, Nat.one_mul]
  rw [hpower]
  exact F.spacing_dvd_mul (twoPow_pos _)

theorem twoPow_mul_one_lt_top {k : Nat} (h : k + F.fraction < F.top) : twoPow k * F.one < twoPow F.top := by
  calc twoPow k * F.one = twoPow (k + F.fraction) := (twoPow_add k _).symm
    _ < twoPow F.top := Nat.pow_lt_pow_right (by decide) h

/-- What is left of one without a part, and that part, exceed one by a quarter of its last digit. -/
theorem rounded_rest (hF : F.IsWide) (h : m ≤ F.one) :
    F.rounded (F.one - m) 1 ≤ F.one ∧
      4 * (m + F.rounded (F.one - m) 1) ≤ 4 * F.one + F.lastDigit := by
  have hone := F.one_pos
  refine ⟨rounded_le (spacing_dvd_one hF) (by omega), ?_⟩
  rcases Nat.eq_zero_or_pos m with rfl | hm
  · rw [Nat.sub_zero, rounded_one (spacing_dvd_one hF)]
    omega
  · have hnear := (F.rounded_near (F.one - m) Nat.one_pos).1
    have hspacing : 2 * F.spacing (F.one - m) ≤ F.lastDigit := two_mul_spacing_le hF (by omega)
    rw [Nat.div_one] at hnear
    omega

/-- A product that is divided is rounded twice. -/
theorem rounded_share (hone : F.one ≤ n) :
    (F.rounded (F.rounded (w * m) F.one * F.one) n : Rat) ≤
      w * (m / n) * (1 + 1 / twoPow F.digits) ^ 2 + 2 := by
  have hpos := F.one_pos
  have hone' : (0 : Rat) < F.one := by exact_mod_cast hpos
  have hn : (0 : Rat) < n := by exact_mod_cast hpos.trans_le hone
  have hproduct := F.rounded_le_add (w * m) hpos
  have hquotient := F.rounded_le_add (F.rounded (w * m) F.one * F.one) (hpos.trans_le hone)
  generalize F.rounded (w * m) F.one = a at hproduct hquotient ⊢
  generalize hu : (1 : Rat) + 1 / twoPow F.digits = u at hproduct hquotient ⊢
  have hdigits : (1 : Rat) ≤ twoPow F.digits := by exact_mod_cast twoPow_pos F.digits
  have hu₁ : 0 < u := by rw [← hu]; positivity
  have hu₂ : u ≤ 2 := by
    rw [← hu]
    have hinv : 1 / (twoPow F.digits : Rat) ≤ 1 / 1 := one_div_le_one_div_of_le zero_lt_one hdigits
    linarith
  have hratio : (F.one : Rat) / n ≤ 1 := by
    rw [div_le_one hn]
    exact_mod_cast hone
  have ha : (a : Rat) * F.one / n ≤ w * (m / n) * u + 1 / 2 := by
    calc (a : Rat) * F.one / n
        ≤ ((w * m : Nat) / F.one * u + 1 / 2) * F.one / n := by gcongr
      _ = w * (m / n) * u + 1 / 2 * (F.one / n) := by
          push_cast
          field_simp
      _ ≤ w * (m / n) * u + 1 / 2 := by linarith
  push_cast at hquotient
  calc _ ≤ (a : Rat) * F.one / n * u + 1 / 2 := hquotient
    _ ≤ (w * (m / n) * u + 1 / 2) * u + 1 / 2 := by gcongr
    _ = w * (m / n) * u ^ 2 + (u / 2 + 1 / 2) := by ring
    _ ≤ w * (m / n) * u ^ 2 + 2 := by linarith

theorem sixteen_le_lastDigit (hF : F.IsWide) : 16 ≤ F.lastDigit := by
  have hfraction := hF.fraction_ge
  rw [lastDigit_eq]
  exact twoPow_le (j := 4) (by omega)

theorem four_mul_lastDigit_le (hF : F.IsWide) : 4 * F.lastDigit ≤ F.one := by
  have hdigits := hF.digits_ge
  have hpower : twoPow 2 ≤ twoPow (F.digits - 1) := twoPow_le (by omega)
  rw [one_eq hF]
  exact Nat.mul_le_mul_right _ hpower

theorem spacing_aboveOne (hF : F.IsWide) : F.spacing (F.one + F.lastDigit) = F.lastDigit := by
  have hone := F.one_pos
  have hdigit := four_mul_lastDigit_le hF
  exact Nat.le_antisymm (spacing_le_lastDigit (by omega)) (spacing_mono (Nat.le_add_right _ _))

theorem spacing_dvd_aboveOne (hF : F.IsWide) :
    F.spacing (F.one + F.lastDigit) ∣ F.one + F.lastDigit := by
  rw [spacing_aboveOne hF]
  exact Nat.dvd_add (spacing_dvd_one hF) (Nat.dvd_refl _)

theorem aboveOne_lt_top (hF : F.IsWide) : F.one + F.lastDigit < twoPow F.top := by
  have hdigit := four_mul_lastDigit_le hF
  have hpos := F.one_pos
  have hdouble : 2 * F.one = twoPow (1 + F.fraction) := (twoPow_add 1 F.fraction).symm
  have hle : twoPow (1 + F.fraction) ≤ twoPow F.top := twoPow_le (by have := hF.top_gt; omega)
  omega

theorem rounded_le_one (hF : F.IsWide) (h : 2 * n < 2 * F.one + F.lastDigit) :
    F.rounded n 1 ≤ F.one := by
  have hdigit := four_mul_lastDigit_le hF
  have hspacing : F.spacing n ≤ F.lastDigit := spacing_le_lastDigit (by omega)
  refine rounded_le_of_lt Nat.one_pos (spacing_dvd_one hF) ?_
  rw [Nat.div_one, ← lastDigit]
  omega

theorem rounded_le_aboveOne (hF : F.IsWide) (h : 2 * n < 2 * F.one + 3 * F.lastDigit) :
    F.rounded n 1 ≤ F.one + F.lastDigit := by
  have hdigit := four_mul_lastDigit_le hF
  have hspacing : F.spacing n ≤ F.lastDigit := spacing_le_lastDigit (by omega)
  refine rounded_le_of_lt Nat.one_pos ?_ ?_
  · exact spacing_dvd_aboveOne hF
  · rw [Nat.div_one, spacing_aboveOne hF]
    omega

/-- The part of one that is added to another part, as it comes out of four roundings. -/
def raised (F : Format) (base part whole : Nat) : Nat :=
  base + F.rounded (F.rounded (F.rounded (F.one - base) 1 * part) F.one * F.one) whole

variable {base part whole : Nat}

theorem raised_le (hF : F.IsWide) (part : Nat) (hbase : base ≤ F.one) (hone : F.one ≤ whole) :
    (F.raised base part whole : Rat) ≤ F.one + F.lastDigit / 4 + 2 +
      F.rounded (F.one - base) 1 * ((part / whole) * (1 + 1 / twoPow F.digits) ^ 2 - 1) := by
  have hrest := (rounded_rest hF hbase).2
  have hshare := rounded_share (F := F) (w := F.rounded (F.one - base) 1) (m := part) hone
  have hrest' : (base : Rat) + F.rounded (F.one - base) 1 ≤ F.one + F.lastDigit / 4 := by
    have hcast : 4 * ((base : Rat) + F.rounded (F.one - base) 1) ≤ 4 * F.one + F.lastDigit := by
      exact_mod_cast hrest
    linarith
  rw [raised, Nat.cast_add]
  linarith

/-- A share of what is left raises a part by no more than what is left, if it is small enough. -/
theorem rounded_raised_le_one (hF : F.IsWide) (hbase : base ≤ F.one) (hone : F.one ≤ whole)
    (hshare : (part / whole : Rat) * (1 + 1 / twoPow F.digits) ^ 2 ≤ 1) :
    F.rounded (F.raised base part whole) 1 ≤ F.one := by
  have hraised := raised_le hF part hbase hone
  have hdigit : (16 : Rat) ≤ F.lastDigit := by exact_mod_cast sixteen_le_lastDigit hF
  have hnone : (F.rounded (F.one - base) 1 : Rat) *
      ((part / whole) * (1 + 1 / twoPow F.digits) ^ 2 - 1) ≤ 0 :=
    mul_nonpos_of_nonneg_of_nonpos (Nat.cast_nonneg _) (by linarith)
  have hlt : (2 * F.raised base part whole : Rat) < 2 * F.one + F.lastDigit := by linarith
  exact rounded_le_one hF (by exact_mod_cast hlt)

/-- A share of what is left raises a part by one digit more than what is left at most. -/
theorem rounded_raised_le_aboveOne (hF : F.IsWide) (hbase : base ≤ F.one) (hone : F.one ≤ whole)
    (hpart : part ≤ whole) :
    F.rounded (F.raised base part whole) 1 ≤ F.one + F.lastDigit := by
  have hraised := raised_le hF part hbase hone
  have hrest : (F.rounded (F.one - base) 1 : Rat) ≤ F.one := by
    exact_mod_cast (rounded_rest hF hbase).1
  have hdigit : (16 : Rat) ≤ F.lastDigit := by exact_mod_cast sixteen_le_lastDigit hF
  have hshare : (part / whole : Rat) ≤ 1 := by
    have hwhole : (0 : Rat) < whole := by exact_mod_cast F.one_pos.trans_le hone
    rw [div_le_one hwhole]
    exact_mod_cast hpart
  have hdigits : (8 : Rat) ≤ twoPow F.digits := by exact_mod_cast twoPow_le (j := 3) hF.digits_ge
  have hone' : (F.one : Rat) = twoPow F.digits * F.lastDigit / 2 := by
    have hdouble : twoPow F.digits = 2 * twoPow (F.digits - 1) := by
      have hsum := twoPow_add 1 (F.digits - 1)
      rw [Nat.add_sub_cancel' (by have := hF.digits_ge; omega)] at hsum
      exact hsum
    rw [one_eq hF, hdouble]
    push_cast
    ring
  generalize hu : 1 / (twoPow F.digits : Rat) = u at hraised
  have hu₀ : 0 < u := by rw [← hu]; positivity
  have hu₁ : u ≤ 1 / 8 := by
    rw [← hu]
    exact one_div_le_one_div_of_le (by norm_num) hdigits
  have hexcess : (F.rounded (F.one - base) 1 : Rat) * ((part / whole) * (1 + u) ^ 2 - 1) ≤
      F.lastDigit * (1 + u / 2) := by
    calc (F.rounded (F.one - base) 1 : Rat) * ((part / whole) * (1 + u) ^ 2 - 1)
        ≤ F.rounded (F.one - base) 1 * (1 * (1 + u) ^ 2 - 1) := by gcongr
      _ ≤ F.one * (1 * (1 + u) ^ 2 - 1) := by
          have hpos : 0 ≤ 1 * (1 + u) ^ 2 - 1 := by ring_nf; positivity
          gcongr
      _ = F.lastDigit * (1 + u / 2) := by
          rw [hone', ← hu]
          field_simp
          ring
  have hsmall : (F.lastDigit : Rat) * (u / 2) ≤ F.lastDigit / 16 := by nlinarith
  have hlt : (2 * F.raised base part whole : Rat) < 2 * F.one + 3 * F.lastDigit := by
    linarith
  exact rounded_le_aboveOne hF (by exact_mod_cast hlt)

/-- One part less than the whole is small enough, if the whole has no more digits than the format. -/
theorem share_le_one (hF : F.IsWide) (hpart : m < n) (hn : n ≤ twoPow (F.digits - 1)) :
    ((m * F.one : Nat) / (n * F.one : Nat) : Rat) * (1 + 1 / twoPow F.digits) ^ 2 ≤ 1 := by
  have hone : (0 : Rat) < F.one := by exact_mod_cast F.one_pos
  have hpos : (0 : Rat) < n := by exact_mod_cast (Nat.zero_le m).trans_lt hpart
  have hdigits : (0 : Rat) < twoPow F.digits := by exact_mod_cast twoPow_pos F.digits
  have hratio : ((m * F.one : Nat) / (n * F.one : Nat) : Rat) = m / n := by
    push_cast
    exact mul_div_mul_right _ _ hone.ne'
  have hm : (m : Rat) ≤ n - 1 := by
    have hcast : (m : Rat) + 1 ≤ n := by exact_mod_cast hpart
    linarith
  generalize hu : 1 / (twoPow F.digits : Rat) = u
  have hu₀ : 0 < u := by rw [← hu]; positivity
  have hwhole : (n : Rat) * (2 * u) ≤ 1 := by
    have hdouble : 2 * n ≤ twoPow F.digits := by
      have hsum := twoPow_add 1 (F.digits - 1)
      rw [Nat.add_sub_cancel' (by have := hF.digits_ge; omega)] at hsum
      exact hsum ▸ Nat.mul_le_mul_left 2 hn
    have hcast : 2 * (n : Rat) ≤ twoPow F.digits := by exact_mod_cast hdouble
    rw [← hu, mul_one_div, mul_div_assoc', div_le_one hdigits]
    linarith
  rw [hratio, div_mul_eq_mul_div, div_le_one hpos]
  calc (m : Rat) * (1 + u) ^ 2 ≤ (n - 1) * (1 + u) ^ 2 := by gcongr
    _ = n + n * (2 * u) * (1 + u / 2) - (1 + u) ^ 2 := by ring
    _ ≤ n + 1 * (1 + u / 2) - (1 + u) ^ 2 := by gcongr
    _ ≤ n := by nlinarith

end Format

namespace Binary

open Format

variable {F : Format} {x y z : Binary F} {base part whole n : Nat}

theorem hasUnits_one (hF : F.IsWide) : (1 : Binary F).HasUnits F.one := by
  have hunits : F.rounded (1 * twoPow F.fraction) 1 = F.one := by
    rw [Nat.one_mul]
    exact rounded_one (spacing_dvd_one hF)
  have htop : F.rounded (1 * twoPow F.fraction) 1 < twoPow F.top := by
    rw [hunits]
    exact one_lt_top hF
  have hone := hasUnits_ofInt htop
  rw [hunits] at hone
  exact hone

theorem hasUnits_whole {k : Nat} (hn : n ≤ twoPow k) (htop : k + F.fraction < F.top) :
    (ofInt n : Binary F).HasUnits (F.rounded (n * F.one) 1) := by
  refine hasUnits_ofInt ?_
  have hle : F.rounded (n * F.one) 1 ≤ twoPow k * F.one := by
    refine rounded_le (F.spacing_dvd_twoPow_mul_one k) ?_
    rw [Nat.mul_one]
    exact Nat.mul_le_mul_right _ hn
  exact hle.trans_lt (twoPow_mul_one_lt_top htop)

/-- The least number above one. -/
def aboveOne (F : Format) : Binary F :=
  ofRatio (twoPow (F.digits - 1) + 1 : Nat) (twoPow (F.digits - 1))

theorem hasUnits_aboveOne (hF : F.IsWide) : (aboveOne F).HasUnits (F.one + F.lastDigit) := by
  have hpos := twoPow_pos (F.digits - 1)
  have hunits : F.rounded ((twoPow (F.digits - 1) + 1) * twoPow F.fraction) (twoPow (F.digits - 1)) =
      F.one + F.lastDigit := by
    have hscale : (twoPow (F.digits - 1) + 1) * twoPow F.fraction =
        (F.one + F.lastDigit) * twoPow (F.digits - 1) := by
      change (twoPow (F.digits - 1) + 1) * F.one = _
      rw [one_eq hF]
      ring
    rw [hscale]
    exact rounded_mul_self hpos (spacing_dvd_aboveOne hF)
  rw [aboveOne, ofRatio]
  have hsign : decide (((twoPow (F.digits - 1) + 1 : Nat) : Int) < 0) = false := decide_eq_false (by omega)
  rw [hsign, Int.natAbs_natCast, ← hunits]
  refine hasUnits_round ?_ fun h => by cases h
  rw [hunits]
  exact aboveOne_lt_top hF

theorem HasUnits.raise (hF : F.IsWide) (hx : x.HasUnits base) (hy : y.HasUnits part)
    (hz : z.HasUnits whole) (hbase : base ≤ F.one) (hone : F.one ≤ whole) (hpart : part ≤ whole) :
    (x + (1 - x) * y / z).HasUnits (F.rounded (F.raised base part whole) 1) := by
  have hbelow := one_lt_top hF
  have hrest := (rounded_rest hF hbase).1
  have hdifference := (hasUnits_one hF).sub hx hbase (hrest.trans_lt hbelow)
  have hproduct : F.rounded (F.rounded (F.one - base) 1 * part) F.one ≤ whole := by
    refine rounded_le hz.representable.1 ?_
    rw [Nat.mul_comm whole]
    exact Nat.mul_le_mul hrest hpart
  have hquotient : F.rounded (F.rounded (F.rounded (F.one - base) 1 * part) F.one * F.one) whole ≤ F.one := by
    refine rounded_le (spacing_dvd_one hF) ?_
    rw [Nat.mul_comm F.one]
    exact Nat.mul_le_mul_right _ hproduct
  have hsum := rounded_raised_le_aboveOne hF hbase hone hpart
  have hshare := (hdifference.mul hy (hproduct.trans_lt hz.representable.2)).div hz
    (F.one_pos.trans_le hone) (hquotient.trans_lt hbelow)
  exact hx.add hshare (hsum.trans_lt (aboveOne_lt_top hF))

end Binary
end CallEvolution
