import CallEvolution.Proofs.Magnitudes

/-! The order of binary numbers. An infinite number counts as the first magnitude that is too large, so
rounding keeps the order also where it overflows. -/

namespace CallEvolution

/-- Is every number of one format a number of the other? -/
structure Format.Embeds (F G : Format) : Prop where
  digits_le : F.digits ≤ G.digits
  fraction_le : F.fraction ≤ G.fraction
  top_le : F.top + (G.fraction - F.fraction) ≤ G.top

theorem Format.embeds_single_double : Format.single.Embeds Format.double :=
  ⟨by decide, by decide, by decide⟩

theorem Format.Embeds.representable {F G : Format} (h : F.Embeds G) {m : Nat} (hm : F.Representable m) :
    G.Representable (m * twoPow (G.fraction - F.fraction)) := by
  generalize hk : G.fraction - F.fraction = k
  have hdigits := h.digits_le
  have htop := h.top_le
  rw [hk] at htop
  refine ⟨?_, ?_⟩
  · rcases Nat.eq_zero_or_pos m with rfl | hpos
    · rw [Nat.zero_mul]
      exact Nat.dvd_zero _
    · have hlog : (m * twoPow k).log2 < m.log2 + 1 + k := by
        rw [log2_lt_iff (Nat.mul_ne_zero (by omega) (Nat.pos_iff_ne_zero.mp (twoPow_pos k))), twoPow_add]
        exact Nat.mul_lt_mul_of_pos_right (lt_twoPow_log2 m) (twoPow_pos k)
      have hspacing : G.spacing (m * twoPow k) ∣ F.spacing m * twoPow k := by
        rw [Format.spacing, Format.spacing, ← twoPow_add]
        exact twoPow_dvd (by omega)
      exact hspacing.trans (Nat.mul_dvd_mul_right hm.1 _)
  · calc m * twoPow k < twoPow F.top * twoPow k := Nat.mul_lt_mul_of_pos_right hm.2 (twoPow_pos k)
      _ = twoPow (F.top + k) := (twoPow_add _ _).symm
      _ ≤ twoPow G.top := twoPow_le htop

/-- A magnitude, or the first one that is too large. -/
def Format.capped (F : Format) (m : Nat) : Nat := min m (twoPow F.top)

theorem Format.capped_of_lt {F : Format} {m : Nat} (h : m < twoPow F.top) : F.capped m = m :=
  Nat.min_eq_left (Nat.le_of_lt h)

theorem Format.capped_mono {F : Format} {m n : Nat} (h : m ≤ n) : F.capped m ≤ F.capped n :=
  min_le_min_right _ h

theorem Format.capped_zero (F : Format) : F.capped 0 = 0 := Nat.zero_min _

namespace Binary

variable {F G : Format} {x y z low high : Binary F} {m n : Nat}

/-- The place of a number on the line of units. -/
def extent : Binary F → Int
  | nan => 0
  | infinity negative => signed negative (twoPow F.top)
  | finite negative units _ => signed negative units

theorem extent_bounds (x : Binary F) : -(twoPow F.top : Int) ≤ x.extent ∧ x.extent ≤ twoPow F.top := by
  cases x with
  | nan =>
    simp only [extent]
    omega
  | infinity s => cases s <;> simp only [extent, signed, if_true, Bool.false_eq_true, if_false] <;> omega
  | finite s m h =>
    have htop := h.2
    cases s <;> simp only [extent, signed, if_true, Bool.false_eq_true, if_false] <;> omega

theorem eq_false_of_extent_infinity {s : Bool} (h : 0 ≤ (infinity s : Binary F).extent) : s = false := by
  have htop := twoPow_pos F.top
  cases s with
  | false => rfl
  | true =>
    simp only [extent, signed, if_true] at h
    omega

theorem eq_zero_of_extent_finite {k : F.Representable m} (h : 0 ≤ (finite true m k : Binary F).extent) :
    m = 0 := by
  simp only [extent, signed, if_true] at h
  omega

theorem not_isNaN_of_le (h : x ≤ y) : x.isNaN = false ∧ y.isNaN = false := by
  cases x with
  | nan => cases h
  | infinity | finite =>
    cases y with
    | nan => cases h
    | infinity | finite => exact ⟨rfl, rfl⟩

theorem le_iff_lt_or_same : x ≤ y ↔ x < y ∨ x.same y = true := Bool.or_eq_true _ _ ▸ Iff.rfl

theorem le_of_lt (h : x < y) : x ≤ y := le_iff_lt_or_same.mpr (.inl h)

theorem lt_iff_extent (hx : x.isNaN = false) (hy : y.isNaN = false) : x < y ↔ x.extent < y.extent := by
  change less x y = true ↔ _
  cases x with
  | nan => cases hx
  | infinity s =>
    cases y with
    | nan => cases hy
    | infinity t =>
      have htop := twoPow_pos F.top
      cases s <;> cases t <;> simp [less, extent, signed]
      omega
    | finite t n h =>
      have htop := h.2
      cases s <;> cases t <;> simp [less, extent, signed] <;> omega
  | finite s m h =>
    have htop := h.2
    cases y with
    | nan => cases hy
    | infinity t => cases s <;> cases t <;> simp [less, extent, signed] <;> omega
    | finite t n h' => simp only [less, extent, decide_eq_true_eq]

theorem same_iff_extent (hx : x.isNaN = false) (hy : y.isNaN = false) :
    x.same y = true ↔ x.extent = y.extent := by
  cases x with
  | nan => cases hx
  | infinity s =>
    cases y with
    | nan => cases hy
    | infinity t =>
      have htop := twoPow_pos F.top
      cases s <;> cases t <;> simp [same, extent, signed] <;> omega
    | finite t n h =>
      have htop := h.2
      cases s <;> cases t <;> simp [same, extent, signed] <;> omega
  | finite s m h =>
    have htop := h.2
    cases y with
    | nan => cases hy
    | infinity t => cases s <;> cases t <;> simp [same, extent, signed] <;> omega
    | finite t n h' => simp only [same, extent, decide_eq_true_eq]

theorem le_iff_extent (hx : x.isNaN = false) (hy : y.isNaN = false) : x ≤ y ↔ x.extent ≤ y.extent := by
  rw [le_iff_lt_or_same, lt_iff_extent hx hy, same_iff_extent hx hy]
  omega

theorem le_trans (hxy : x ≤ y) (hyz : y ≤ z) : x ≤ z := by
  obtain ⟨hx, hy⟩ := not_isNaN_of_le hxy
  obtain ⟨-, hz⟩ := not_isNaN_of_le hyz
  rw [le_iff_extent hx hy] at hxy
  rw [le_iff_extent hy hz] at hyz
  rw [le_iff_extent hx hz]
  omega

theorem le_refl_of_le (h : x ≤ y) : x ≤ x :=
  (le_iff_extent (not_isNaN_of_le h).1 (not_isNaN_of_le h).1).mpr le_rfl

theorem clamp_mem (hx : x.isNaN = false) (h : low ≤ high) :
    low ≤ x.clamp low high ∧ x.clamp low high ≤ high := by
  obtain ⟨hlow, hhigh⟩ := not_isNaN_of_le h
  have hle := (le_iff_extent hlow hhigh).mp h
  unfold clamp
  by_cases hbelow : x < low
  · rw [if_pos hbelow]
    exact ⟨le_refl_of_le h, h⟩
  · rw [if_neg hbelow]
    by_cases habove : high < x
    · rw [if_pos habove]
      exact ⟨h, (le_iff_extent hhigh hhigh).mpr le_rfl⟩
    · rw [if_neg habove, le_iff_extent hlow hx, le_iff_extent hx hhigh]
      rw [lt_iff_extent hx hlow] at hbelow
      rw [lt_iff_extent hhigh hx] at habove
      omega

theorem isNaN_round (s : Bool) (num den : Nat) : (round s num den : Binary F).isNaN = false := by
  unfold round
  simp only
  split
  · rfl
  · rfl

theorem isNaN_ofNat (n : Nat) : (OfNat.ofNat n : Binary F).isNaN = false := isNaN_round _ _ _

theorem extent_round (s : Bool) (num den : Nat) :
    (round s num den : Binary F).extent = signed s (F.capped (F.rounded num den)) := by
  unfold round
  simp only
  split
  · next h =>
    rw [Format.rounded, Format.capped_of_lt h]
    rfl
  · next h =>
    rw [Format.capped, Format.rounded, Nat.min_eq_right (Nat.le_of_not_lt h)]
    rfl

theorem signed_mono {s t : Bool} {f : Nat → Nat} (hf : ∀ {m n}, m ≤ n → f m ≤ f n) (hzero : f 0 = 0)
    (h : signed s m ≤ signed t n) : signed s (f m) ≤ signed t (f n) := by
  cases s with
  | false =>
    cases t with
    | false =>
      simp only [signed, Bool.false_eq_true, if_false, Int.ofNat_le] at h ⊢
      exact hf h
    | true =>
      simp only [signed, Bool.false_eq_true, if_false, if_true] at h ⊢
      have hm : m = 0 := by omega
      have hn : n = 0 := by omega
      rw [hm, hn, hzero]
      omega
  | true =>
    cases t with
    | false =>
      simp only [signed, Bool.false_eq_true, if_false, if_true]
      omega
    | true =>
      simp only [signed, if_true, Int.neg_le_neg_iff, Int.ofNat_le] at h ⊢
      exact hf h

theorem isNaN_convert : (x.convert : Binary G).isNaN = x.isNaN := by
  cases x with
  | nan | infinity => rfl
  | finite s m h => exact isNaN_round _ _ _

theorem extent_convert_finite (s : Bool) (h : F.Representable m) :
    ((finite s m h : Binary F).convert : Binary G).extent =
      signed s (G.capped (G.rounded (m * twoPow G.fraction) (twoPow F.fraction))) :=
  extent_round _ _ _

/-- Numbers keep their order in another format. -/
theorem convert_le (h : x ≤ y) : (x.convert : Binary G) ≤ y.convert := by
  obtain ⟨hx, hy⟩ := not_isNaN_of_le h
  rw [le_iff_extent hx hy] at h
  rw [le_iff_extent (isNaN_convert.trans hx) (isNaN_convert.trans hy)]
  have hbounds := extent_bounds (x.convert : Binary G)
  have hbounds' := extent_bounds (y.convert : Binary G)
  have htop := twoPow_pos F.top
  cases x with
  | nan => cases hx
  | infinity s =>
    cases s with
    | true => exact hbounds'.1
    | false =>
      have hy' : y.extent = twoPow F.top := le_antisymm (extent_bounds y).2 h
      cases y with
      | nan => cases hy
      | infinity t =>
        cases t with
        | false => exact le_rfl
        | true =>
          simp only [extent, signed, if_true] at hy'
          omega
      | finite t n hn =>
        have hlt := hn.2
        cases t <;> simp only [extent, signed, if_true, Bool.false_eq_true, if_false] at hy' <;> omega
  | finite s m hm =>
    cases y with
    | nan => cases hy
    | infinity t =>
      cases t with
      | false => exact hbounds.2
      | true =>
        have hlt := hm.2
        cases s <;> simp only [extent, signed, if_true, Bool.false_eq_true, if_false] at h <;> omega
    | finite t n hn =>
      rw [extent_convert_finite, extent_convert_finite]
      refine signed_mono (f := fun m => G.capped (G.rounded (m * twoPow G.fraction) (twoPow F.fraction)))
        (fun hmn => ?_) ?_ h
      · exact Format.capped_mono (Format.rounded_mono (twoPow_pos _) (Nat.mul_le_mul_right _ hmn))
      · rw [Nat.zero_mul, rounded_zero, Format.capped_zero]

/-- A finite number keeps its value in a larger format. -/
theorem convert_finite (hFG : F.Embeds G) (s : Bool) (h : F.Representable m) :
    ((finite s m h : Binary F).convert : Binary G) =
      finite s (m * twoPow (G.fraction - F.fraction)) (hFG.representable h) := by
  have hwide := hFG.representable h
  have hsplit : twoPow G.fraction = twoPow (G.fraction - F.fraction) * twoPow F.fraction := by
    rw [← twoPow_add, Nat.sub_add_cancel hFG.fraction_le]
  have hthere : G.rounded (m * twoPow G.fraction) (twoPow F.fraction) =
      m * twoPow (G.fraction - F.fraction) := by
    rw [hsplit, ← Nat.mul_assoc]
    exact Format.rounded_mul_self (twoPow_pos _) hwide.1
  have htop : G.rounded (m * twoPow G.fraction) (twoPow F.fraction) < twoPow G.top := by
    rw [hthere]
    exact hwide.2
  have hfinite : (round s (m * twoPow G.fraction) (twoPow F.fraction) : Binary G) = _ := dif_pos htop
  rw [convert, hfinite]
  congr 1

theorem isFinite_convert (hFG : F.Embeds G) (hx : x.isFinite = true) :
    (x.convert : Binary G).isFinite = true := by
  cases x with
  | nan | infinity => cases hx
  | finite s m h =>
    rw [convert_finite hFG]
    rfl

/-- A number that goes to a larger format and back is the same. -/
theorem extent_convert_convert (hFG : F.Embeds G) (x : Binary F) :
    ((x.convert : Binary G).convert : Binary F).extent = x.extent := by
  cases x with
  | nan | infinity => rfl
  | finite s m h =>
    have hsplit : twoPow G.fraction = twoPow (G.fraction - F.fraction) * twoPow F.fraction := by
      rw [← twoPow_add, Nat.sub_add_cancel hFG.fraction_le]
    have hback : F.rounded (m * twoPow (G.fraction - F.fraction) * twoPow F.fraction)
        (twoPow G.fraction) = m := by
      rw [Nat.mul_assoc, ← hsplit]
      exact Format.rounded_mul_self (twoPow_pos _) h.1
    rw [convert_finite hFG, extent_convert_finite, hback, Format.capped_of_lt h.2]
    rfl

/-- What lies between two numbers in a larger format lies between them after it is rounded, too. -/
theorem convert_between (hFG : F.Embeds G) {w : Binary G} (hlow : (low.convert : Binary G) ≤ w)
    (hhigh : w ≤ (high.convert : Binary G)) :
    low ≤ (w.convert : Binary F) ∧ (w.convert : Binary F) ≤ high := by
  have hl := (not_isNaN_of_le hlow).1
  have hh := (not_isNaN_of_le hhigh).2
  rw [isNaN_convert] at hl hh
  have hw := (not_isNaN_of_le hlow).2
  have hlow' := convert_le (G := F) hlow
  have hhigh' := convert_le (G := F) hhigh
  rw [le_iff_extent (by rwa [isNaN_convert, isNaN_convert]) (by rwa [isNaN_convert]),
    extent_convert_convert hFG] at hlow'
  rw [le_iff_extent (by rwa [isNaN_convert]) (by rwa [isNaN_convert, isNaN_convert]),
    extent_convert_convert hFG] at hhigh'
  rw [le_iff_extent hl (by rwa [isNaN_convert]), le_iff_extent (by rwa [isNaN_convert]) hh]
  exact ⟨hlow', hhigh'⟩

theorem isNaN_add (hx : x.isNaN = false) (hy : y.isFinite = true) : (x + y).isNaN = false := by
  change (Binary.add x y).isNaN = false
  cases y with
  | nan | infinity => cases hy
  | finite t n hn =>
    cases x with
    | nan => cases hx
    | infinity s => rfl
    | finite s m hm =>
      simp only [Binary.add]
      split
      · exact isNaN_round _ _ _
      · exact isNaN_round _ _ _

theorem isNaN_of_add (h : (x + y).isNaN = false) : x.isNaN = false := by
  cases x with
  | nan => cases h
  | infinity | finite => rfl

theorem isFinite_neg (h : x.isFinite = true) : (neg x).isFinite = true := by
  cases x with
  | nan | infinity => cases h
  | finite => rfl

/-- A sum is as large as one of its parts, if the other one is not negative. -/
theorem le_add_of_extent (hx : x.isNaN = false) (h : 0 ≤ x.extent) (hy : y.isFinite = true) : y ≤ x + y := by
  change y ≤ Binary.add x y
  cases y with
  | nan | infinity => cases hy
  | finite t n hn =>
    cases x with
    | nan => cases hx
    | infinity s =>
      obtain rfl := eq_false_of_extent_infinity h
      rw [le_iff_extent rfl rfl]
      exact (extent_bounds (finite t n hn)).2
    | finite s m hm =>
      have hsum : (Binary.add (finite s m hm) (finite t n hn)).isNaN = false ∧
          (Binary.add (finite s m hm) (finite t n hn)).extent =
            signed (decide (signed s m + signed t n < 0))
              (F.capped (F.rounded (signed s m + signed t n).natAbs 1)) := by
        simp only [Binary.add]
        split
        · next hzero =>
          refine ⟨isNaN_round _ _ _, ?_⟩
          rw [extent_round, hzero, Int.natAbs_zero, rounded_zero, Format.capped_zero]
          simp [signed]
        · exact ⟨isNaN_round _ _ _, extent_round _ _ _⟩
      rw [le_iff_extent rfl hsum.1, hsum.2]
      have hself : (finite t n hn : Binary F).extent =
          signed (decide (signed t n < 0)) (F.capped (F.rounded (signed t n).natAbs 1)) := by
        have habs : (signed t n).natAbs = n := by cases t <;> simp [signed]
        rw [habs, Format.rounded_one hn.1, Format.capped_of_lt hn.2]
        cases t with
        | false => simp [extent, signed]
        | true =>
          rcases Nat.eq_zero_or_pos n with rfl | hpos
          · simp [extent, signed]
          · simp [extent, signed, hpos]
      rw [hself]
      have hle : signed t n ≤ signed s m + signed t n := by
        have : 0 ≤ signed s m := h
        omega
      generalize signed s m + signed t n = sum at hle
      generalize signed t n = own at hle
      refine signed_mono (f := fun m => F.capped (F.rounded m 1)) (fun hmn => ?_) ?_ ?_
      · exact Format.capped_mono (Format.rounded_mono Nat.one_pos hmn)
      · rw [rounded_zero, Format.capped_zero]
      · simp only [signed, decide_eq_true_eq]
        split <;> split <;> omega

/-- A finite distance is one of finite numbers. -/
theorem sub_nonneg (h : low < high) (hfinite : (high - low).isFinite = true) :
    low.isFinite = true ∧ high.isFinite = true ∧ 0 ≤ (high - low).extent := by
  change (Binary.add high (neg low)).isFinite = true at hfinite
  change _ ∧ _ ∧ 0 ≤ (Binary.add high (neg low)).extent
  cases low with
  | nan => cases high <;> cases h
  | infinity s =>
    cases high with
    | nan => cases h
    | infinity t => cases s <;> cases t <;> cases hfinite
    | finite t n k => cases hfinite
  | finite s m k =>
    cases high with
    | nan => cases h
    | infinity t => cases hfinite
    | finite t n k' =>
      have hlt : signed s m < signed t n := of_decide_eq_true h
      have hneg : signed (!s) m = -signed s m := by cases s <;> simp [signed]
      refine ⟨rfl, rfl, ?_⟩
      have hpos : 0 < signed t n + signed (!s) m := by omega
      simp only [Binary.neg, Binary.add]
      rw [if_neg (by omega), extent_round, decide_eq_false (by omega)]
      exact Int.natCast_nonneg _

theorem mul_nonneg_or_nan (hx : 0 ≤ x.extent) (hy : 0 ≤ y.extent) :
    (x * y).isNaN = true ∨ 0 ≤ (x * y).extent := by
  change (Binary.mul x y).isNaN = true ∨ 0 ≤ (Binary.mul x y).extent
  cases x with
  | nan => exact .inl rfl
  | infinity s =>
    obtain rfl := eq_false_of_extent_infinity hx
    cases y with
    | nan => exact .inl rfl
    | infinity t =>
      obtain rfl := eq_false_of_extent_infinity hy
      exact .inr hx
    | finite t n k =>
      by_cases hn : n = 0
      · simp [Binary.mul, hn, isNaN]
      · have ht : t = false := Bool.eq_false_iff.mpr fun h => hn (eq_zero_of_extent_finite (h ▸ hy))
        rw [Binary.mul, if_neg hn, ht]
        exact .inr hx
  | finite s m h =>
    have hs : s = true → m = 0 := fun hs => eq_zero_of_extent_finite (hs ▸ hx)
    cases y with
    | nan => exact .inl rfl
    | infinity t =>
      obtain rfl := eq_false_of_extent_infinity hy
      by_cases hm : m = 0
      · simp [Binary.mul, hm, isNaN]
      · rw [Binary.mul, if_neg hm, Bool.eq_false_iff.mpr fun h => hm (hs h)]
        exact .inr hy
    | finite t n k =>
      have ht : t = true → n = 0 := fun ht => eq_zero_of_extent_finite (ht ▸ hy)
      right
      change 0 ≤ (round (s ^^ t) (m * n) (twoPow F.fraction) : Binary F).extent
      rw [extent_round]
      by_cases hsign : (s ^^ t) = true
      · have hzero : m * n = 0 := by
          cases s with
          | false => rw [ht (by simpa using hsign), Nat.mul_zero]
          | true => rw [hs rfl, Nat.zero_mul]
        rw [hzero, rounded_zero, Format.capped_zero]
        simp [signed]
      · simp [signed, hsign]

end Binary
end CallEvolution
