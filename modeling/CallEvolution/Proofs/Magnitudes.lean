import CallEvolution.Proofs.Rounding

/-! Finite binary numbers as integers of units. They are ordered as these are, and an operation on numbers
that are not negative rounds the exact result. -/

namespace CallEvolution.Binary

variable {F : Format} {x y : Binary F} {m n : Nat}

/-- The units of a finite number, with their sign. -/
def rank : Binary F → Int
  | finite negative units _ => signed negative units
  | _ => 0

theorem lt_iff_rank (hx : x.isFinite = true) (hy : y.isFinite = true) : x < y ↔ x.rank < y.rank := by
  cases x with
  | nan | infinity s => simp [isFinite] at hx
  | finite s m h =>
    cases y with
    | nan | infinity t => simp [isFinite] at hy
    | finite t n k => exact decide_eq_true_iff

theorem same_iff_rank (hx : x.isFinite = true) (hy : y.isFinite = true) :
    x.same y = true ↔ x.rank = y.rank := by
  cases x with
  | nan | infinity s => simp [isFinite] at hx
  | finite s m h =>
    cases y with
    | nan | infinity t => simp [isFinite] at hy
    | finite t n k => exact decide_eq_true_iff

theorem le_iff_rank (hx : x.isFinite = true) (hy : y.isFinite = true) : x ≤ y ↔ x.rank ≤ y.rank := by
  have hlt := lt_iff_rank hx hy
  have hsame := same_iff_rank hx hy
  have hle : x ≤ y ↔ x < y ∨ x.same y = true := Bool.or_eq_true _ _ ▸ Iff.rfl
  rw [hle, hlt, hsame]
  omega

theorem isFinite_of_between {low high : Binary F} (hlow : low.isFinite = true)
    (hhigh : high.isFinite = true) (h : low ≤ x) (h' : x ≤ high) : x.isFinite = true := by
  cases low with
  | nan | infinity s => cases hlow
  | finite s m hm =>
    cases high with
    | nan | infinity t => cases hhigh
    | finite t n hn =>
      cases x with
      | finite => rfl
      | nan => cases h
      | infinity negative =>
        cases negative with
        | false => cases h'
        | true => cases h

/-- Is a number finite, not negative and of so many units? Zero may have any sign. -/
def HasUnits (x : Binary F) (m : Nat) : Prop :=
  ∃ negative h, x = finite negative m h ∧ (negative = true → m = 0)

namespace HasUnits

theorem isFinite (h : x.HasUnits m) : x.isFinite = true := by
  obtain ⟨s, hm, rfl, -⟩ := h
  rfl

theorem rank_eq (h : x.HasUnits m) : x.rank = m := by
  obtain ⟨s, hm, rfl, hs⟩ := h
  cases s with
  | false => rfl
  | true =>
    obtain rfl := hs rfl
    rfl

theorem representable (h : x.HasUnits m) : F.Representable m := by
  obtain ⟨s, hm, rfl, -⟩ := h
  exact hm

theorem le_iff (hx : x.HasUnits m) (hy : y.HasUnits n) : x ≤ y ↔ m ≤ n := by
  rw [le_iff_rank hx.isFinite hy.isFinite, hx.rank_eq, hy.rank_eq]
  omega

theorem lt_iff (hx : x.HasUnits m) (hy : y.HasUnits n) : x < y ↔ m < n := by
  rw [lt_iff_rank hx.isFinite hy.isFinite, hx.rank_eq, hy.rank_eq]
  omega

theorem same_iff (hx : x.HasUnits m) (hy : y.HasUnits n) : x.same y = true ↔ m = n := by
  rw [same_iff_rank hx.isFinite hy.isFinite, hx.rank_eq, hy.rank_eq]
  omega

end HasUnits

/-- A finite number that is not below another one of no units has units itself. -/
theorem hasUnits_of_rank (hx : x.isFinite = true) (h : 0 ≤ x.rank) : x.HasUnits x.rank.toNat := by
  cases x with
  | nan | infinity s => cases hx
  | finite s m hm =>
    cases s with
    | false => exact ⟨false, hm, by simp [rank, signed], by simp⟩
    | true =>
      have hzero : m = 0 := by
        simp only [rank, signed, if_true] at h
        omega
      subst hzero
      exact ⟨true, hm, rfl, fun _ => rfl⟩

theorem hasUnits_round {s : Bool} {num den : Nat} (htop : F.rounded num den < twoPow F.top)
    (hs : s = true → F.rounded num den = 0) : (round s num den : Binary F).HasUnits (F.rounded num den) := by
  refine ⟨s, ⟨F.spacing_dvd_rounded num den, htop⟩, ?_, hs⟩
  rw [round]
  exact dif_pos htop

theorem rounded_zero (F : Format) (den : Nat) : F.rounded 0 den = 0 := by
  rw [← Nat.le_zero]
  exact F.rounded_le (Nat.dvd_zero _) (Nat.zero_le _)

namespace HasUnits

theorem add (hx : x.HasUnits m) (hy : y.HasUnits n) (htop : F.rounded (m + n) 1 < twoPow F.top) :
    (x + y).HasUnits (F.rounded (m + n) 1) := by
  have hrank : x.rank + y.rank = (m + n : Nat) := by
    rw [hx.rank_eq, hy.rank_eq]
    omega
  obtain ⟨s, hm, rfl, -⟩ := hx
  obtain ⟨t, hn, rfl, -⟩ := hy
  change (Binary.add (finite s m hm) (finite t n hn)).HasUnits _
  simp only [rank] at hrank
  simp only [Binary.add, hrank]
  split_ifs with hzero
  · have hsum : m + n = 0 := by omega
    rw [hsum] at htop ⊢
    exact hasUnits_round htop fun _ => rounded_zero F 1
  · have hsign : decide (((m + n : Nat) : Int) < 0) = false := decide_eq_false (by omega)
    rw [hsign, Int.natAbs_natCast]
    exact hasUnits_round htop fun h => by cases h

theorem sub (hx : x.HasUnits m) (hy : y.HasUnits n) (hle : n ≤ m)
    (htop : F.rounded (m - n) 1 < twoPow F.top) : (x - y).HasUnits (F.rounded (m - n) 1) := by
  have hrank : x.rank - y.rank = (m - n : Nat) := by
    rw [hx.rank_eq, hy.rank_eq]
    omega
  obtain ⟨s, hm, rfl, -⟩ := hx
  obtain ⟨t, hn, rfl, -⟩ := hy
  have hneg : signed (!t) n = -signed t n := by cases t <;> simp [signed]
  change (Binary.add (finite s m hm) (finite (!t) n hn)).HasUnits _
  simp only [rank] at hrank
  simp only [Binary.add, hneg, ← Int.sub_eq_add_neg, hrank]
  split_ifs with hzero
  · have hdifference : m - n = 0 := by omega
    rw [hdifference] at htop ⊢
    exact hasUnits_round htop fun _ => rounded_zero F 1
  · have hsign : decide (((m - n : Nat) : Int) < 0) = false := decide_eq_false (by omega)
    rw [hsign, Int.natAbs_natCast]
    exact hasUnits_round htop fun h => by cases h

theorem mul (hx : x.HasUnits m) (hy : y.HasUnits n)
    (htop : F.rounded (m * n) (twoPow F.fraction) < twoPow F.top) :
    (x * y).HasUnits (F.rounded (m * n) (twoPow F.fraction)) := by
  obtain ⟨s, hm, rfl, hs⟩ := hx
  obtain ⟨t, hn, rfl, ht⟩ := hy
  refine hasUnits_round (s := s ^^ t) htop fun hsign => ?_
  have hzero : m * n = 0 := by
    cases s with
    | true => simp [hs rfl]
    | false =>
      cases t with
      | true => simp [ht rfl]
      | false => cases hsign
  rw [hzero, rounded_zero]

theorem div (hx : x.HasUnits m) (hy : y.HasUnits n) (hn : 0 < n)
    (htop : F.rounded (m * twoPow F.fraction) n < twoPow F.top) :
    (x / y).HasUnits (F.rounded (m * twoPow F.fraction) n) := by
  obtain ⟨s, hm, rfl, hs⟩ := hx
  obtain ⟨t, hn', rfl, ht⟩ := hy
  change (Binary.div (finite s m hm) (finite t n hn')).HasUnits _
  rw [Binary.div, if_neg (by omega)]
  refine hasUnits_round (s := s ^^ t) htop fun hsign => ?_
  have hzero : m = 0 := by
    cases s with
    | true => exact hs rfl
    | false =>
      cases t with
      | true => exact absurd (ht rfl) (by omega)
      | false => cases hsign
  rw [hzero, Nat.zero_mul, rounded_zero]

end HasUnits

theorem hasUnits_ofInt (htop : F.rounded (n * twoPow F.fraction) 1 < twoPow F.top) :
    (ofInt n : Binary F).HasUnits (F.rounded (n * twoPow F.fraction) 1) := by
  rw [ofInt, ofRatio]
  have hsign : decide ((n : Int) < 0) = false := decide_eq_false (by omega)
  rw [hsign, Int.natAbs_natCast]
  exact hasUnits_round htop fun h => by cases h

theorem hasUnits_zero (F : Format) : (0 : Binary F).HasUnits 0 := by
  have hunits : F.rounded (0 * twoPow F.fraction) 1 = 0 := by rw [Nat.zero_mul, rounded_zero]
  have hzero := hasUnits_ofInt (F := F) (n := 0) (by rw [hunits]; exact twoPow_pos _)
  rw [hunits] at hzero
  exact hzero

end CallEvolution.Binary
