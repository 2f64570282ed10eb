import CallEvolution.Proofs.Draws
import CallEvolution.Proofs.Shares

/-! Draws that end without a certain fault, whatever words are drawn. Each draw has its own condition on what
it is asked for: a range with members, a width that is finite, a chance of at most one. -/

namespace CallEvolution

namespace Binary

open Format

variable {F : Format} {x : Binary F} {m n : Nat}

theorem neg_neg (x : Binary F) : neg (neg x) = x := by
  cases x <;> simp [neg]

theorem HasUnits.rank_neg (hx : x.HasUnits m) : (neg x).rank = -m := by
  rw [← hx.rank_eq]
  obtain ⟨s, hm, rfl, -⟩ := hx
  cases s <;> simp [neg, rank, signed]

/-- A number with units is larger than its opposite. -/
theorem HasUnits.neg_lt (hx : x.HasUnits m) (hm : 0 < m) : neg x < x := by
  rw [lt_iff_rank (isFinite_neg hx.isFinite) hx.isFinite, hx.rank_neg, hx.rank_eq]
  omega

theorem HasUnits.max_one (hF : F.IsWide) (hx : x.HasUnits m) : (x.max 1).HasUnits (Max.max m F.one) := by
  have hone := hasUnits_one hF
  have hnumber : x.isNaN = false := by
    obtain ⟨s, hm, rfl, -⟩ := hx
    rfl
  rw [Binary.max, hnumber, if_neg Bool.false_ne_true]
  by_cases hlt : x < 1
  · rw [if_pos hlt, max_eq_right (Nat.le_of_lt ((hx.lt_iff hone).mp hlt))]
    exact hone
  · rw [if_neg hlt, max_eq_left (Nat.le_of_not_lt (hlt ∘ (hx.lt_iff hone).mpr))]
    exact hx

theorem hasUnits_abs (hx : x.isFinite = true) : ∃ m, x.abs.HasUnits m := by
  cases x with
  | nan | infinity => cases hx
  | finite s m h => exact ⟨m, false, h, rfl, nofun⟩

theorem hasUnits_tenth : ∃ m, (0.1 : Double).HasUnits m ∧ 0 < m ∧ m ≤ twoPow 1071 := by
  have hvalue : (0.1 : Double) = finite false (double.rounded (twoPow 1074) 10) (by decide +kernel) := by
    decide +kernel
  exact ⟨_, ⟨false, _, hvalue, nofun⟩, by decide +kernel, by decide +kernel⟩

theorem hasUnits_half : Draw.half.HasUnits (twoPow 1073) := by
  have hspacing : double.spacing (twoPow 1073) ∣ twoPow 1073 := by
    rw [spacing, log2_twoPow]
    exact twoPow_dvd (by decide)
  have htwo : twoPow 1 = 2 := rfl
  have hexact : 1 * twoPow double.fraction = twoPow 1073 * 2 := by
    rw [← htwo, ← twoPow_add, Nat.one_mul]
    rfl
  have hrounded : double.rounded (twoPow 1073 * 2) 2 = twoPow 1073 :=
    rounded_mul_self two_pos hspacing
  have hle : twoPow 1073 ≤ double.one := twoPow_le (by decide)
  have htop := hle.trans_lt (one_lt_top isWide_double)
  have hsign : decide ((1 : Int) < 0) = false := by decide
  rw [Draw.half, ofRatio, hsign, Int.natAbs_one, hexact]
  have hround := hasUnits_round (s := false) (hrounded.trans_lt htop) fun h => by cases h
  rwa [hrounded] at hround

/-- A tenth of a number, or of one if that is larger. -/
theorem exists_units_of_scale {value : Double} (hvalue : value.isFinite = true) :
    ∃ n, (value.abs.max 1 * 0.1).HasUnits n ∧ 0 < n ∧ n ≤ twoPow 1021 * double.one := by
  obtain ⟨m, hm⟩ := hasUnits_abs hvalue
  obtain ⟨k, hk, hpos, hle⟩ := hasUnits_tenth
  have hmax := hm.max_one isWide_double
  have htop := spacing_dvd_twoPow_mul_one double 1021
  have hproduct : Max.max m double.one * k ≤ twoPow 1021 * double.one * twoPow double.fraction := by
    calc Max.max m double.one * k ≤ twoPow double.top * twoPow 1071 :=
          Nat.mul_le_mul hmax.representable.2.le hle
      _ = twoPow (double.top + 1071) := (twoPow_add _ _).symm
      _ = twoPow (1021 + double.fraction + double.fraction) := congrArg twoPow (by decide)
      _ = twoPow 1021 * double.one * twoPow double.fraction := by rw [twoPow_add, twoPow_add, Format.one]
  have hrounded := rounded_le htop hproduct
  refine ⟨_, hmax.mul hk (hrounded.trans_lt (twoPow_mul_one_lt_top (by decide))), ?_, hrounded⟩
  refine le_rounded (twoPow_pos _) (Nat.one_dvd _) ?_
  rw [Nat.one_mul]
  exact (Nat.le_max_right _ _).trans (Nat.le_mul_of_pos_right _ hpos)

/-- A step goes both ways. -/
theorem neg_scale_lt {value : Double} (hvalue : value.isNaN = false) :
    -(value.abs.max 1 * 0.1) < value.abs.max 1 * 0.1 := by
  cases value with
  | nan => cases hvalue
  | infinity s =>
    -- a part of infinity is infinity
    obtain ⟨m, ⟨t, htenths, htenth, ht⟩, hpos, -⟩ := hasUnits_tenth
    obtain ⟨t', hones, hone, -⟩ := hasUnits_one isWide_double
    have hplus : t = false := Bool.eq_false_iff.mpr fun h => by
      have hzero := ht h
      omega
    have hscale : (infinity s : Double).abs.max 1 * 0.1 = infinity false := by
      rw [htenth, hone, hplus]
      exact if_neg (by omega)
    rw [hscale]
    rfl
  | finite s m h =>
    obtain ⟨n, hn, hpos, -⟩ := @exists_units_of_scale (finite s m h) rfl
    exact hn.neg_lt hpos

theorem isFinite_scale_sub {value : Double} (hvalue : value.isFinite = true) :
    (value.abs.max 1 * 0.1 - -(value.abs.max 1 * 0.1)).isFinite = true := by
  obtain ⟨n, hn, -, hle⟩ := exists_units_of_scale hvalue
  generalize value.abs.max 1 * 0.1 = scale at hn
  have hsum : scale - -scale = scale + scale := congrArg (Binary.add scale) (neg_neg scale)
  have hdouble : n + n ≤ twoPow 1022 * double.one * 1 := by
    have htwice : twoPow 1022 = twoPow 1 * twoPow 1021 := twoPow_add 1 1021
    have htwo : twoPow 1 = 2 := rfl
    rw [htwice, Nat.mul_one, Nat.mul_assoc, htwo]
    omega
  have hrounded := rounded_le (spacing_dvd_twoPow_mul_one double 1022) hdouble
  rw [hsum]
  exact (hn.add hn (hrounded.trans_lt (twoPow_mul_one_lt_top (by decide)))).isFinite

end Binary

namespace Draw

variable {γ α β : Type} {f g : Fault}

/-- Does no stream of random words make a draw end with the fault? -/
def Spares (f : Fault) (d : Draw γ α) : Prop := ∀ s, d s ≠ .error f

namespace Spares

variable {d : Draw γ α} {k : α → Draw γ β}

theorem pure (a : α) : Spares f (Pure.pure a : Draw γ α) := fun _ => nofun

theorem bind (hd : Spares f d) (hk : ∀ a, Gives d a → Spares f (k a)) : Spares f (d >>= k) := by
  intro s h
  change (d s >>= fun r => k r.1 r.2) = _ at h
  cases hs : d s with
  | error e =>
    rw [hs] at h
    cases h
    exact hd s hs
  | ok r =>
    rw [hs] at h
    exact hk r.1 ⟨s, r.2, hs⟩ r.2 h

theorem map (hd : Spares f d) (h : α → β) : Spares f (h <$> d) := by
  rw [map_eq_pure_bind]
  exact hd.bind fun _ _ => pure _

theorem fault (h : g ≠ f) : Spares f (Draw.fault g : Draw γ α) := fun _ he => h (Except.error.inj he)

theorem untilSome {d : Draw γ (Option α)} (hf : f ≠ .endlessRedraw) (hd : Spares f d) (limit : Nat) :
    Spares f (Draw.untilSome d limit) := by
  induction limit with
  | zero => exact fault hf.symm
  | succ limit ih =>
    refine hd.bind fun r _ => ?_
    cases r with
    | none => exact ih
    | some x => exact pure x

end Spares

variable [RandomSource γ] {low high : Nat}

theorem spares_word (w : Width) : Spares f (word w : Draw γ Nat) := by
  cases w <;> exact fun _ => nofun

theorem spares_chance {p : Double} (hlow : 0 ≤ p) (hhigh : p ≤ 1) : Spares f (chance p : Draw γ Bool) := by
  rw [chance]
  by_cases hone : p.same 1 = true
  · rw [if_pos hone]
    exact .pure true
  · rw [if_neg hone, if_pos ⟨hlow, (Binary.le_iff_lt_or_same.mp hhigh).resolve_right hone⟩]
    exact (spares_word .bits64).bind fun _ _ => .pure _

theorem spares_half : Spares f (chance half : Draw γ Bool) := by
  have hhalf := Binary.hasUnits_half
  have hone := Binary.hasUnits_one Format.isWide_double
  refine spares_chance (((Binary.hasUnits_zero _).le_iff hhalf).mpr (Nat.zero_le _)) ?_
  exact (hhalf.le_iff hone).mpr (twoPow_le (by decide))

variable (hf : f ≠ .endlessRedraw)

include hf

theorem spares_integer (w : Width) {low high : Int} (h : low ≤ high) :
    Spares f (integer w low high : Draw γ Int) := by
  simp only [integer, if_neg (not_lt.mpr h)]
  split
  · exact (spares_word w).bind fun _ _ => .pure _
  · have hbelow : Spares f (below w (high - low + 1).toNat : Draw γ Nat) :=
      .untilSome hf ((spares_word w).bind fun _ _ => .pure _) _
    exact hbelow.bind fun _ _ => .pure _

theorem spares_count (h : low ≤ high) : Spares f (count low high : Draw γ Nat) :=
  (spares_integer hf .bits64 (Int.ofNat_le.mpr h)).bind fun _ _ => .pure _

theorem spares_index {size : Nat} (h : 0 < size) : Spares f (index size : Draw γ Nat) := by
  rw [index, if_neg (by omega)]
  exact spares_count hf (Nat.zero_le _)

theorem spares_int32 {low high : Int32} (h : low ≤ high) : Spares f (int32 low high : Draw γ Int32) :=
  (spares_integer hf .bits32 (Int32.le_iff_toInt_le.mp h)).bind fun _ _ => .pure _

theorem spares_int64 {low high : Int64} (h : low ≤ high) : Spares f (int64 low high : Draw γ Int64) :=
  (spares_integer hf .bits64 (Int64.le_iff_toInt_le.mp h)).bind fun _ _ => .pure _

theorem spares_real {F : Format} {low high : Binary F} (w : Width) (discard : Nat) (hlt : low < high)
    (hwidth : f = .unboundedRange → (high - low).isFinite = true) :
    Spares f (real w discard low high : Draw γ (Binary F)) := by
  simp only [real, if_neg (not_not.mpr hlt)]
  split
  · next hinfinite =>
    refine .fault fun h => ?_
    rw [hwidth h.symm] at hinfinite
    cases hinfinite
  · have hfraction : Spares f (fraction F w discard : Draw γ (Binary F)) :=
      (spares_word w).bind fun _ _ => .pure _
    exact .untilSome hf (hfraction.bind fun _ _ => .pure _) _

theorem spares_letter : Spares f (letter : Draw γ Char) :=
  .untilSome hf ((spares_word .bits32).bind fun _ _ => .pure _) _

theorem spares_letters (n : Nat) : Spares f (letters n : Draw γ (List Char)) := by
  induction n with
  | zero => exact .pure []
  | succ n ih => exact (spares_letter hf).bind fun _ _ => ih.bind fun _ _ => .pure _

theorem spares_text {n : Nat} (hroom : f = .unboundedRoom → n < textRoom) :
    Spares f (text n : Draw γ String) := by
  rw [text]
  split
  · next hlong => exact .fault fun h => absurd (hroom h.symm) (not_lt.mpr hlong)
  · exact (spares_letters hf n).bind fun _ _ => .pure _

theorem spares_date : Spares f (date : Draw γ Date) :=
  (spares_integer hf .bits32 (by decide)).bind fun _ _ => (spares_integer hf .bits32 (by decide)).bind
    fun _ _ => (spares_integer hf .bits32 (by decide)).bind fun _ _ => .pure _

theorem spares_time : Spares f (time : Draw γ Time) :=
  (spares_integer hf .bits32 (by decide)).bind fun _ _ => (spares_integer hf .bits32 (by decide)).bind
    fun _ _ => (spares_integer hf .bits32 (by decide)).bind fun _ _ => .pure _

theorem spares_key (used : List String) : Spares f (key used : Draw γ String) := by
  refine .untilSome hf ((spares_count hf (by decide)).bind fun n hn => ?_) _
  have hshort : n < textRoom := lt_of_le_of_lt (count_mem hn).2 (by decide)
  exact (spares_text hf fun _ => hshort).bind fun _ _ => .pure _

theorem spares_signedStep (max : Int) : Spares f (signedStep max : Draw γ Int) := by
  refine (spares_integer hf .bits64 ?_).bind fun _ _ => spares_half.bind fun _ _ => .pure _
  split <;> omega

omit hf in
theorem signedStep_mem {max n : Int} (h : Gives (signedStep max : Draw γ Int) n) :
    -(if max < 1 then 1 else max) ≤ n ∧ n ≤ if max < 1 then 1 else max := by
  obtain ⟨m, hm, h⟩ := gives_of_bind h
  obtain ⟨b, -, h⟩ := gives_of_bind h
  have hmem := integer_mem (.inl (by omega)) hm
  rw [eq_of_gives_pure h]
  cases b <;> simp only [if_true, Bool.false_eq_true, if_false] <;> omega

theorem spares_realStep {value : Double} (hnumber : value.isNaN = false)
    (hfinite : f = .unboundedRange → value.isFinite = true) :
    Spares f (realStep value : Draw γ Double) :=
  spares_real hf _ _ (Binary.neg_scale_lt hnumber) fun h => Binary.isFinite_scale_sub (hfinite h)

theorem spares_editText {chars : List Char} {min max : Nat} (h : textEdits chars.length min max ≠ []) :
    Spares f (editText chars (textEdits chars.length min max) : Draw γ (List Char)) := by
  refine (spares_letter hf).bind fun letter _ => ?_
  refine (spares_index hf (List.length_pos_iff.mpr h)).bind fun i hi => ?_
  have hlt := index_lt hi
  have hedit := mem_textEdits (List.getElem_mem hlt)
  rw [List.getElem?_eq_getElem hlt]
  generalize (textEdits chars.length min max)[i] = edit at hedit
  cases edit with
  | insert => exact (spares_count hf (Nat.zero_le _)).bind fun _ _ => .pure _
  | remove =>
    have hlong := hedit.2.1 rfl
    exact (spares_index hf (by omega)).bind fun _ _ => .pure _
  | replace => exact (spares_index hf (hedit.2.2 rfl)).bind fun _ _ => .pure _

theorem spares_mutatedText {value : String} {min max : Nat} (hbounds : min ≤ max)
    (hroom : f = .unboundedRoom → max < textRoom) (resample : Bool) :
    Spares f (mutatedText value min max resample : Draw γ String) := by
  have hedited : Spares f (if (textEdits value.length min max).isEmpty then pure value
      else do return String.ofList (← editText value.toList (textEdits value.length min max)) :
        Draw γ String) := by
    split
    · exact .pure value
    · next hsome =>
      rw [← String.length_toList] at hsome ⊢
      exact (spares_editText hf (by simpa using hsome)).bind fun _ _ => .pure _
  simp only [mutatedText]
  split
  · refine (spares_count hf hbounds).bind fun n hn => ?_
    have htext := spares_text (γ := γ) hf fun h => (count_mem hn).2.trans_lt (hroom h)
    refine (htext.map some).bind fun fresh _ => ?_
    split
    · exact .pure _
    · exact hedited
  · refine Spares.bind (.pure none) fun fresh hfresh => ?_
    split
    · exact .pure _
    · exact hedited

omit hf [RandomSource γ] in
/-- The whole days of a span are no longer than the span. -/
theorem days_le {n : Int} : n.tdiv 86400 * 86400 ≤ max n 0 := by
  rcases le_total 0 n with hn | hn
  · rw [Int.tdiv_eq_ediv_of_nonneg hn]
    omega
  · have hopposite := Int.tdiv_nonneg (a := -n) (b := 86400) (by omega) (by decide)
    rw [Int.neg_tdiv] at hopposite
    omega

omit hf [RandomSource γ] in
theorem spares_requireSpan {seconds : Int}
    (h : f = .unboundedSpan → -(longestSpan : Int) ≤ seconds ∧ seconds ≤ longestSpan) :
    Spares f (requireSpan seconds : Draw γ Unit) := by
  rw [requireSpan]
  split
  · refine .fault fun he => ?_
    obtain ⟨hlow, hhigh⟩ := h he.symm
    omega
  · exact .pure ()

end Draw

namespace Draw

variable {γ : Type} [RandomSource γ] {weights : List Double}

theorem length_runningSums (sum : Double) (weights : List Double) :
    (runningSums sum weights).length = weights.length := by
  induction weights generalizing sum with
  | nil => rfl
  | cons w ws ih => rw [runningSums, List.length_cons, List.length_cons, ih]

theorem length_cumulative (weights : List Double) : (cumulative weights).length = weights.length := by
  cases weights with
  | nil => rfl
  | cons w ws => rw [cumulative, List.length_cons, List.length_cons, length_runningSums]

/-- A position drawn by weight is one of the list. -/
theorem weighted_lt {i : Nat} (hsome : weights ≠ []) (h : Gives (weighted weights : Draw γ Nat) i) :
    i < weights.length := by
  have hpos := List.length_pos_iff.mpr hsome
  simp only [weighted] at h
  split at h
  · split at h
    · exact absurd h not_gives_fault
    · obtain ⟨x, -, h⟩ := gives_of_bind h
      rw [eq_of_gives_pure h]
      refine (List.takeWhile_sublist _).length_le.trans_lt ?_
      rw [List.length_dropLast, length_cumulative]
      omega
  · have hlt := index_lt h
    omega

end Draw

namespace Binary

open Format

/-- From this total on a one is lost when it is added. -/
def fullTotal : Nat := twoPow 54 * double.one

theorem fullTotal_lt_top : fullTotal < twoPow double.top := twoPow_mul_one_lt_top (by decide)

theorem rounded_add_one_le {m : Nat} (h : m ≤ fullTotal) : double.rounded (m + double.one) 1 ≤ fullTotal := by
  refine (rounded_mono Nat.one_pos (Nat.add_le_add_right h _)).trans ?_
  exact rounded_le_of_lt Nat.one_pos (spacing_dvd_twoPow_mul_one double 54) (by decide +kernel)

/-- Ones are added up without end, and their sum stays finite. -/
theorem isFinite_total {sum : Double} {m : Nat} (hsum : sum.HasUnits m) (hm : m ≤ fullTotal) (n : Nat) :
    ((Draw.runningSums sum (List.replicate n 1)).getLastD sum).isFinite = true := by
  induction n generalizing sum m with
  | zero => exact hsum.isFinite
  | succ n ih =>
    have hle := rounded_add_one_le hm
    have hnext := hsum.add (hasUnits_one isWide_double) (hle.trans_lt fullTotal_lt_top)
    rw [List.replicate_succ, Draw.runningSums, List.getLastD_cons]
    exact ih hnext hle

end Binary

namespace Draw

variable {γ : Type} {f : Fault} [RandomSource γ]

/-- Equal weights never get too heavy, however many there are. -/
theorem spares_weighted (hf : f ≠ .endlessRedraw) (n : Nat) :
    Spares f (weighted (List.replicate n 1) : Draw γ Nat) := by
  simp only [weighted]
  split
  · next husable =>
    have hfinite : ((cumulative (List.replicate n 1)).getLastD 0).isFinite = true := by
      cases n with
      | zero => cases husable
      | succ n =>
        have hone := Binary.hasUnits_one Format.isWide_double
        rw [List.replicate_succ, cumulative, List.getLastD_cons]
        exact Binary.isFinite_total hone (Nat.le_mul_of_pos_left _ (twoPow_pos 54)) n
    rw [hfinite, if_neg (by simp)]
    exact .bind ((spares_word .bits64).bind fun _ _ => .pure _) fun _ _ => .pure _
  · exact spares_index hf (by omega)

end Draw
end CallEvolution
