import CallEvolution.Proofs.Shares
import CallEvolution.Proofs.Transfer
import CallEvolution.Random.Words
import CallEvolution.Variation.Mutator

/-! The chance that a mutation changes the sequence of actions. It may lie above one, and stop the mutation,
but only where all candidates are stale. -/

namespace CallEvolution

open Binary Format

namespace MutatorSettings

variable {s : MutatorSettings} {candidates : List Candidate}

theorem hasUnits_of_validate (h : s.validate = .ok ()) :
    ∃ base, s.structureProbability.HasUnits base ∧ base ≤ double.one := by
  obtain ⟨_, hchance, -⟩ := ok_of_bind h
  have hbetween : 0 ≤ s.structureProbability ∧ s.structureProbability ≤ 1 := by
    by_contra hnot
    rw [requireChance, if_neg hnot] at hchance
    cases hchance
  have hzero := hasUnits_zero double
  have hone := hasUnits_one isWide_double
  have hfinite := isFinite_of_between hzero.isFinite hone.isFinite hbetween.1 hbetween.2
  have hrank : 0 ≤ s.structureProbability.rank := by
    have hle := (le_iff_rank hzero.isFinite hfinite).mp hbetween.1
    rwa [hzero.rank_eq] at hle
  have hunits := hasUnits_of_rank hfinite hrank
  exact ⟨_, hunits, (hunits.le_iff hone).mp hbetween.2⟩

/-- The chance is a share of what is left, and exceeds one only where all candidates are stale. -/
theorem hasUnits_structureChance (impacts : Option ImpactHistory) (hs : s.validate = .ok ())
    (hlen : candidates.length < twoPow 64) :
    ∃ units, (s.structureChance impacts candidates).HasUnits units ∧
      units ≤ double.one + double.lastDigit ∧
      (double.one < units → candidates ≠ [] ∧ ∃ h, s.records? impacts = some h ∧
        (candidates.length ≤ twoPow 52 → ∀ c ∈ candidates, s.isStale h c = true)) := by
  obtain ⟨base, hbase, hle⟩ := hasUnits_of_validate hs
  have hplain : ∀ {P : Prop}, base ≤ double.one + double.lastDigit ∧ (double.one < base → P) :=
    ⟨by omega, fun hlt => absurd hle (by omega)⟩
  unfold structureChance
  cases hrecords : s.records? impacts with
  | none => exact ⟨base, hbase, hplain⟩
  | some h =>
    by_cases hnone : candidates = []
    · subst hnone
      exact ⟨base, hbase, hplain⟩
    · have hpos : 0 < candidates.length := List.length_pos_iff.mpr hnone
      have hempty : candidates.isEmpty = false := by simpa using hnone
      have hstale : (candidates.filter (s.isStale h)).length ≤ candidates.length :=
        List.length_filter_le _ _
      simp only [hempty, Bool.false_eq_true, if_false]
      generalize hn : (candidates.filter (s.isStale h)).length = stale at hstale ⊢
      have hpart := hasUnits_whole (F := double) (hstale.trans hlen.le) (by decide)
      have hwhole := hasUnits_whole (F := double) hlen.le (by decide)
      have hone : double.one ≤ double.rounded (candidates.length * double.one) 1 := by
        refine le_rounded Nat.one_pos (spacing_dvd_one isWide_double) ?_
        rw [Nat.mul_one]
        exact Nat.le_mul_of_pos_left _ hpos
      have hmono : double.rounded (stale * double.one) 1 ≤
          double.rounded (candidates.length * double.one) 1 :=
        rounded_mono Nat.one_pos (Nat.mul_le_mul_right _ hstale)
      refine ⟨_, hbase.raise isWide_double hpart hwhole hle hone hmono,
        rounded_raised_le_aboveOne isWide_double hle hone hmono, fun hlt => ⟨hnone, h, rfl, ?_⟩⟩
      intro hfew
      -- short of all candidates, the share would be small enough
      by_contra hfresh
      have hfewer : stale < candidates.length := by
        refine lt_of_le_of_ne hstale fun hall => hfresh ?_
        rwa [← hn, List.length_filter_eq_length_iff] at hall
      have hwide : twoPow 52 ≤ twoPow double.digits := twoPow_le (by decide)
      rw [rounded_whole (by omega), rounded_whole (by omega)] at hlt
      rw [rounded_whole (by omega)] at hone
      have hshare := share_le_one isWide_double hfewer hfew
      exact absurd (rounded_raised_le_one isWide_double hle hone hshare) (by omega)

end MutatorSettings

namespace Draw

variable {γ : Type} [RandomSource γ] {p : Double} {n : Nat}

theorem chance_ends (h : p.HasUnits n) (hle : n ≤ Format.double.one) (g : γ) :
    ∃ b g', (chance p : Draw γ Bool) g = .ok (b, g') := by
  have hone := hasUnits_one isWide_double
  rw [chance]
  by_cases hsame : n = Format.double.one
  · rw [if_pos ((h.same_iff hone).mpr hsame)]
    exact ⟨true, g, rfl⟩
  · have hzero : 0 ≤ p := ((hasUnits_zero Format.double).le_iff h).mpr (Nat.zero_le n)
    have hlt : p < 1 := (h.lt_iff hone).mpr (by omega)
    rw [if_neg (fun he => hsame ((h.same_iff hone).mp he)), if_pos ⟨hzero, hlt⟩]
    exact ⟨_, _, rfl⟩

theorem chance_stops (h : p.HasUnits n) (hlt : Format.double.one < n) (g : γ) :
    (chance p : Draw γ Bool) g = .error .invalidProbability := by
  have hone := hasUnits_one isWide_double
  have hsame : ¬ p.same 1 = true := fun he => absurd ((h.same_iff hone).mp he) (by omega)
  have hbelow : ¬ p < 1 := fun he => absurd ((h.lt_iff hone).mp he) (by omega)
  rw [chance, if_neg hsame, if_neg fun he => hbelow he.2]
  rfl

end Draw

namespace Mutator

variable {γ : Type} [RandomSource γ]

/-- The draw ends, or else all candidates are stale and it stops at a chance that lies above one, by the
last digit. -/
theorem changesStructure_ends_or_stops (m : Mutator) (impacts : Option ImpactHistory)
    (candidates : List Candidate) (operators : List (Operator × Double)) (g : γ)
    (hm : m.settings.validate = .ok ()) (hlen : candidates.length < twoPow 64) :
    let p := m.settings.structureChance impacts candidates
    let run := m.changesStructure impacts candidates operators g
    0 ≤ p ∧ p ≤ aboveOne .double ∧
      ((p ≤ 1 ∧ ∃ b g', run = .ok (b, g')) ∨
        (1 < p ∧ (operators ≠ [] → run = .error .invalidProbability) ∧
          ∃ h, m.settings.records? impacts = some h ∧
            (candidates.length ≤ twoPow 52 → ∀ c ∈ candidates, m.settings.isStale h c = true))) := by
  intro p run
  obtain ⟨units, hunits, habove, hstale⟩ :=
    MutatorSettings.hasUnits_structureChance impacts hm hlen
  have hone := hasUnits_one isWide_double
  have hrun : run = (if operators.isEmpty then pure false
      else if candidates.isEmpty then pure true else Draw.chance p : Draw γ Bool) g := rfl
  refine ⟨((hasUnits_zero double).le_iff hunits).mpr (Nat.zero_le units),
    (hunits.le_iff (hasUnits_aboveOne isWide_double)).mpr habove, ?_⟩
  by_cases hle : units ≤ double.one
  · refine .inl ⟨(hunits.le_iff hone).mpr hle, ?_⟩
    rw [hrun]
    split
    · exact ⟨false, g, rfl⟩
    · split
      · exact ⟨true, g, rfl⟩
      · exact Draw.chance_ends hunits hle g
  · obtain ⟨hsome, h, hrecords, hall⟩ := hstale (by omega)
    refine .inr ⟨(hone.lt_iff hunits).mpr (by omega), fun hoperators => ?_, h, hrecords, hall⟩
    rw [hrun, if_neg (by simpa using hoperators), if_neg (by simpa using hsome)]
    exact Draw.chance_stops hunits (by omega) g

/-- Two of three candidates are stale. -/
theorem changesStructure_ends_of_fresh :
    let record (id : String) (streak : Nat) : ImpactRecord := { id, idleStreak := streak }
    let h : ImpactHistory := ((ImpactHistory.insert {} (record "a" 5)).insert (record "b" 9)).insert (record "c" 4)
    let candidates := ["a", "b", "c"].map fun identity => (⟨⟨1⟩, 0, identity⟩ : Candidate)
    let m : Mutator := ⟨{ strategy := .adaptive }⟩
    let run := m.changesStructure (some h) candidates [(.addAction, 1)] (⟨[], 1⟩ : WordSource)
    0.7 < m.settings.structureChance (some h) candidates ∧
      m.settings.structureChance (some h) candidates ≤ 1 ∧ ∃ b g, run = .ok (b, g) := by
  intro record h candidates m run
  have hvalid : m.settings.validate = .ok () := by decide +kernel
  have hlow : 0.7 < m.settings.structureChance (some h) candidates := by decide +kernel
  have hhigh : ¬ 1 < m.settings.structureChance (some h) candidates := by decide +kernel
  have hruns := changesStructure_ends_or_stops m (some h) candidates [(.addAction, 1)] (⟨[], 1⟩ : WordSource)
    hvalid (by decide)
  obtain ⟨hle, hends⟩ := hruns.2.2.resolve_right fun hstops => hhigh hstops.1
  exact ⟨hlow, hle, hends⟩

/-- All of three candidates are stale. -/
theorem changesStructure_stops_at_stale :
    let record (id : String) (streak : Nat) : ImpactRecord := { id, idleStreak := streak }
    let h : ImpactHistory := ((ImpactHistory.insert {} (record "a" 5)).insert (record "b" 9)).insert (record "c" 5)
    let candidates := ["a", "b", "c"].map fun identity => (⟨⟨1⟩, 0, identity⟩ : Candidate)
    let m : Mutator := ⟨{ strategy := .adaptive }⟩
    let run := m.changesStructure (some h) candidates [(.addAction, 1)] (⟨[], 1⟩ : WordSource)
    m.settings.validate = .ok () ∧ m.settings.structureProbability = 0.2 ∧
      m.settings.structureChance (some h) candidates = aboveOne .double ∧
      run.map Prod.fst = .error .invalidProbability := by
  decide +kernel

end Mutator
end CallEvolution
