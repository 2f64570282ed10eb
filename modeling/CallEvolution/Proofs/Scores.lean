import CallEvolution.Evaluation.Report
import CallEvolution.Proofs.Magnitudes
import Mathlib.Data.List.Induction

/-! Scores in reports. The scores of a report are the greatest ones that it has for its targets. -/

namespace CallEvolution

/-- A number that can be a score. -/
def IsScore (x : Double) : Prop := x.isFinite = true ∧ 0 ≤ x ∧ x ≤ 1

instance (x : Double) : Decidable (IsScore x) := inferInstanceAs (Decidable (_ ∧ _))

theorem isScore_normalizedScore (x : Double) : IsScore (normalizedScore x) := by
  have hzero : IsScore 0 := by decide +kernel
  have hone : IsScore 1 := by decide +kernel
  unfold normalizedScore
  by_cases hx : x.isFinite = true
  · rw [if_pos hx, Binary.clamp]
    by_cases hlow : x < 0
    · rw [if_pos hlow]
      exact hzero
    · rw [if_neg hlow]
      by_cases hhigh : 1 < x
      · rw [if_pos hhigh]
        exact hone
      · rw [if_neg hhigh]
        rw [Binary.lt_iff_rank hx hzero.1] at hlow
        rw [Binary.lt_iff_rank hone.1 hx] at hhigh
        refine ⟨hx, ?_, ?_⟩
        · rw [Binary.le_iff_rank hzero.1 hx]
          omega
        · rw [Binary.le_iff_rank hx hone.1]
          omega
  · rw [if_neg hx]
    exact hzero

namespace Report

variable {best : Table Double} {target other : String} {score s : Double} {ts : List TargetScore}

theorem at?_keepBest_of_ne (h : other ≠ target) :
    (keepBest best target score).at? other = best.at? other := by
  unfold keepBest
  cases best.at? target with
  | none => exact Table.at?_put_of_ne best h score
  | some old =>
    simp only
    split
    · exact Table.at?_put_of_ne best h score
    · rfl

theorem at?_keepBest_self : (keepBest best target score).at? target =
    some (match best.at? target with
      | none => score
      | some old => if old < score then score else old) := by
  unfold keepBest
  cases h : best.at? target with
  | none => exact Table.at?_put_self best target score
  | some old =>
    by_cases hlt : old < score
    · simp only [if_pos hlt]
      exact Table.at?_put_self best target score
    · simp only [if_neg hlt]
      exact h

theorem sorted_keepBest (h : best.Sorted) : (keepBest best target score).Sorted := by
  unfold keepBest
  split
  · split
    · exact h.put target score
    · exact h
  · exact h.put target score

/-- Does a table have the greatest score of each target? -/
structure Greatest (ts : List TargetScore) (best : Table Double) : Prop where
  sorted : best.Sorted
  absent : ∀ target, best.at? target = none → ∀ t ∈ ts, t.target ≠ target
  reached : ∀ target s, best.at? target = some s →
    ∃ t ∈ ts, t.target = target ∧ normalizedScore t.score = s
  bound : ∀ target s, best.at? target = some s →
    ∀ t ∈ ts, t.target = target → normalizedScore t.score ≤ s

theorem Greatest.isScore (h : Greatest ts best) (hs : best.at? target = some s) : IsScore s := by
  obtain ⟨t, -, -, rfl⟩ := h.reached target s hs
  exact isScore_normalizedScore t.score

theorem Greatest.keepBest (h : Greatest ts best) (t : TargetScore) :
    Greatest (ts ++ [t]) (keepBest best t.target (normalizedScore t.score)) := by
  have hscore := isScore_normalizedScore t.score
  have hrefl : normalizedScore t.score ≤ normalizedScore t.score :=
    (Binary.le_iff_rank hscore.1 hscore.1).mpr (Int.le_refl _)
  refine ⟨sorted_keepBest h.sorted, fun target hnone => ?_, fun target s hs => ?_,
    fun target s hs => ?_⟩
  · by_cases htarget : target = t.target
    · rw [htarget, at?_keepBest_self] at hnone
      simp at hnone
    · rw [at?_keepBest_of_ne htarget] at hnone
      rw [List.forall_mem_append, List.forall_mem_singleton]
      exact ⟨h.absent target hnone, Ne.symm htarget⟩
  · by_cases htarget : target = t.target
    · subst htarget
      rw [at?_keepBest_self, Option.some.injEq] at hs
      -- the best score of this target is the old one or the new one
      cases hbest : best.at? t.target with
      | none => exact ⟨t, by simp, rfl, by simpa [hbest] using hs⟩
      | some old =>
        simp only [hbest] at hs
        by_cases hlt : old < normalizedScore t.score
        · rw [if_pos hlt] at hs
          exact ⟨t, by simp, rfl, hs⟩
        · rw [if_neg hlt] at hs
          obtain ⟨t', ht', heq, hs'⟩ := h.reached _ _ hbest
          exact ⟨t', by simp [ht'], heq, hs'.trans hs⟩
    · rw [at?_keepBest_of_ne htarget] at hs
      obtain ⟨t', ht', heq, hs'⟩ := h.reached _ _ hs
      exact ⟨t', by simp [ht'], heq, hs'⟩
  · rw [List.forall_mem_append, List.forall_mem_singleton]
    by_cases htarget : target = t.target
    · subst htarget
      rw [at?_keepBest_self, Option.some.injEq] at hs
      cases hbest : best.at? t.target with
      | none =>
        have hs : normalizedScore t.score = s := by simpa [hbest] using hs
        exact ⟨fun t' ht' heq => absurd heq (h.absent _ hbest t' ht'), fun _ => hs ▸ hrefl⟩
      | some old =>
        have hold := h.isScore hbest
        simp only [hbest] at hs
        by_cases hlt : old < normalizedScore t.score
        · rw [if_pos hlt] at hs
          subst hs
          refine ⟨fun t' ht' heq => ?_, fun _ => hrefl⟩
          have hle := h.bound _ _ hbest t' ht' heq
          have hscore' := isScore_normalizedScore t'.score
          rw [Binary.le_iff_rank hscore'.1 hold.1] at hle
          rw [Binary.lt_iff_rank hold.1 hscore.1] at hlt
          rw [Binary.le_iff_rank hscore'.1 hscore.1]
          omega
        · rw [if_neg hlt] at hs
          subst hs
          refine ⟨h.bound _ _ hbest, fun _ => ?_⟩
          rw [Binary.lt_iff_rank hold.1 hscore.1] at hlt
          rw [Binary.le_iff_rank hscore.1 hold.1]
          omega
    · rw [at?_keepBest_of_ne htarget] at hs
      exact ⟨h.bound _ _ hs, fun heq => absurd heq.symm htarget⟩

theorem greatest_scores (r : Report) : Greatest r.coverage r.scores := by
  unfold scores
  induction r.coverage using List.reverseRecOn with
  | nil => exact ⟨.nil, by simp, by simp [Table.at?], by simp⟩
  | append_singleton ts t ih =>
    rw [List.foldl_append]
    exact ih.keepBest t

end Report

namespace Evaluated

variable {e : Evaluated} {target : String} {s : Double}

/-- Does the report of a candidate name a target? -/
def reports (e : Evaluated) (target : String) : Bool := e.report.coverage.any (·.target = target)

theorem isSome_score? (e : Evaluated) (target : String) :
    (e.score? target).isSome = e.reports target := by
  have hgreatest := e.report.greatest_scores
  rw [Bool.eq_iff_iff, reports, List.any_eq_true]
  constructor
  · intro h
    obtain ⟨s, hs⟩ := Option.isSome_iff_exists.mp h
    obtain ⟨t, ht, htarget, -⟩ := hgreatest.reached target s hs
    exact ⟨t, ht, by simpa using htarget⟩
  · rintro ⟨t, ht, htarget⟩
    by_contra hnone
    rw [Option.not_isSome_iff_eq_none] at hnone
    exact hgreatest.absent target hnone t ht (by simpa using htarget)

theorem isScore_of_score? (h : e.score? target = some s) : IsScore s :=
  e.report.greatest_scores.isScore h

theorem score?_of_mem (h : (target, s) ∈ e.scores) : e.score? target = some s :=
  e.report.greatest_scores.sorted.at?_of_mem h

theorem isScore_of_mem {entry : String × Double} (h : entry ∈ e.scores) : IsScore entry.2 :=
  isScore_of_score? (score?_of_mem h)

end Evaluated
end CallEvolution
