import CallEvolution.Proofs.ArchiveHistory

/-! Offers to an archive. A candidate takes over exactly the targets that yield to it before the offer, since
a target that changes hands bears on no other one. So what an offer does can be told before it is made, and
making it again does nothing. -/

namespace CallEvolution.Archive

variable {a b : Archive} {e : Evaluated} {target other : String} {s : Double} {entries : Table Double}

theorem yields_congr (h : a.holdings.at? target = b.holdings.at? target) (s : Double) (size : Nat) :
    a.yields target s size = b.yields target s size := by
  unfold yields
  rw [h]

theorem offerFor_of_yields (hs : s.isFinite = true) (h : a.yields target s e.size = true) (i : Improvement) :
    offerFor e (i, a) (target, s) =
      (⟨i.targets ++ [target], i.gain + (s - (a.bestScore? target).getD 0)⟩, a.handOver target s e) := by
  simp only [offerFor, hs, h, Bool.and_self, if_true]

theorem offerFor_of_not_yields (h : a.yields target s e.size = false) (i : Improvement) :
    offerFor e (i, a) (target, s) = (i, a) := by
  simp [offerFor, h]

theorem yields_handOver_of_ne (h : target ≠ other) (s r : Double) (size : Nat) :
    (a.handOver other s e).yields target r size = a.yields target r size :=
  yields_congr (Table.at?_put_of_ne _ h _) r size

/-- Offering entries of a sorted table takes over those of their targets that yield beforehand. -/
theorem targets_foldl_offerFor (hsorted : entries.Sorted)
    (hfinite : ∀ entry ∈ entries, entry.2.isFinite = true) (i : Improvement) (a : Archive) :
    (entries.foldl (offerFor e) (i, a)).1.targets =
      i.targets ++ Table.keys (entries.filter fun entry => a.yields entry.1 entry.2 e.size) := by
  induction entries generalizing i a with
  | nil => simp [Table.keys]
  | cons entry rest ih =>
    obtain ⟨target, s⟩ := entry
    rw [List.forall_mem_cons] at hfinite
    simp only [Table.Sorted, Table.keys, List.map_cons, List.pairwise_cons] at hsorted
    rw [List.foldl_cons]
    cases hyields : a.yields target s e.size with
    | false =>
      rw [offerFor_of_not_yields hyields, ih hsorted.2 hfinite.2, List.filter_cons, if_neg (by simp [hyields])]
    | true =>
      -- the targets behind this one still yield as they did
      have hrest : ∀ entry ∈ rest, (a.handOver target s e).yields entry.1 entry.2 e.size =
          a.yields entry.1 entry.2 e.size := by
        intro entry hentry
        have hlt := hsorted.1 entry.1 (List.mem_map_of_mem hentry)
        exact yields_handOver_of_ne (fun heq => String.lt_irrefl _ (heq ▸ hlt)) _ _ _
      rw [offerFor_of_yields hfinite.1 hyields, ih hsorted.2 hfinite.2, List.filter_congr hrest,
        List.filter_cons, if_pos hyields]
      simp [Table.keys]

/-- The targets that an offer improves are those that yield to the candidate beforehand. -/
theorem targets_offer (a : Archive) (e : Evaluated) :
    (a.offer e).1.targets = Table.keys (e.scores.filter fun entry => a.yields entry.1 entry.2 e.size) :=
  targets_foldl_offerFor e.report.greatest_scores.sorted (fun _ h => (Evaluated.isScore_of_mem h).1) {} a

theorem mem_targets_offer : target ∈ (a.offer e).1.targets ↔
    ∃ s, e.score? target = some s ∧ a.yields target s e.size = true := by
  rw [targets_offer, Table.keys, List.mem_map]
  constructor
  · rintro ⟨⟨target, s⟩, hmem, rfl⟩
    obtain ⟨hscore, hyields⟩ := List.mem_filter.mp hmem
    exact ⟨s, Evaluated.score?_of_mem hscore, hyields⟩
  · rintro ⟨s, hs, hyields⟩
    exact ⟨(target, s), List.mem_filter.mpr ⟨Table.mem_of_at? hs, hyields⟩, rfl⟩

theorem nodup_targets_offer (a : Archive) (e : Evaluated) : (a.offer e).1.targets.Nodup := by
  rw [targets_offer]
  exact e.report.greatest_scores.sorted.nodup_keys.sublist (List.filter_sublist.map _)

/-- What is told before an offer is what the offer reports. -/
theorem wouldImprove_eq (a : Archive) (e : Evaluated) : a.wouldImprove e = (a.offer e).1.isReal := by
  rw [Improvement.isReal, targets_offer, Bool.eq_iff_iff, Bool.not_eq_true', List.isEmpty_eq_false_iff,
    Table.keys, Ne, List.map_eq_nil_iff, List.filter_eq_nil_iff, wouldImprove, List.any_eq_true]
  push Not
  rfl

/-- A target that changes hands has one improvement more, so its holding is another one. -/
theorem at?_handOver_ne (a : Archive) (e : Evaluated) (target : String) (s : Double) :
    (a.handOver target s e).holdings.at? target ≠ a.holdings.at? target := by
  rw [handOver, Table.at?_put_self]
  intro heq
  cases hat : a.holdings.at? target with
  | none =>
    rw [hat] at heq
    cases heq
  | some h =>
    rw [hat, Option.some.injEq] at heq
    have himprovements := congrArg Holding.improvements heq
    simp at himprovements

/-- The holding of a target changes if and only if the target is reported as improved. -/
theorem mem_targets_offer_iff_ne (a : Archive) (e : Evaluated) (target : String) :
    target ∈ (a.offer e).1.targets ↔ (a.offer e).2.holdings.at? target ≠ a.holdings.at? target := by
  rw [mem_targets_offer, (at?_offer a e target).2]
  cases hs : e.score? target with
  | none => simp [outcome]
  | some s =>
    cases hyields : a.yields target s e.size with
    | false => simp [outcome, hyields]
    | true => simp [outcome, hyields, at?_handOver_ne a e target s]

theorem yields_of_not_wouldImprove (h : a.wouldImprove e = false) :
    ∀ entry ∈ e.scores, a.yields entry.1 entry.2 e.size = false := by
  intro entry hentry
  simpa using List.any_eq_false.mp h entry hentry

/-- A candidate that would not improve the archive leaves it as it is. -/
theorem offer_of_not_wouldImprove (h : a.wouldImprove e = false) : a.offer e = ({}, a) := by
  have hyields := yields_of_not_wouldImprove h
  rw [offer]
  generalize e.scores = entries at hyields
  induction entries with
  | nil => rfl
  | cons entry rest ih =>
    rw [List.forall_mem_cons] at hyields
    rw [List.foldl_cons, offerFor_of_not_yields hyields.1]
    exact ih hyields.2

/-- A target that a candidate was offered for does not yield to it any more. -/
theorem not_yields_offer (hs : e.score? target = some s) :
    (a.offer e).2.yields target s e.size = false := by
  have hat := (at?_offer a e target).2
  have hfinite := (Evaluated.isScore_of_score? hs).1
  rw [hs, outcome] at hat
  cases hyields : a.yields target s e.size with
  | false =>
    rw [hyields, if_neg Bool.false_ne_true] at hat
    rwa [yields_congr hat]
  | true =>
    rw [hyields, if_pos rfl] at hat
    have hnot : ¬ s < s := fun hlt => Int.lt_irrefl _ ((Binary.lt_iff_rank hfinite hfinite).mp hlt)
    rw [yields_congr hat]
    simp [yields, handOver, Table.at?_put_self, hnot]

theorem not_wouldImprove_offer (a : Archive) (e : Evaluated) : (a.offer e).2.wouldImprove e = false := by
  rw [wouldImprove, List.any_eq_false]
  intro entry hentry
  have hnot := not_yields_offer (a := a) (Evaluated.score?_of_mem hentry)
  simpa using hnot

/-- Whether an offer improves an archive is told beforehand. The improved targets are those whose holdings
change, each named once; an offer without improvement changes nothing, and neither does the same offer made
again. -/
theorem offer_as_foretold (a : Archive) (e : Evaluated) :
    let improvement := (a.offer e).1
    let after := (a.offer e).2
    a.wouldImprove e = improvement.isReal ∧
    improvement.targets.Nodup ∧
    (∀ target, target ∈ improvement.targets ↔ after.holdings.at? target ≠ a.holdings.at? target) ∧
    (improvement.isReal = false → after = a) ∧
    after.wouldImprove e = false ∧
    after.offer e = ({}, after) := by
  refine ⟨wouldImprove_eq a e, nodup_targets_offer a e, mem_targets_offer_iff_ne a e, fun hnone => ?_,
    not_wouldImprove_offer a e, offer_of_not_wouldImprove (not_wouldImprove_offer a e)⟩
  rw [← wouldImprove_eq] at hnone
  exact congrArg Prod.snd (offer_of_not_wouldImprove hnone)

end CallEvolution.Archive
