import CallEvolution.Gene.Adopt
import CallEvolution.Proofs.Draws
import CallEvolution.Proofs.GeneTerm

/-! Leaves that differ from others by their value only. A value that is drawn, changed a little or taken
over lies within the bounds, if the old one does. -/

namespace CallEvolution

open GeneTree (within)

namespace Gene

/-- Does a gene have a value of its domain? Whether the members of a collection are told apart by their
names is seen at the nodes below. -/
def InDomain : Gene → Prop
  | integer value min max => min ≤ value ∧ value ≤ max
  | long value min max => min ≤ value ∧ value ≤ max
  | string value minLength maxLength => minLength ≤ value.length ∧ value.length ≤ maxLength
  | choice values index => values ≠ [] → index < values.length
  | array _ elements maxSize => elements.length ≤ maxSize
  | map _ entries maxSize => entries.length ≤ maxSize
  | _ => True

/-- Does a binary number lie within its bounds? -/
def Bounded : Gene → Prop
  | float value min max => min ≤ value ∧ value ≤ max
  | double value min max => min ≤ value ∧ value ≤ max
  | _ => True

/-- Does a gene have another value only, and one within the bounds if the old one is? -/
structure Varies (g k : Gene) : Prop where
  blank : k.blank = g.blank
  inDomain : g.InDomain → k.InDomain
  bounded : g.Bounded → k.Bounded

theorem Varies.refl (g : Gene) : g.Varies g := ⟨rfl, id, id⟩

theorem Varies.trans {g k j : Gene} (h : g.Varies k) (h' : k.Varies j) : g.Varies j :=
  ⟨h'.blank.trans h.blank, h'.inDomain ∘ h.inDomain, h'.bounded ∘ h.bounded⟩

/-- A leaf that is assigned a scalar differs from the old one by its value only. -/
theorem varies_of_assign? {s : Scalar} {g k : Gene} (h : g.assign? s = some k) :
    g.Varies k ∧ g.isCollection = false := by
  cases g
  case integer | long | float | double =>
    obtain ⟨x, hx, rfl⟩ := Option.map_eq_some_iff.mp h
    have hwithin := (Option.filter_eq_some_iff.mp hx).2
    simp only [within, Bool.and_eq_true, decide_eq_true_eq] at hwithin
    exact ⟨⟨rfl, by simp [InDomain, hwithin], by simp [Bounded, hwithin]⟩, rfl⟩
  case choice values index =>
    obtain ⟨x, hx, rfl⟩ := Option.map_eq_some_iff.mp h
    obtain ⟨hlt, -⟩ := List.findIdx?_eq_some_iff_getElem.mp hx
    exact ⟨⟨rfl, fun _ _ => hlt, id⟩, rfl⟩
  case boolean | foreignKey | date | time | moment =>
    obtain ⟨x, -, rfl⟩ := Option.map_eq_some_iff.mp h
    exact ⟨⟨rfl, id, id⟩, rfl⟩
  case string value min max =>
    rw [assign?] at h
    split at h
    · next hwithin =>
      simp only [within, Bool.and_eq_true, decide_eq_true_eq] at hwithin
      cases h
      exact ⟨⟨rfl, fun _ => hwithin, id⟩, rfl⟩
    · cases h
  all_goals cases h

end Gene

theorem clampInt_mem {x low high : Int} (h : low ≤ high) :
    low ≤ clampInt x low high ∧ clampInt x low high ≤ high := by
  unfold clampInt
  split
  · omega
  · split <;> omega

theorem moveWithin_mem {value delta low high : Int} (h : low ≤ high) :
    low ≤ moveWithin value delta low high ∧ moveWithin value delta low high ≤ high := by
  simp only [moveWithin]
  split
  · exact clampInt_mem h
  · exact clampInt_mem h

theorem moveRealWithin_mem {value delta low high : Double} (hvalue : value.isNaN = false)
    (hdelta : delta.isFinite = true) (h : low ≤ high) :
    low ≤ moveRealWithin value delta low high ∧ moveRealWithin value delta low high ≤ high := by
  simp only [moveRealWithin]
  split
  · exact Binary.clamp_mem (Binary.isNaN_add hvalue hdelta) h
  · exact Binary.clamp_mem (Binary.isNaN_add hvalue (Binary.isFinite_neg hdelta)) h

namespace Draw

variable {γ : Type} [RandomSource γ] {g k old : Gene}

/-- A leaf that has been drawn differs from the old one by its value only. -/
theorem varies_of_leaf? (h : Gives (leaf? g : Draw γ (Option Gene)) (some k)) :
    g.Varies k ∧ g.isCollection = false := by
  cases g
  case integer value min max =>
    obtain ⟨x, hx, h⟩ := gives_of_bind h
    cases eq_of_gives_pure h
    exact ⟨⟨rfl, fun _ => int32_mem hx, id⟩, rfl⟩
  case long value min max =>
    obtain ⟨x, hx, h⟩ := gives_of_bind h
    cases eq_of_gives_pure h
    exact ⟨⟨rfl, fun _ => int64_mem hx, id⟩, rfl⟩
  case boolean | date | time =>
    obtain ⟨x, -, h⟩ := gives_of_bind h
    cases eq_of_gives_pure h
    exact ⟨⟨rfl, id, id⟩, rfl⟩
  case float value min max | double value min max =>
    simp only [leaf?] at h
    split at h
    · obtain ⟨x, hx, h⟩ := gives_of_bind h
      cases eq_of_gives_pure h
      exact ⟨⟨rfl, id, fun _ => (real_mem hx).2.2⟩, rfl⟩
    · cases eq_of_gives_pure h
      exact ⟨⟨rfl, id, fun hold => ⟨Binary.le_refl_of_le hold.1, Binary.le_trans hold.1 hold.2⟩⟩, rfl⟩
  case string value min max =>
    obtain ⟨n, hn, h⟩ := gives_of_bind h
    obtain ⟨x, hx, h⟩ := gives_of_bind h
    cases eq_of_gives_pure h
    refine ⟨⟨rfl, fun _ => ?_, id⟩, rfl⟩
    rw [Gene.InDomain, length_text hx]
    exact count_mem hn
  case moment =>
    obtain ⟨x, -, h⟩ := gives_of_bind h
    obtain ⟨y, -, h⟩ := gives_of_bind h
    cases eq_of_gives_pure h
    exact ⟨⟨rfl, id, id⟩, rfl⟩
  case choice values index =>
    simp only [leaf?] at h
    split at h
    · next hempty =>
      cases eq_of_gives_pure h
      exact ⟨⟨rfl, fun _ hne => absurd (List.isEmpty_iff.mp hempty) hne, id⟩, rfl⟩
    · obtain ⟨x, hx, h⟩ := gives_of_bind h
      cases eq_of_gives_pure h
      exact ⟨⟨rfl, fun _ _ => index_lt hx, id⟩, rfl⟩
  all_goals cases eq_of_gives_pure h

theorem varies_of_leafUnlike {attempts : Nat} (hg : old.Varies g)
    (h : Gives (leafUnlike old attempts g : Draw γ Gene) k) : old.Varies k := by
  induction attempts generalizing g with
  | zero =>
    rw [eq_of_gives_pure h]
    exact hg
  | succ attempts ih =>
    unfold leafUnlike at h
    split at h
    · obtain ⟨r, hr, h⟩ := gives_of_bind h
      cases r with
      | none => exact ih hg h
      | some fresh => exact ih (varies_of_leaf? hr).1 h
    · rw [eq_of_gives_pure h]
      exact hg

theorem varies_of_moveOn (h : Gives (moveOn g : Draw γ Gene) k) : g.Varies k := by
  cases g
  case choice values index =>
    obtain ⟨x, -, h⟩ := gives_of_bind h
    cases eq_of_gives_pure h
    exact ⟨rfl, fun _ hne => Nat.mod_lt _ (List.length_pos_of_ne_nil hne), id⟩
  case boolean =>
    cases eq_of_gives_pure h
    exact ⟨rfl, id, id⟩
  all_goals
    cases eq_of_gives_pure h
    exact .refl _

theorem varies_of_newLeaf (hg : old.Varies g) (h : Gives (newLeaf old g : Draw γ Gene) k) :
    old.Varies k := by
  unfold newLeaf at h
  split at h
  · obtain ⟨fresh, hfresh, h⟩ := gives_of_bind h
    exact varies_of_leafUnlike (hg.trans (varies_of_moveOn hfresh)) h
  · exact varies_of_leafUnlike hg h

/-- A mutated leaf differs from the old one by its value only. -/
theorem varies_of_mutatedLeaf {c : MutationSettings}
    (hk : Gives (mutatedLeaf c g : Draw γ Gene) k) : g.Varies k := by
  obtain ⟨resample, -, h⟩ := gives_of_bind hk
  clear hk
  cases g
  case integer value min max =>
    dsimp only at h
    split at h
    · obtain ⟨x, hx, h⟩ := gives_of_bind h
      cases eq_of_gives_pure h
      exact ⟨rfl, fun _ => int32_mem hx, id⟩
    · obtain ⟨x, -, h⟩ := gives_of_bind h
      cases eq_of_gives_pure h
      refine ⟨rfl, fun hold => ofInt32_mem (moveWithin_mem ?_), id⟩
      exact (Int32.le_iff_toInt_le.mp hold.1).trans (Int32.le_iff_toInt_le.mp hold.2)
  case long value min max =>
    dsimp only at h
    split at h
    · obtain ⟨x, hx, h⟩ := gives_of_bind h
      cases eq_of_gives_pure h
      exact ⟨rfl, fun _ => int64_mem hx, id⟩
    · obtain ⟨x, -, h⟩ := gives_of_bind h
      cases eq_of_gives_pure h
      refine ⟨rfl, fun hold => ofInt64_mem (moveWithin_mem ?_), id⟩
      exact (Int64.le_iff_toInt_le.mp hold.1).trans (Int64.le_iff_toInt_le.mp hold.2)
  case float value min max =>
    dsimp only at h
    split at h
    · obtain ⟨x, hx, h⟩ := gives_of_bind h
      cases eq_of_gives_pure h
      exact ⟨rfl, id, fun _ => (real_mem hx).2.2⟩
    · obtain ⟨x, hx, h⟩ := gives_of_bind h
      cases eq_of_gives_pure h
      refine ⟨rfl, id, fun hold => ?_⟩
      have hnumber : (value.convert : Double).isNaN = false := by
        rw [Binary.isNaN_convert]
        exact (Binary.not_isNaN_of_le hold.1).2
      have hmove := moveRealWithin_mem hnumber (isFinite_realStep hx)
        (Binary.convert_le (Binary.le_trans hold.1 hold.2))
      exact Binary.convert_between Format.embeds_single_double hmove.1 hmove.2
  case double value min max =>
    dsimp only at h
    split at h
    · obtain ⟨x, hx, h⟩ := gives_of_bind h
      cases eq_of_gives_pure h
      exact ⟨rfl, id, fun _ => (real_mem hx).2.2⟩
    · obtain ⟨x, hx, h⟩ := gives_of_bind h
      cases eq_of_gives_pure h
      refine ⟨rfl, id, fun hold => ?_⟩
      exact moveRealWithin_mem (Binary.not_isNaN_of_le hold.1).2 (isFinite_realStep hx)
        (Binary.le_trans hold.1 hold.2)
  case choice values index =>
    dsimp only at h
    split at h
    · obtain ⟨x, -, h⟩ := gives_of_bind h
      split at h
      · obtain ⟨y, hy, h⟩ := gives_of_bind h
        exact absurd hy not_gives_fault
      · cases eq_of_gives_pure h
        exact ⟨rfl, fun _ hne => Nat.mod_lt _ (List.length_pos_of_ne_nil hne), id⟩
    · cases eq_of_gives_pure h
      exact ⟨rfl, fun _ hne => List.length_pos_of_ne_nil hne, id⟩
  case string value min max =>
    obtain ⟨x, hx, h⟩ := gives_of_bind h
    cases eq_of_gives_pure h
    exact ⟨rfl, fun hold => length_mutatedText hold.1 hold.2 hx, id⟩
  case boolean =>
    cases eq_of_gives_pure h
    exact ⟨rfl, id, id⟩
  case time =>
    obtain ⟨x, -, h⟩ := gives_of_bind h
    cases eq_of_gives_pure h
    exact ⟨rfl, id, id⟩
  case date | moment =>
    obtain ⟨x, -, h⟩ := gives_of_bind h
    obtain ⟨y, -, h⟩ := gives_of_bind h
    cases eq_of_gives_pure h
    exact ⟨rfl, id, id⟩
  all_goals
    cases eq_of_gives_pure h
    exact .refl _

end Draw
end CallEvolution
