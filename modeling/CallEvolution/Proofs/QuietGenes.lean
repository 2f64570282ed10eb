import CallEvolution.Proofs.SafeDraws
import CallEvolution.Proofs.Templates

/-! Genes that keep clear of a fault. Only extreme bounds lead to one: a gene within ordinary bounds is drawn
and changed without, and stays such a gene. -/

namespace CallEvolution

/-- Do the bounds of a gene lead to the fault at the extreme? Days and moments have none, but are moved by
`shift` seconds at most. -/
def Gene.Provokes (shift : Int64) (f : Fault) : Gene → Prop
  | float _ low high => f = .unboundedRange ∧ low < high ∧ ¬ (high - low).isFinite = true
  | double _ low high => f = .unboundedRange ∧ low < high ∧ ¬ (high - low).isFinite = true
  | string _ _ maxLength => f = .unboundedRoom ∧ textRoom ≤ maxLength
  | choice values _ => f = .overflow ∧ twoPow 64 ≤ 2 * (values.length - 1)
  | date _ | moment _ => f = .unboundedSpan ∧ longestSpan < shift.toInt
  | array _ _ maxSize | map _ _ maxSize => f = .unboundedRoom ∧ RandomEdit.roomLimit ≤ maxSize
  | _ => False

namespace Gene

variable {shift : Int64} {f : Fault} {g : Gene}

theorem provokes_rename (h : NodeId → NodeId) : (g.rename h).Provokes shift f ↔ g.Provokes shift f := by
  cases g <;> rfl

theorem provokes_blank : g.blank.Provokes shift f ↔ g.Provokes shift f := by
  cases g <;> rfl

theorem provokes_withMembers (items : List NodeId) :
    (g.withMembers items).Provokes shift f ↔ g.Provokes shift f := by
  cases g <;> rfl

theorem allowsChange_blank (g : Gene) : g.blank.allowsChange = g.allowsChange := by
  cases g <;> rfl

/-- A collection that does not lead to the fault has room for its members. -/
theorem capacity_lt_of_quiet (hquiet : ¬ g.Provokes shift f) (hc : g.isCollection = true)
    (h : f = .unboundedRoom) : g.capacity < RandomEdit.roomLimit := by
  cases g
  case array | map => exact not_le.mp fun hlarge => hquiet ⟨h, hlarge⟩
  all_goals cases hc

end Gene

/-- Does a node lie within its bounds, and do these not lead to the fault, whichever of the shifts is made? -/
def QuietAt (shifts : List Int64) (f : Fault) (g : Gene) (parts : List GeneTerm) : Prop :=
  (DomainAt g parts ∧ PatternAt g parts) ∧ ∀ shift ∈ shifts, ¬ g.Provokes shift f

theorem lasts_quietAt (shifts : List Int64) (f : Fault) : Lasts (QuietAt shifts f) := by
  refine (lasts_domainAt.and lasts_patternAt).and ?_
  refine ⟨fun h g _ => ?_, fun _ h => h, fun _ hg h shift hs => ?_, fun _ _ _ h shift hs => ?_,
    fun _ _ _ _ h shift hs => ?_⟩
  · exact forall₂_congr fun _ _ => not_congr (Gene.provokes_rename h)
  · rw [← Gene.provokes_blank, hg.blank, Gene.provokes_blank]
    exact h shift hs
  · rw [Gene.provokes_withMembers]
    exact h shift hs
  · rw [Gene.provokes_withMembers]
    exact h shift hs

namespace Binary

variable {F : Format} {f : Fault} {value low high : Binary F}

/-- Bounds that do not lead to the fault have a finite width. -/
theorem isFinite_sub_of_quiet (hlt : low < high)
    (hquiet : ¬ (f = .unboundedRange ∧ low < high ∧ ¬ (high - low).isFinite = true))
    (h : f = .unboundedRange) : (high - low).isFinite = true :=
  not_not.mp fun hwide => hquiet ⟨h, hlt, hwide⟩

theorem isFinite_of_quiet (hlt : low < high)
    (hquiet : ¬ (f = .unboundedRange ∧ low < high ∧ ¬ (high - low).isFinite = true))
    (hlow : low ≤ value) (hhigh : value ≤ high) (h : f = .unboundedRange) : value.isFinite = true := by
  obtain ⟨hmin, hmax, -⟩ := sub_nonneg hlt (isFinite_sub_of_quiet hlt hquiet h)
  exact isFinite_of_between hmin hmax hlow hhigh

end Binary

namespace Draw

variable {γ : Type} {f : Fault} [RandomSource γ] {g old fresh : Gene} {shift : Int64}
  (hf : f ≠ .endlessRedraw)

include hf

theorem spares_leaf? (hdomain : g.InDomain) (hquiet : ¬ g.Provokes shift f) :
    Spares f (leaf? g : Draw γ (Option Gene)) := by
  cases g
  case integer value min max =>
    exact (spares_int32 hf (Int32.le_trans hdomain.1 hdomain.2)).bind fun _ _ => .pure _
  case long value min max =>
    exact (spares_int64 hf (Int64.le_trans hdomain.1 hdomain.2)).bind fun _ _ => .pure _
  case float value low high =>
    simp only [leaf?]
    split
    · next hlt =>
      exact (spares_real hf _ _ hlt (Binary.isFinite_sub_of_quiet hlt hquiet)).bind fun _ _ => .pure _
    · exact .pure _
  case double value low high =>
    simp only [leaf?]
    split
    · next hlt =>
      exact (spares_real hf _ _ hlt (Binary.isFinite_sub_of_quiet hlt hquiet)).bind fun _ _ => .pure _
    · exact .pure _
  case boolean => exact spares_half.bind fun _ _ => .pure _
  case string value min max =>
    refine (spares_count hf (hdomain.1.trans hdomain.2)).bind fun n hn => ?_
    refine (spares_text hf fun h => ?_).bind fun _ _ => .pure _
    exact (count_mem hn).2.trans_lt (not_le.mp fun hlong => hquiet ⟨h, hlong⟩)
  case choice values index =>
    simp only [leaf?]
    split
    · exact .pure _
    · next hsome =>
      have hpos : 0 < values.length := List.length_pos_iff.mpr (by simpa using hsome)
      exact (spares_index hf hpos).bind fun _ _ => .pure _
  case date => exact (spares_date hf).bind fun _ _ => .pure _
  case time => exact (spares_time hf).bind fun _ _ => .pure _
  case moment => exact (spares_date hf).bind fun _ _ => (spares_time hf).bind fun _ _ => .pure _
  all_goals exact .pure _

omit hf in
theorem spares_leafUnlike (hleaf : Spares f (leaf? old : Draw γ (Option Gene))) (attempts : Nat)
    (fresh : Gene) : Spares f (leafUnlike old attempts fresh : Draw γ Gene) := by
  induction attempts generalizing fresh with
  | zero => exact .pure fresh
  | succ attempts ih =>
    rw [leafUnlike]
    split
    · exact hleaf.bind fun _ _ => ih _
    · exact .pure fresh

theorem spares_moveOn (h : fresh.allowsChange = true) : Spares f (moveOn fresh : Draw γ Gene) := by
  cases fresh
  case choice values index =>
    have hmany : 1 < values.length := of_decide_eq_true h
    exact (spares_count hf (by omega)).bind fun _ _ => .pure _
  all_goals exact .pure _

theorem spares_newLeaf (hdomain : old.InDomain) (hquiet : ¬ old.Provokes shift f)
    (h : fresh.allowsChange = true) : Spares f (newLeaf old fresh : Draw γ Gene) := by
  have hrest := spares_leafUnlike (spares_leaf? (γ := γ) hf hdomain hquiet) newValueAttempts
  unfold newLeaf
  split
  · exact (spares_moveOn hf h).bind fun _ _ => hrest _
  · exact hrest _

end Draw

namespace MutationSettings

variable {c : MutationSettings}

theorem chance_of_require {setting : String} {p : Double} {u : Unit} (h : requireChance setting p = .ok u) :
    0 ≤ p ∧ p ≤ 1 := by
  by_contra hnot
  rw [requireChance, if_neg hnot] at h
  cases h

theorem chances_of_validate (h : c.validate = .ok ()) :
    (0 ≤ c.growProbability ∧ c.growProbability ≤ 1) ∧ (0 ≤ c.shrinkProbability ∧ c.shrinkProbability ≤ 1) ∧
      (0 ≤ c.resampleProbability ∧ c.resampleProbability ≤ 1) ∧
        (0 ≤ c.toggleProbability ∧ c.toggleProbability ≤ 1) := by
  have hcheck : c.check = .ok () := by
    rw [validate] at h
    cases hc : c.check with
    | error e =>
      rw [hc] at h
      cases h
    | ok u => rfl
  obtain ⟨_, hgrow, hcheck⟩ := ok_of_bind hcheck
  obtain ⟨_, hshrink, hcheck⟩ := ok_of_bind hcheck
  obtain ⟨_, hresample, hcheck⟩ := ok_of_bind hcheck
  obtain ⟨_, htoggle, -⟩ := ok_of_bind hcheck
  exact ⟨chance_of_require hgrow, chance_of_require hshrink, chance_of_require hresample,
    chance_of_require htoggle⟩

end MutationSettings

namespace Draw

variable {γ : Type} {f : Fault} [RandomSource γ] {g : Gene} {c : MutationSettings}
  (hf : f ≠ .endlessRedraw)

include hf

theorem spares_mutatedLeaf (hc : c.validate = .ok ()) (hdomain : g.InDomain) (hbounded : g.Bounded)
    (hquiet : ¬ g.Provokes c.maxTimeShift f) (hopen : g.allowsChange = true) :
    Spares f (mutatedLeaf c g : Draw γ Gene) := by
  obtain ⟨-, -, ⟨hlow, hhigh⟩, -⟩ := MutationSettings.chances_of_validate hc
  refine (spares_chance hlow hhigh).bind fun resample _ => ?_
  have hlong : (longestSpan : Int) = 9223372036854775 := rfl
  cases g
  case integer value min max =>
    dsimp only
    split
    · exact (spares_int32 hf (Int32.le_trans hdomain.1 hdomain.2)).bind fun _ _ => .pure _
    · exact (spares_signedStep hf _).bind fun _ _ => .pure _
  case long value min max =>
    dsimp only
    split
    · exact (spares_int64 hf (Int64.le_trans hdomain.1 hdomain.2)).bind fun _ _ => .pure _
    · exact (spares_signedStep hf _).bind fun _ _ => .pure _
  case float value low high =>
    have hlt : low < high := of_decide_eq_true hopen
    have hnumber : (value.convert : Double).isNaN = false :=
      Binary.isNaN_convert.trans (Binary.not_isNaN_of_le hbounded.1).2
    have hfinite := Binary.isFinite_of_quiet hlt hquiet hbounded.1 hbounded.2
    dsimp only
    split
    · exact (spares_real hf _ _ hlt (Binary.isFinite_sub_of_quiet hlt hquiet)).bind fun _ _ => .pure _
    · refine (spares_realStep hf hnumber fun h => ?_).bind fun _ _ => .pure _
      exact Binary.isFinite_convert Format.embeds_single_double (hfinite h)
  case double value low high =>
    have hlt : low < high := of_decide_eq_true hopen
    have hnumber : value.isNaN = false := (Binary.not_isNaN_of_le hbounded.1).2
    have hfinite := Binary.isFinite_of_quiet hlt hquiet hbounded.1 hbounded.2
    dsimp only
    split
    · exact (spares_real hf _ _ hlt (Binary.isFinite_sub_of_quiet hlt hquiet)).bind fun _ _ => .pure _
    · exact (spares_realStep hf hnumber hfinite).bind fun _ _ => .pure _
  case string value min max =>
    have hroom : f = .unboundedRoom → max < textRoom := fun h => not_le.mp fun hlong => hquiet ⟨h, hlong⟩
    exact (spares_mutatedText hf (hdomain.1.trans hdomain.2) hroom resample).bind fun _ _ => .pure _
  case choice values i =>
    have hmany : 1 < values.length := of_decide_eq_true hopen
    have hi : i < values.length := hdomain (List.ne_nil_of_length_pos (by omega))
    dsimp only
    rw [if_pos hmany]
    refine (spares_count hf (by omega)).bind fun shift hshift => ?_
    have hle := (count_mem hshift).2
    split
    · next hlarge =>
      exact Spares.bind (.fault fun h => hquiet ⟨h.symm, by omega⟩) fun _ _ => .pure _
    · exact .pure _
  case date d =>
    refine (spares_signedStep hf _).bind fun days hdays => ?_
    have hmem := signedStep_mem hdays
    refine Spares.bind (spares_requireSpan fun h => ?_) fun _ _ => .pure _
    have hshort : c.maxTimeShift.toInt ≤ longestSpan := not_lt.mp fun hlong => hquiet ⟨h, hlong⟩
    have hdays := days_le (n := c.maxTimeShift.toInt)
    generalize c.maxTimeShift.toInt.tdiv 86400 = whole at hmem hdays
    split_ifs at hmem <;> omega
  case time => exact (spares_signedStep hf _).bind fun _ _ => .pure _
  case moment m =>
    refine (spares_signedStep hf _).bind fun seconds hseconds => ?_
    have hmem := signedStep_mem hseconds
    refine Spares.bind (spares_requireSpan fun h => ?_) fun _ _ => .pure _
    have hshort : c.maxTimeShift.toInt ≤ longestSpan := not_lt.mp fun hlong => hquiet ⟨h, hlong⟩
    split at hmem <;> omega
  all_goals exact .pure _

end Draw

end CallEvolution
