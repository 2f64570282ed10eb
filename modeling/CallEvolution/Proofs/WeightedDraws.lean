import CallEvolution.Evaluation.Archive
import CallEvolution.Proofs.Refusals
import CallEvolution.Proofs.SafeSteps
import CallEvolution.Proofs.Shares
import CallEvolution.Proofs.Starvation
import CallEvolution.Random.Words
import CallEvolution.Variation.Mutator

/-! Draws by weight, for weights of any kind. A draw that ends gives a position of the list, and weights that
are not usable are passed over for an even draw. What keeps a draw of usable weights from its end is a total
that is not finite. -/

namespace CallEvolution

open Binary Format

namespace Binary

variable {x y : Double} {m n : Nat}

/-- Is a number not negative, at this place on the line of units? Infinity counts as the first magnitude that
is too large. -/
def HasExtent (x : Double) (m : Nat) : Prop := x.isNaN = false ∧ x.extent = m

theorem HasUnits.hasExtent (h : x.HasUnits m) : x.HasExtent m := by
  obtain ⟨s, hm, rfl, hs⟩ := h
  refine ⟨rfl, ?_⟩
  cases s with
  | false => rfl
  | true =>
    obtain rfl := hs rfl
    rfl

theorem hasExtent_zero : (0 : Double).HasExtent 0 := (hasUnits_zero double).hasExtent

namespace HasExtent

theorem le_iff (hx : x.HasExtent m) (hy : y.HasExtent n) : x ≤ y ↔ m ≤ n := by
  rw [le_iff_extent hx.1 hy.1, hx.2, hy.2, Int.ofNat_le]

theorem lt_iff (hx : x.HasExtent m) (hy : y.HasExtent n) : x < y ↔ m < n := by
  rw [lt_iff_extent hx.1 hy.1, hx.2, hy.2, Int.ofNat_lt]

theorem pos_iff (hx : x.HasExtent m) : 0 < x ↔ 0 < m := hasExtent_zero.lt_iff hx

theorem same_zero_iff (hx : x.HasExtent m) : x.same 0 = true ↔ m = 0 := by
  rw [same_iff_extent hx.1 hasExtent_zero.1, hx.2, hasExtent_zero.2, Int.natCast_inj]

end HasExtent

theorem exists_hasExtent (h : 0 ≤ x) : ∃ m, x.HasExtent m := by
  have hx := (not_isNaN_of_le h).2
  rw [le_iff_extent hasExtent_zero.1 hx, hasExtent_zero.2] at h
  exact ⟨x.extent.toNat, hx, (Int.toNat_of_nonneg h).symm⟩

theorem capped_rounded_of_le (h : twoPow double.top ≤ n) :
    double.capped (double.rounded n 1) = twoPow double.top := by
  refine Nat.min_eq_right (le_rounded Nat.one_pos ?_ (by rwa [Nat.mul_one]))
  have hpower := spacing_dvd_twoPow_mul_one double (double.top - double.fraction)
  rwa [one, ← twoPow_add, Nat.sub_add_cancel (by decide)] at hpower

/-- A sum is rounded, and infinite if it is too large. -/
theorem HasExtent.add (hx : x.HasExtent m) (hy : y.HasExtent n) :
    (x + y).HasExtent (double.capped (double.rounded (m + n) 1)) := by
  obtain ⟨hx, hm⟩ := hx
  obtain ⟨hy, hn⟩ := hy
  change (Binary.add x y).HasExtent _
  cases x with
  | nan => cases hx
  | infinity s =>
    obtain rfl := eq_false_of_extent_infinity (hm ▸ Int.natCast_nonneg m)
    have htop : twoPow double.top = m := Int.ofNat.inj hm
    rw [capped_rounded_of_le (htop.trans_le (Nat.le_add_right m n))]
    cases y with
    | nan => cases hy
    | infinity t =>
      obtain rfl := eq_false_of_extent_infinity (hn ▸ Int.natCast_nonneg n)
      exact ⟨rfl, rfl⟩
    | finite t k h => exact ⟨rfl, rfl⟩
  | finite s j h =>
    cases y with
    | nan => cases hy
    | infinity t =>
      obtain rfl := eq_false_of_extent_infinity (hn ▸ Int.natCast_nonneg n)
      have htop : twoPow double.top = n := Int.ofNat.inj hn
      rw [capped_rounded_of_le (htop.trans_le (Nat.le_add_left n m))]
      exact ⟨rfl, rfl⟩
    | finite t k h' =>
      simp only [extent] at hm hn
      simp only [Binary.add, hm, hn]
      have hsum : (m : Int) + n = (m + n : Nat) := (Int.natCast_add m n).symm
      split
      · next hzero =>
        have hnone : m + n = 0 := by omega
        rw [hnone]
        refine ⟨isNaN_round _ _ _, ?_⟩
        rw [extent_round, rounded_zero, Format.capped_zero]
        simp [signed]
      · refine ⟨isNaN_round _ _ _, ?_⟩
        rw [extent_round, hsum, Int.natAbs_natCast, decide_eq_false (by omega)]
        rfl

/-- A sum has weight if one of its parts has. -/
theorem HasExtent.pos_add_iff : 0 < double.capped (double.rounded (m + n) 1) ↔ 0 < m ∨ 0 < n := by
  have htop := twoPow_pos double.top
  constructor
  · intro h
    by_contra hnone
    have hzero : m + n = 0 := by omega
    rw [hzero, rounded_zero, Format.capped_zero] at h
    exact h.false
  · intro h
    have hone : 1 ≤ double.rounded (m + n) 1 :=
      le_rounded Nat.one_pos (Nat.one_dvd 1) (by omega)
    exact Nat.lt_min.mpr ⟨hone, htop⟩

theorem HasExtent.le_capped_add (hx : x.HasExtent m) (n : Nat) :
    m ≤ double.capped (double.rounded (m + n) 1) := by
  obtain ⟨hx, hm⟩ := hx
  cases x with
  | nan => cases hx
  | infinity s =>
    obtain rfl := eq_false_of_extent_infinity (hm ▸ Int.natCast_nonneg m)
    have htop : twoPow double.top = m := Int.ofNat.inj hm
    rw [capped_rounded_of_le (htop.trans_le (Nat.le_add_right m n))]
    exact htop.ge
  | finite s k h =>
    have hk : k = m := by
      simp only [extent, signed] at hm
      split at hm <;> omega
    rw [hk] at h
    exact Nat.le_min.mpr ⟨le_rounded Nat.one_pos h.1 (by omega), h.2.le⟩

end Binary

namespace Draw

variable {γ : Type} {weights ws vs : List Double} {sum sum' : Double}

/-- Can positions be drawn by the weights? -/
def Usable (weights : List Double) : Prop := (∀ w ∈ weights, 0 ≤ w) ∧ ∃ w ∈ weights, 0 < w

def total (weights : List Double) : Double := (cumulative weights).getLastD 0

theorem total_cons (w : Double) (ws : List Double) : total (w :: ws) = (runningSums w ws).getLastD w := by
  rw [total, cumulative, List.getLastD_cons]

/-- The sums never fall below zero, and stay there only if nothing has weight. -/
theorem nonneg_getLastD_runningSums (hsum : 0 ≤ sum) (hws : ∀ w ∈ ws, 0 ≤ w) :
    0 ≤ (runningSums sum ws).getLastD sum ∧
      (0 < (runningSums sum ws).getLastD sum ↔ 0 < sum ∨ ∃ w ∈ ws, 0 < w) := by
  induction ws generalizing sum with
  | nil => exact ⟨hsum, by simp [runningSums]⟩
  | cons w ws ih =>
    obtain ⟨hw, hws⟩ := List.forall_mem_cons.mp hws
    obtain ⟨m, hm⟩ := exists_hasExtent hsum
    obtain ⟨n, hn⟩ := exists_hasExtent hw
    have hadd := hm.add hn
    -- the sum so far is what the rest starts from, and has weight if it had any or the weight adds some
    have hnext := ih ((hasExtent_zero.le_iff hadd).mpr (Nat.zero_le _)) hws
    rw [runningSums, List.getLastD_cons, List.exists_mem_cons_iff]
    refine ⟨hnext.1, hnext.2.trans ?_⟩
    rw [hadd.pos_iff, hm.pos_iff, hn.pos_iff, HasExtent.pos_add_iff, or_assoc]

theorem usableWeights_iff (weights : List Double) : usableWeights weights = true ↔ Usable weights := by
  cases weights with
  | nil => simp [usableWeights, Usable]
  | cons w ws =>
    have hall : (w :: ws).all (fun w => 0 ≤ w) = true ↔ ∀ v ∈ w :: ws, 0 ≤ v := by simp
    rw [usableWeights, Bool.and_eq_true, Bool.and_eq_true, hall, and_assoc, Usable]
    refine (and_iff_right rfl).trans (and_congr_right fun hws => ?_)
    obtain ⟨hw, hws⟩ := List.forall_mem_cons.mp hws
    obtain ⟨hnonneg, hpos⟩ := nonneg_getLastD_runningSums hw hws
    obtain ⟨m, hm⟩ := exists_hasExtent hnonneg
    rw [List.exists_mem_cons_iff, ← hpos]
    change (!(total (w :: ws)).same 0) = true ↔ _
    rw [total_cons, hm.pos_iff, Bool.not_eq_true', ← Bool.not_eq_true, hm.same_zero_iff]
    exact Nat.pos_iff_ne_zero.symm

theorem nonneg_total (hws : ∀ w ∈ weights, 0 ≤ w) : 0 ≤ total weights := by
  cases weights with
  | nil => exact (hasExtent_zero.le_iff hasExtent_zero).mpr le_rfl
  | cons w ws =>
    obtain ⟨hw, hws⟩ := List.forall_mem_cons.mp hws
    rw [total_cons]
    exact (nonneg_getLastD_runningSums hw hws).1

/-- More weights have a larger total. -/
theorem getLastD_runningSums_le {m n : Nat} (hvs : vs.Sublist ws) (hm : sum.HasExtent m)
    (hn : sum'.HasExtent n) (hle : m ≤ n) (hws : ∀ w ∈ ws, 0 ≤ w) :
    (runningSums sum vs).getLastD sum ≤ (runningSums sum' ws).getLastD sum' := by
  induction hvs generalizing sum sum' m n with
  | slnil => exact (hm.le_iff hn).mpr hle
  | cons w hvs ih =>
    -- a weight of the longer list alone: rounding never takes its sum below where it was
    obtain ⟨hw, hws⟩ := List.forall_mem_cons.mp hws
    obtain ⟨k, hk⟩ := exists_hasExtent hw
    rw [runningSums, List.getLastD_cons]
    exact ih hm (hn.add hk) (hle.trans (hn.le_capped_add k)) hws
  | cons_cons w hvs ih =>
    obtain ⟨hw, hws⟩ := List.forall_mem_cons.mp hws
    obtain ⟨k, hk⟩ := exists_hasExtent hw
    rw [runningSums, runningSums, List.getLastD_cons, List.getLastD_cons]
    refine ih (hm.add hk) (hn.add hk) (capped_mono (rounded_mono Nat.one_pos ?_)) hws
    exact Nat.add_le_add_right hle k

theorem foldl_add (ws : List Double) (sum : Double) :
    ws.foldl (· + ·) sum = (runningSums sum ws).getLastD sum := by
  induction ws generalizing sum with
  | nil => rfl
  | cons w ws ih => rw [List.foldl_cons, runningSums, List.getLastD_cons, ih]

theorem total_le_of_sublist (hvs : vs.Sublist ws) (hws : ∀ w ∈ ws, 0 ≤ w) :
    total vs ≤ ws.foldl (· + ·) 0 := by
  have hle := getLastD_runningSums_le hvs hasExtent_zero hasExtent_zero le_rfl hws
  rw [foldl_add]
  cases vs with
  | nil => exact hle
  | cons v vs =>
    obtain ⟨hv, hvs⟩ := List.forall_mem_cons.mp fun w hw => hws w (hvs.subset hw)
    obtain ⟨k, hk⟩ := exists_hasExtent hv
    -- the fold starts at zero, the sums of the draw at the first weight
    rw [runningSums, List.getLastD_cons] at hle
    have hfirst : k ≤ Format.double.capped (Format.double.rounded (0 + k) 1) := by
      rw [Nat.add_comm]
      exact hk.le_capped_add 0
    rw [total_cons]
    exact Binary.le_trans
      (getLastD_runningSums_le (List.Sublist.refl vs) hk (hasExtent_zero.add hk) hfirst hvs) hle

variable [RandomSource γ]

theorem weighted_of_not_usable (h : ¬ Usable weights) :
    (weighted weights : Draw γ Nat) = index (max weights.length 1) := by
  rw [weighted, if_neg ((usableWeights_iff weights).not.mpr h)]

theorem weighted_of_unbounded (h : Usable weights) (htotal : (total weights).isFinite = false) :
    (weighted weights : Draw γ Nat) = fault .unboundedWeights := by
  rw [weighted, if_pos ((usableWeights_iff weights).mpr h)]
  exact if_pos (congrArg (!·) htotal)

theorem fraction_ends {F : Format} {α : Type} {discard : Nat} (f : Binary F → α) (s : γ) :
    ∃ a, (do return f (← fraction F .bits64 discard) : Draw γ α) s = .ok (a, behind 1 s) := ⟨_, rfl⟩

theorem weighted_of_bounded (h : Usable weights) (htotal : (total weights).isFinite = true) (s : γ) :
    ∃ i, (weighted weights : Draw γ Nat) s = .ok (i, behind 1 s) ∧ i < weights.length := by
  have hends : ∃ i, (weighted weights : Draw γ Nat) s = .ok (i, behind 1 s) := by
    rw [weighted, if_pos ((usableWeights_iff weights).mpr h)]
    simp only
    rw [if_neg (by simpa [total] using htotal)]
    exact fraction_ends _ s
  obtain ⟨i, hi⟩ := hends
  obtain ⟨w, hw, -⟩ := h.2
  exact ⟨i, hi, weighted_lt (List.ne_nil_of_mem hw) ⟨s, _, hi⟩⟩

theorem weighted_unbounded_iff (weights : List Double) (s : γ) :
    (weighted weights : Draw γ Nat) s = .error .unboundedWeights ↔
      Usable weights ∧ (total weights).isFinite = false := by
  constructor
  · intro hstops
    have husable : Usable weights := by
      by_contra hnot
      rw [weighted_of_not_usable hnot] at hstops
      exact spares_index (by decide) (by omega) s hstops
    refine ⟨husable, Bool.eq_false_iff.mpr fun htotal => ?_⟩
    obtain ⟨i, hi, -⟩ := weighted_of_bounded husable htotal s
    rw [hi] at hstops
    cases hstops
  · rintro ⟨husable, htotal⟩
    rw [weighted_of_unbounded husable htotal]
    rfl

theorem spares_weighted_outOfRange (weights : List Double) :
    Spares .outOfRange (weighted weights : Draw γ Nat) := by
  by_cases husable : Usable weights
  · cases htotal : (total weights).isFinite with
    | false =>
      rw [weighted_of_unbounded husable htotal]
      exact .fault (by decide)
    | true =>
      intro s
      obtain ⟨i, hi, -⟩ := weighted_of_bounded husable htotal s
      rw [hi]
      rintro ⟨⟩
  · rw [weighted_of_not_usable husable]
    exact spares_index (by decide) (by omega)

end Draw

/-- Is a member that is chosen by weight never looked for outside its list, as long as that has members? What
follows on the choice has to keep to its own lists. -/
structure ChoosesMembers (γ : Type) [RandomSource γ] : Prop where
  parent (a : Archive) : Draw.Spares .outOfRange (a.sample : Draw γ (Option Evaluated))
  part (steering : Steering) (nodes : List NodeId) (t : GeneTree) :
    nodes.filterM t.isMutable ≠ .ok [] → (∀ id, steering.childWeight t id ≠ .error .outOfRange) →
    RandomEdit.Spares .outOfRange (RandomEdit.pickMutable steering nodes : RandomEdit γ NodeId) t
  operator (s : Sampler) (operators : List (Operator × Double)) (ind : Individual) :
    operators ≠ [] →
    (∀ o ∈ operators, Draw.Spares .outOfRange (Mutator.applyOperator s ind o.1 : Attempt γ Individual).run) →
    Draw.Spares .outOfRange (Mutator.mutateStructure s operators ind : Attempt γ Mutant).run
  candidate (m : Mutator) (impacts : Option ImpactHistory) (cs : List Candidate) (ind : Individual) :
    cs ≠ [] →
    (∀ c ∈ cs, Draw.Spares .outOfRange (m.mutateGene impacts c ind : Attempt γ Mutant).run) →
    Draw.Spares .outOfRange (m.mutateCandidate impacts cs ind : Attempt γ Mutant).run

namespace ChoosesMembers

variable {γ : Type} [RandomSource γ] {α β : Type} {f : Fault} {xs : List α} {weights : List Double}

theorem length_of_mapM {ε : Type} {g : α → Except ε β} {ys : List β} (h : xs.mapM g = .ok ys) :
    ys.length = xs.length := by
  induction xs generalizing ys with
  | nil =>
    cases h
    rfl
  | cons x xs ih =>
    rw [List.mapM_cons] at h
    obtain ⟨y, -, h⟩ := ok_of_bind h
    obtain ⟨rest, hrest, h⟩ := ok_of_bind h
    cases h
    rw [List.length_cons, List.length_cons, ih hrest]

theorem getElem?_of_weighted {i : Nat} (hlength : weights.length = xs.length) (hsome : xs ≠ [])
    (h : Gives (Draw.weighted weights : Draw γ Nat) i) : ∃ x ∈ xs, xs[i]? = some x := by
  have hpos := List.length_pos_iff.mpr hsome
  have hlt := Draw.weighted_lt (List.length_pos_iff.mp (hlength ▸ hpos)) h
  rw [hlength] at hlt
  exact ⟨xs[i], List.getElem_mem hlt, List.getElem?_eq_getElem hlt⟩

omit [RandomSource γ] in
theorem spares_run_bind {d : Draw γ α} {k : α → Attempt γ β} (hd : Draw.Spares f d)
    (hk : ∀ a, Gives d a → Draw.Spares f (k a).run) : Draw.Spares f ((liftM d : Attempt γ α) >>= k).run := by
  have hrun : ((liftM d : Attempt γ α) >>= k).run = d >>= fun a => (k a).run := ExceptT.run_bind_lift d k
  rw [hrun]
  exact hd.bind hk

omit [RandomSource γ] in
theorem spares_run_map {x : Attempt γ α} (hx : Draw.Spares f x.run) (g : α → β) :
    Draw.Spares f (x >>= fun a => pure (g a)).run := by
  refine Draw.Spares.bind hx fun r _ => ?_
  cases r with
  | ok a => exact .pure _
  | error e => exact .pure _

omit [RandomSource γ] in
theorem spares_ofExcept {x : Except Fault α} (hx : FailsWith (· ≠ f) x) :
    Draw.Spares f (Draw.ofExcept x : Draw γ α) := by
  intro s h
  exact hx f (error_of_map h) rfl

omit [RandomSource γ] in
theorem ok_of_gives_ofExcept {x : Except Fault α} {a : α} (h : Gives (Draw.ofExcept x : Draw γ α) a) :
    x = .ok a := by
  obtain ⟨s, s', h⟩ := h
  obtain ⟨b, hb, he⟩ := ok_of_map h
  cases he
  exact hb

theorem failsWith_counted (n : Nat) : FailsWith (· ≠ Fault.outOfRange) (counted n) := by
  rw [counted]
  split
  · exact .ok _
  · exact .error (by decide)

theorem failsWith_weight (r : ImpactRecord) : FailsWith (· ≠ Fault.outOfRange) r.weight :=
  (failsWith_counted _).bind fun _ _ => (failsWith_counted _).bind fun _ _ => .ok _

theorem failsWith_candidateWeights (s : MutatorSettings) (impacts : Option ImpactHistory) (cs : List Candidate) :
    FailsWith (· ≠ Fault.outOfRange) (s.candidateWeights impacts cs) := by
  rw [MutatorSettings.candidateWeights]
  split
  · next h _ =>
    refine FailsWith.mapM fun c _ => ?_
    rw [ImpactHistory.weight]
    split
    · next r _ => exact failsWith_weight r
    · exact .ok _
  · exact .ok _

theorem length_candidateWeights {s : MutatorSettings} {impacts : Option ImpactHistory} {cs : List Candidate}
    (h : s.candidateWeights impacts cs = .ok weights) : weights.length = cs.length := by
  rw [MutatorSettings.candidateWeights] at h
  split at h
  · exact length_of_mapM h
  · cases h
    exact List.length_map _

theorem parent_inRange (a : Archive) : Draw.Spares .outOfRange (a.sample : Draw γ (Option Evaluated)) := by
  rw [Archive.sample]
  split
  · exact .pure _
  · next hsome =>
    refine .bind (Draw.spares_weighted_outOfRange _) fun i hi => ?_
    obtain ⟨h, -, hget⟩ := getElem?_of_weighted (List.length_map _) (by simpa using hsome) hi
    rw [hget]
    exact .pure _

theorem part_inRange {steering : Steering} {nodes : List NodeId} {t : GeneTree}
    (hsome : nodes.filterM t.isMutable ≠ .ok [])
    (hsteering : ∀ id, steering.childWeight t id ≠ .error .outOfRange) :
    RandomEdit.Spares .outOfRange (RandomEdit.pickMutable steering nodes : RandomEdit γ NodeId) t := by
  refine RandomEdit.Spares.query_bind fun candidates hcandidates => RandomEdit.Spares.get_bind ?_
  have hfails : FailsWith (· ≠ Fault.outOfRange) (candidates.mapM (steering.childWeight t)) :=
    FailsWith.mapM fun id _ e he h => hsteering id (he.trans (congrArg Except.error h))
  refine RandomEdit.Spares.draw_bind (spares_ofExcept hfails) fun weights hweights => ?_
  refine RandomEdit.Spares.draw_bind (Draw.spares_weighted_outOfRange _) fun i hi => ?_
  have hlength := length_of_mapM (ok_of_gives_ofExcept hweights)
  obtain ⟨x, -, hget⟩ := getElem?_of_weighted hlength (fun h => hsome (h ▸ hcandidates)) hi
  rw [hget]
  exact .pure _

theorem operator_inRange {s : Sampler} {operators : List (Operator × Double)} {ind : Individual}
    (hsome : operators ≠ [])
    (hspare : ∀ o ∈ operators,
      Draw.Spares .outOfRange (Mutator.applyOperator s ind o.1 : Attempt γ Individual).run) :
    Draw.Spares .outOfRange (Mutator.mutateStructure s operators ind : Attempt γ Mutant).run := by
  refine spares_run_bind (Draw.spares_weighted_outOfRange _) fun i hi => ?_
  obtain ⟨o, ho, hget⟩ := getElem?_of_weighted (List.length_map _) hsome hi
  rw [hget]
  exact spares_run_map (hspare o ho) _

theorem candidate_inRange {m : Mutator} {impacts : Option ImpactHistory} {cs : List Candidate} {ind : Individual}
    (hsome : cs ≠ [])
    (hspare : ∀ c ∈ cs, Draw.Spares .outOfRange (m.mutateGene impacts c ind : Attempt γ Mutant).run) :
    Draw.Spares .outOfRange (m.mutateCandidate impacts cs ind : Attempt γ Mutant).run := by
  have hfails := failsWith_candidateWeights m.settings impacts cs
  refine spares_run_bind (spares_ofExcept hfails) fun weights hweights => ?_
  refine spares_run_bind (Draw.spares_weighted_outOfRange _) fun i hi => ?_
  have hlength := length_candidateWeights (ok_of_gives_ofExcept hweights)
  obtain ⟨c, hc, hget⟩ := getElem?_of_weighted hlength hsome hi
  rw [hget]
  exact hspare c hc

theorem holds : ChoosesMembers γ where
  parent := parent_inRange
  part _ _ _ := part_inRange
  operator _ _ _ := operator_inRange
  candidate _ _ _ _ := candidate_inRange

end ChoosesMembers

namespace Mutator

variable {m : Mutator} {size maxSize : Nat}

theorem possibleOperators_sublist (m : Mutator) (size maxSize : Nat) :
    ((m.possibleOperators size maxSize).map (·.2)).Sublist m.settings.operatorWeights := by
  rw [possibleOperators, List.map_map]
  exact List.filter_sublist.map fun choice : Operator × Double × Bool => choice.2.1

/-- What weighs nothing is not possible. -/
theorem usable_possibleOperators (hsome : m.possibleOperators size maxSize ≠ []) :
    Draw.Usable ((m.possibleOperators size maxSize).map (·.2)) := by
  have hpos : ∀ w ∈ (m.possibleOperators size maxSize).map (·.2), 0 < w := by
    intro w hw
    obtain ⟨o, ho, rfl⟩ := List.mem_map.mp hw
    obtain ⟨choice, hchoice, rfl⟩ := List.mem_map.mp ho
    have hkept := (List.mem_filter.mp hchoice).2
    exact of_decide_eq_true (Bool.and_eq_true_iff.mp hkept).2
  have hweights : (m.possibleOperators size maxSize).map (·.2) ≠ [] := by simpa using hsome
  obtain ⟨w, hw⟩ := List.exists_mem_of_ne_nil _ hweights
  exact ⟨fun w hw => Binary.le_of_lt (hpos w hw), w, hw, hpos w hw⟩

theorem nonneg_of_validate (hm : m.settings.validate = .ok ()) : ∀ w ∈ m.settings.operatorWeights, 0 ≤ w := by
  obtain ⟨-, -, hm⟩ := ok_of_bind hm
  obtain ⟨-, -, hm⟩ := ok_of_bind hm
  cases husable : m.settings.usableOperators with
  | false =>
    rw [husable] at hm
    cases hm
  | true =>
    rw [MutatorSettings.usableOperators, Bool.and_eq_true, List.all_eq_true] at husable
    intro w hw
    have hallowed := husable.1 w hw
    simp only [Bool.and_eq_true, Bool.not_eq_true', decide_eq_false_iff_not] at hallowed
    obtain ⟨hfinite, hbelow⟩ := hallowed
    have hzero := (hasUnits_zero double).isFinite
    rw [lt_iff_rank hfinite hzero] at hbelow
    rw [le_iff_rank hzero hfinite]
    omega

end Mutator

namespace Draw

variable {γ : Type} [RandomSource γ]

/-- What a draw by weight does: it is even for weights that are not usable, stops at usable ones whose total is
not finite, and else gives a position of the list, unless an even draw starves. -/
theorem weighted_ends_or_stops :
    (∀ (weights : List Double) (s : γ),
      (¬ Usable weights → (weighted weights : Draw γ Nat) = index (max weights.length 1)) ∧
      ((weighted weights : Draw γ Nat) s = .error .unboundedWeights ↔
        Usable weights ∧ (total weights).isFinite = false) ∧
      ((∃ i n, (weighted weights : Draw γ Nat) s = .ok (i, behind n s) ∧ i < max weights.length 1) ∨
        (weighted weights : Draw γ Nat) s = .error .unboundedWeights ∨
        (weighted weights : Draw γ Nat) s = .error .endlessRedraw ∧ ¬ Usable weights ∧ Starves s)) ∧
    ChoosesMembers γ ∧
    ∀ (m : Mutator) (size maxSize : Nat), m.settings.validate = .ok () →
      m.possibleOperators size maxSize ≠ [] →
      let weights := (m.possibleOperators size maxSize).map (·.2)
      Usable weights ∧
        ((m.settings.operatorWeights.foldl (· + ·) 0).isFinite = true → ∀ s : γ, ∃ i n,
          (weighted weights : Draw γ Nat) s = .ok (i, behind n s) ∧ i < weights.length) := by
  refine ⟨fun weights s => ⟨weighted_of_not_usable, weighted_unbounded_iff weights s, ?_⟩,
    ChoosesMembers.holds, ?_⟩
  · by_cases husable : Usable weights
    · cases htotal : (total weights).isFinite with
      | false => exact .inr (.inl ((weighted_unbounded_iff weights s).mpr ⟨husable, htotal⟩))
      | true =>
        obtain ⟨i, hi, hlt⟩ := weighted_of_bounded husable htotal s
        exact .inl ⟨i, 1, hi, by omega⟩
    · rw [weighted_of_not_usable husable]
      have hpos : 0 < max weights.length 1 := by omega
      rcases halts_index hpos s with ⟨i, n, hi⟩ | ⟨he, hstarves⟩
      · exact .inl ⟨i, n, hi, index_lt ⟨s, _, hi⟩⟩
      · exact .inr (.inr ⟨he, husable, hstarves⟩)
  · intro m size maxSize hm hsome weights
    have husable := Mutator.usable_possibleOperators hsome
    refine ⟨husable, fun hsum s => ?_⟩
    have hnonneg := Mutator.nonneg_of_validate hm
    have hle := total_le_of_sublist (m.possibleOperators_sublist size maxSize) hnonneg
    have htotal := isFinite_of_between (hasUnits_zero Format.double).isFinite hsum (nonneg_total husable.1) hle
    obtain ⟨i, hi, hlt⟩ := weighted_of_bounded husable htotal s
    exact ⟨i, 1, hi, hlt⟩

/-- The weights of the default settings are drawn by, whatever words come. -/
theorem weighted_ends_of_default :
    let m : Mutator := ⟨{}⟩
    m.settings.validate = .ok () ∧ m.possibleOperators 2 10 ≠ [] ∧
      ∀ s : WordSource, ∃ i n,
        (weighted ((m.possibleOperators 2 10).map (·.2)) : Draw WordSource Nat) s = .ok (i, behind n s) ∧
          i < 3 := by
  intro m
  have hvalid : m.settings.validate = .ok () := by decide +kernel
  have hthree : (m.possibleOperators 2 10).length = 3 := by decide +kernel
  have hsome : m.possibleOperators 2 10 ≠ [] := List.ne_nil_of_length_eq_add_one hthree
  have hsum : (m.settings.operatorWeights.foldl (· + ·) 0).isFinite = true := by decide +kernel
  refine ⟨hvalid, hsome, fun s => ?_⟩
  obtain ⟨i, n, hi, hlt⟩ := ((@weighted_ends_or_stops WordSource _).2.2 m 2 10 hvalid hsome).2 hsum s
  exact ⟨i, n, hi, by rwa [List.length_map, hthree] at hlt⟩

/-- Equal weights of a mutator, one by one finite and together not. -/
def heavyOperators : Mutator :=
  ⟨{ addWeight := 1e308, removeWeight := 1e308, swapWeight := 1e308 }⟩

theorem weighted_stops_at_heavy_operators :
    let weights := (heavyOperators.possibleOperators 2 10).map (·.2)
    heavyOperators.settings.validate = .ok () ∧ (∀ w ∈ weights, w.isFinite = true ∧ 0 ≤ w) ∧
      weights.length = 3 ∧
      (weighted weights (⟨[], 1⟩ : WordSource)).map Prod.fst = .error .unboundedWeights := by
  decide +kernel

end Draw
end CallEvolution
