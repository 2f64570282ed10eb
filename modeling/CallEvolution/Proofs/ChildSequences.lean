import CallEvolution.Proofs.RowRuns

/-! The sequence of actions of a child. An operator inserts, removes or swaps main actions of its parent
and leaves the other ones in their order; links, values and rows are no part of it. -/

namespace CallEvolution

open Attempt

theorem take_append_cons_drop {α : Type} {l : List α} {i : Nat} {x : α} (h : i ≤ l.length) :
    l.take i ++ x :: l.drop i = l.insertIdx i x := by
  induction i generalizing l with
  | zero => simp
  | succ i ih =>
    cases l with
    | nil => cases h
    | cons y l => simp [ih (Nat.le_of_succ_le_succ h)]

/-- What an operator makes of the ids of the main actions, with the id that is the next to be given. -/
def Operator.Rearranges (fresh : ActionId) (before after : List ActionId) : Operator → Prop
  | addAction => ∃ i ≤ before.length, after = before.insertIdx i fresh
  | removeAction => ∃ i < before.length, after = before.eraseIdx i
  | swapActions => ∃ i j, ∃ (hi : i < before.length) (hj : j < before.length),
      i ≠ j ∧ after = (before.set i before[j]).set j before[i]
  | gene | unchanged => after = before

def Operator.isStructural : Operator → Bool
  | addAction | removeAction | swapActions => true
  | gene | unchanged => false

/-- May an operator be drawn for so many main actions? -/
def Operator.Feasible (size maxSize : Nat) : Operator → Prop
  | addAction => size < maxSize
  | removeAction | swapActions => 1 < size
  | gene | unchanged => True

theorem Operator.Rearranges.length_bounds {operator : Operator} {fresh : ActionId}
    {before after : List ActionId} {maxSize : Nat} (h : operator.Rearranges fresh before after)
    (hfeasible : operator.Feasible before.length maxSize) :
    (0 < before.length → 0 < after.length) ∧ after.length ≤ max maxSize before.length := by
  cases operator with
  | addAction =>
    obtain ⟨i, hi, rfl⟩ := h
    have hlt : before.length < maxSize := hfeasible
    rw [List.length_insertIdx_of_le_length hi]
    omega
  | removeAction =>
    obtain ⟨i, hi, rfl⟩ := h
    have hlt : 1 < before.length := hfeasible
    rw [List.length_eraseIdx_of_lt hi]
    omega
  | swapActions =>
    obtain ⟨i, j, hi, hj, -, rfl⟩ := h
    rw [List.length_set, List.length_set]
    exact ⟨id, le_max_right _ _⟩
  | gene | unchanged =>
    obtain rfl : after = before := h
    exact ⟨id, le_max_right _ _⟩

namespace Individual

variable {ind u v : Individual} {a : Action} {i j : Nat}

/-- Individuals with the same actions in the same order, whatever their genes and links are. -/
structure SameSequence (ind u : Individual) : Prop where
  init : u.initIds = ind.initIds
  main : u.mainIds = ind.mainIds
  next : u.nextId = ind.nextId

theorem length_mainIds (ind : Individual) : ind.mainIds.length = ind.size := List.length_map _

namespace SameSequence

theorem ids (h : SameSequence ind u) : u.ids = ind.ids := by
  rw [ids_eq, ids_eq, h.init, h.main]

theorem refl (ind : Individual) : SameSequence ind ind := ⟨rfl, rfl, rfl⟩

theorem trans (h : SameSequence ind u) (k : SameSequence u v) : SameSequence ind v :=
  ⟨k.init.trans h.init, k.main.trans h.main, k.next.trans h.next⟩

theorem setGene (ind : Individual) (id : ActionId) (param : Nat) (t : GeneTree) :
    SameSequence ind (ind.setGene id param t) := by
  have hid : ∀ a : Action, (a.setGene param t).id = a.id := fun _ => rfl
  rw [Individual.setGene, modifyAction]
  split
  · exact ⟨map_id_modifyFirst hid ind.init, rfl, rfl⟩
  · exact ⟨rfl, map_id_modifyFirst hid ind.main, rfl⟩

end SameSequence

theorem sequence_of_insertMain (ind : Individual) (a : Action) (hi : i ≤ ind.size) :
    (ind.insertMain i a).2.initIds = ind.initIds ∧
      (ind.insertMain i a).2.mainIds = ind.mainIds.insertIdx i ⟨ind.nextId⟩ ∧
      (ind.insertMain i a).2.nextId = ind.nextId + 1 := by
  refine ⟨rfl, ?_, rfl⟩
  have hlength : i ≤ ind.mainIds.length := by rwa [length_mainIds]
  rw [← take_append_cons_drop hlength, mainIds, mainIds, ← List.map_take, ← List.map_drop]
  exact List.map_append

theorem sequence_of_removeMain (h : ind.removeMain i = some (a, u)) :
    i < ind.size ∧ u.initIds = ind.initIds ∧ u.mainIds = ind.mainIds.eraseIdx i ∧
      u.nextId = ind.nextId := by
  rw [removeMain] at h
  split at h
  · next b hb =>
    cases h
    obtain ⟨hi, -⟩ := List.getElem?_eq_some_iff.mp hb
    exact ⟨hi, rfl, (List.eraseIdx_map ..).symm, rfl⟩
  · cases h

theorem sequence_of_swapMain (h : ind.swapMain i j = .ok u) :
    u.initIds = ind.initIds ∧ u.nextId = ind.nextId ∧
      ∃ (hi : i < ind.mainIds.length) (hj : j < ind.mainIds.length),
        u.mainIds = (ind.mainIds.set i ind.mainIds[j]).set j ind.mainIds[i] := by
  rw [swapMain] at h
  split at h
  · next x y hx hy =>
    cases h
    obtain ⟨hi, rfl⟩ := List.getElem?_eq_some_iff.mp hx
    obtain ⟨hj, rfl⟩ := List.getElem?_eq_some_iff.mp hy
    refine ⟨rfl, rfl, by rwa [length_mainIds], by rwa [length_mainIds], ?_⟩
    change ((ind.main.set i ind.main[j]).set j ind.main[i]).map Action.id = _
    simp only [mainIds, List.map_set, List.getElem_map]
  · cases h

end Individual

open Individual

variable {γ : Type} {ind u : Individual} {n : Nat}

theorem Revision.sameSequence_sync :
    Ensures (Revision.sync : Revision γ Nat) ind fun _ u => SameSequence ind u := by
  refine Ensures.get_bind (ensures_applyAll SameSequence.refl (fun _ _ _ => SameSequence.trans) ?_)
  intro l _ s
  refine ensures_applyLink.mono ?_
  rintro r u (rfl | ⟨source, t, -, -, -, r', t', -, rfl, -⟩)
  · exact .refl u
  · exact .setGene s _ _ _

variable [RandomSource γ]

theorem Linker.sameSequence_relink {r : Linker} {id : ActionId}
    (h : Gives ((r.relink id : Linking γ Nat).run.run ind) (.ok n, u)) : SameSequence ind u := by
  rcases steps_of_relink h with rfl | ⟨ls, -, hadd⟩
  · exact .refl u
  · obtain ⟨ks, -, rfl, -⟩ := Revision.links_addLinks hadd
    exact ⟨rfl, rfl, rfl⟩

namespace Mutator

variable {s : Sampler} {m : Mutator} {impacts : Option ImpactHistory} {operator : Operator}
  {mutant : Mutant} {i identity : Nat}

structure Turns (operator : Operator) (ind u : Individual) : Prop where
  init : u.initIds = ind.initIds
  main : operator.Rearranges ⟨ind.nextId⟩ ind.mainIds u.mainIds
  next : u.nextId = if operator = .addAction then ind.nextId + 1 else ind.nextId

theorem Turns.same {v : Individual} (h : Turns operator ind u) (k : SameSequence u v) :
    Turns operator ind v :=
  ⟨k.init.trans h.init, k.main ▸ h.main, k.next.trans h.next⟩

theorem sameSequence_relinkAt (h : Yields (relinkAt s i ind : Attempt γ Individual) u) :
    SameSequence ind u := by
  rcases steps_of_relinkAt h with rfl | ⟨a, n, hv⟩
  · exact .refl u
  · exact Linker.sameSequence_relink hv

theorem turns_applyOperator (h : Yields (applyOperator s ind operator : Attempt γ Individual) u) :
    Turns operator ind u := by
  cases operator with
  | addAction =>
    obtain ⟨a, i, n, -, hi, hlinked⟩ := steps_of_addAction h
    -- the links that come with the new action are no part of the sequence
    obtain ⟨hinit, hmain, hnext⟩ := ind.sequence_of_insertMain a hi
    have hinserted : Turns .addAction ind (ind.insertMain i a).2 :=
      ⟨hinit, ⟨i, by rwa [length_mainIds], hmain⟩, hnext⟩
    exact hinserted.same (Linker.sameSequence_relink hlinked)
  | removeAction =>
    obtain ⟨i, a, hremoved⟩ := steps_of_removeAction h
    obtain ⟨hi, hinit, hmain, hnext⟩ := sequence_of_removeMain hremoved
    exact ⟨hinit, ⟨i, by rwa [length_mainIds], hmain⟩, hnext⟩
  | swapActions =>
    obtain ⟨i, j, v, w, hne, hswapped, hw, hu⟩ := steps_of_swapActions h
    obtain ⟨hinit, hnext, hi, hj, hmain⟩ := sequence_of_swapMain hswapped
    have hturns : Turns .swapActions ind v := ⟨hinit, ⟨i, j, hi, hj, hne, hmain⟩, hnext⟩
    exact hturns.same ((sameSequence_relinkAt hw).trans (sameSequence_relinkAt hu))
  | gene | unchanged =>
    rw [eq_of_pure h]
    exact ⟨rfl, rfl, rfl⟩

theorem mem_possibleOperators {size maxSize : Nat} {weight : Double}
    (h : (operator, weight) ∈ m.possibleOperators size maxSize) :
    operator.isStructural = true ∧ operator.Feasible size maxSize := by
  simp only [possibleOperators, List.mem_map, List.mem_filter, List.mem_cons, List.not_mem_nil,
    or_false, Bool.and_eq_true] at h
  obtain ⟨⟨o, w, possible⟩, ⟨hchoice, hpossible, -⟩, heq⟩ := h
  cases heq
  rcases hchoice with h | h | h
  all_goals
    cases h
    exact ⟨rfl, by simpa [Operator.Feasible] using hpossible⟩

theorem turns_change (h : Yields (m.change s impacts ind : Attempt γ Mutant) mutant) :
    Turns mutant.operator ind mutant.individual ∧
      mutant.operator.Feasible ind.size s.settings.maxSize ∧
      (mutant.operator.isStructural = true → ind.structureMutable = true) := by
  rcases steps_of_change h with ⟨hmutable, h⟩ | ⟨hsame, hoperator⟩ | ⟨candidates, -, c, -, h⟩
  · obtain ⟨⟨weight, hmem⟩, h⟩ := steps_of_mutateStructure h
    exact ⟨turns_applyOperator h, (mem_possibleOperators hmem).2, fun _ => hmutable⟩
  · rw [hsame, hoperator]
    exact ⟨⟨rfl, rfl, rfl⟩, trivial, fun h => by cases h⟩
  · obtain ⟨hoperator, t, t', settings, steering, ids, -, -, hmutant⟩ := steps_of_mutateGene h
    obtain ⟨hinit, hmain, hnext⟩ := SameSequence.setGene ind c.action c.param t'
    rw [hmutant, hoperator]
    exact ⟨⟨hinit, hmain, hnext⟩, trivial, fun h => by cases h⟩

theorem turns_mutate (h : Yields (m.mutate s impacts identity ind : Attempt γ Mutant) mutant) :
    Turns mutant.operator ind mutant.individual ∧
      mutant.operator.Feasible ind.size s.settings.maxSize ∧
      (mutant.operator.isStructural = true → ind.structureMutable = true) := by
  obtain ⟨changed, n, synced, hchanged, hsynced, rfl⟩ := steps_of_mutate h
  obtain ⟨hturns, hrest⟩ := turns_change hchanged
  obtain ⟨hinit, hmain, hnext⟩ := Revision.sameSequence_sync.2 _ _ hsynced
  exact ⟨hturns.same ⟨hinit, hmain, hnext⟩, hrest⟩

/-- A child has its parent's rows, and its parent's main actions except for what the operator says. Only
an individual with a mutable structure gets or loses actions or has them swapped, and no operator takes
the last one or adds one to as many as the sampler makes. -/
theorem sequence_of_mutate (m : Mutator) (s : Sampler) (impacts : Option ImpactHistory)
    (identity : Nat) (parent : Individual) (mutant : Mutant) (g g' : γ)
    (h : (m.mutate s impacts identity parent : Attempt γ Mutant).run g = .ok (.ok mutant, g')) :
    let child := mutant.individual
    child.initIds = parent.initIds ∧
      mutant.operator.Rearranges ⟨parent.nextId⟩ parent.mainIds child.mainIds ∧
      child.nextId = (if mutant.operator = .addAction then parent.nextId + 1 else parent.nextId) ∧
      (parent.Coherent → child.ids.Nodup) ∧
      (mutant.operator.isStructural = true → parent.structureMutable = true) ∧
      (0 < parent.size → 0 < child.size) ∧ child.size ≤ max s.settings.maxSize parent.size := by
  intro child
  have hmutate : Yields (m.mutate s impacts identity parent : Attempt γ Mutant) mutant := ⟨g, g', h⟩
  obtain ⟨⟨hinit, hmain, hnext⟩, hfeasible, hmutable⟩ := turns_mutate hmutate
  have hbounds := hmain.length_bounds (parent.length_mainIds.symm ▸ hfeasible)
  rw [length_mainIds, length_mainIds] at hbounds
  exact ⟨hinit, hmain, hnext, fun hp => ((evolves_mutate hmutate).coherent hp).ids_distinct, hmutable,
    hbounds⟩

/-- Two calls of which the second one goes. -/
theorem sequence_of_mutate_of_calls :
    let call := Action.rpc "shop" "list" [⟨"count", .query, .integerIn "count" 0 9⟩]
    let s : Sampler := { settings := { maxSize := 1 }, catalog := Sampler.catalogOf [call] }
    let m : Mutator := ⟨{ structureProbability := 1, swapWeight := 0 }⟩
    let parent := ((Individual.new .random 0).addMain call).2.addMain call |>.2
    ∃ mutant g, (m.mutate s none 1 parent : Attempt WordSource Mutant).run ⟨[], 1⟩ = .ok (.ok mutant, g) ∧
      mutant.operator = .removeAction ∧ parent.structureMutable = true ∧
      (∃ i < 2, mutant.individual.mainIds = [(⟨1⟩ : ActionId), ⟨2⟩].eraseIdx i) ∧
      0 < mutant.individual.size := by
  intro call s m parent
  let made : Option (Mutant × WordSource) := Attempt.result? (m.mutate s none 1 parent) ⟨[], 1⟩
  have hruns : made.map (fun r => r.1.operator) = some .removeAction := by decide +kernel
  have hids : parent.mainIds = [⟨1⟩, ⟨2⟩] := by decide +kernel
  have hparent : 0 < parent.size := by decide +kernel
  clear_value m s parent
  obtain ⟨⟨mutant, g⟩, hmade, hoperator⟩ := Option.map_eq_some_iff.mp hruns
  have hrun := Attempt.run_of_result? hmade
  obtain ⟨-, hmain, -, -, hmutable, hsize, -⟩ := sequence_of_mutate m s none 1 parent mutant ⟨[], 1⟩ g hrun
  rw [hoperator] at hmain hmutable
  rw [hids] at hmain
  exact ⟨mutant, g, hrun, hoperator, hmutable rfl, hmain, hsize hparent⟩

/-- However often an individual is mutated, it keeps its rows and a main action, and it grows to what the
sampler makes at most. -/
theorem size_of_descent (h : Relation.ReflTransGen (Mutator.Bears γ s) ind u) :
    u.initIds = ind.initIds ∧ (0 < ind.size → 0 < u.size) ∧
      u.size ≤ max s.settings.maxSize ind.size := by
  induction h with
  | refl => exact ⟨rfl, id, le_max_right _ _⟩
  | @tail v _ _ hborn ih =>
    obtain ⟨m, impacts, identity, mutant, hmutant, rfl⟩ := hborn
    obtain ⟨hinit, hsome, hmost⟩ := ih
    obtain ⟨⟨hinit', hmain, -⟩, hfeasible, -⟩ := turns_mutate hmutant
    have hbounds := hmain.length_bounds (v.length_mainIds.symm ▸ hfeasible)
    rw [length_mainIds, length_mainIds] at hbounds
    exact ⟨hinit'.trans hinit, fun h => hbounds.1 (hsome h), by omega⟩

end Mutator
end CallEvolution
