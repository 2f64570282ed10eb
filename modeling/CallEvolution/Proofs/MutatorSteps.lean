import CallEvolution.Proofs.Attempts
import CallEvolution.Proofs.Lookups
import CallEvolution.Variation.Mutator

/-! Steps of the mutator. It inserts, removes or swaps main actions, links them anew, or changes the gene
of a candidate, so a relation that holds for each of these holds between a parent and its child. -/

namespace CallEvolution

open Attempt

namespace Mutator

/-- A relation between an individual and what a change makes of it. -/
structure Respects (γ : Type) [RandomSource γ] (s : Sampler) (Q : Individual → Individual → Prop) :
    Prop where
  refl : ∀ ind, Q ind ind
  trans : ∀ ind u v, Q ind u → Q u v → Q ind v
  insertMain : ∀ ind i a, Yields (s.randomAction : Attempt γ Action) a → Q ind (ind.insertMain i a).2
  removeMain : ∀ ind i a u, ind.removeMain i = some (a, u) → Q ind u
  swapMain : ∀ ind i j u, ind.swapMain i j = .ok u → Q ind u
  relink : ∀ ind (r : Linker) id n u,
    Gives ((r.relink id : Linking γ Nat).run.run ind) (.ok n, u) → Q ind u
  setGene : ∀ ind cs (c : Candidate) t t' settings steering ids, ind.candidates = .ok cs → c ∈ cs →
    ind.gene c.action c.param = .ok t →
    Gives ((RandomEdit.mutate settings steering t.root : RandomEdit γ (List NodeId)).run.run t)
      (.ok ids, t') →
    Q ind (ind.setGene c.action c.param t')

variable {γ : Type} [RandomSource γ] {Q : Individual → Individual → Prop} {s : Sampler} {m : Mutator}
  {ind u : Individual} {impacts : Option ImpactHistory} {mutant : Mutant}

theorem steps_of_relinkAt {i : Nat} (h : Yields (relinkAt s i ind : Attempt γ Individual) u) :
    u = ind ∨ ∃ a n, Gives ((s.linker.relink a : Linking γ Nat).run.run ind) (.ok n, u) := by
  rw [relinkAt] at h
  split at h
  · next a _ =>
    obtain ⟨⟨n, v⟩, hv, h⟩ := of_bind h
    rw [eq_of_pure h]
    exact .inr ⟨a.id, n, gives_of_ofChange hv⟩
  · exact .inl (eq_of_pure h)

theorem steps_of_addAction (h : Yields (addAction s ind : Attempt γ Individual) u) :
    ∃ a i n, Yields (s.randomAction : Attempt γ Action) a ∧ i ≤ ind.size ∧
      Gives ((s.linker.relink ⟨ind.nextId⟩ : Linking γ Nat).run.run (ind.insertMain i a).2)
        (.ok n, u) := by
  obtain ⟨a, ha, h⟩ := of_bind h
  obtain ⟨i, hi, h⟩ := of_bind h
  simp only at h
  split at h
  · obtain ⟨_, hfault, -⟩ := of_bind h
    exact absurd (gives_of_lift hfault) Draw.not_gives_fault
  · obtain ⟨⟨n, v⟩, hv, h⟩ := of_bind h
    rw [eq_of_pure h]
    exact ⟨a, i, n, ha, (Draw.count_mem (gives_of_lift hi)).2, gives_of_ofChange hv⟩

theorem steps_of_removeAction (h : Yields (removeAction ind : Attempt γ Individual) u) :
    ∃ i a, ind.removeMain i = some (a, u) := by
  obtain ⟨i, hi, h⟩ := of_bind h
  have hlt : i < ind.main.length := Draw.index_lt (gives_of_lift hi)
  split at h
  · next a v hv =>
    rw [eq_of_pure h]
    exact ⟨i, a, hv⟩
  · next hnone =>
    rw [Individual.removeMain, List.getElem?_eq_getElem hlt] at hnone
    cases hnone

theorem steps_of_swapActions (h : Yields (swapActions s ind : Attempt γ Individual) u) :
    ∃ i j v w, i ≠ j ∧ ind.swapMain i j = .ok v ∧ Yields (relinkAt s i v : Attempt γ Individual) w ∧
      Yields (relinkAt s j w : Attempt γ Individual) u := by
  obtain ⟨i, hi, h⟩ := of_bind h
  obtain ⟨shift, hshift, h⟩ := of_bind h
  simp only at h
  have hlt : i < ind.size := Draw.index_lt (gives_of_lift hi)
  have hmem := Draw.integer_mem (.inl (by decide)) (gives_of_lift hshift)
  split at h
  · exact absurd h not_throw
  · next v hv =>
    obtain ⟨w, hw, h⟩ := of_bind h
    exact ⟨i, _, v, w, add_mod_ne hlt (by omega) (by omega), hv, hw, h⟩

theorem steps_of_mutateStructure {operators : List (Operator × Double)}
    (h : Yields (mutateStructure s operators ind : Attempt γ Mutant) mutant) :
    (∃ weight, (mutant.operator, weight) ∈ operators) ∧
      Yields (applyOperator s ind mutant.operator : Attempt γ Individual) mutant.individual := by
  obtain ⟨i, -, h⟩ := of_bind h
  split at h
  · next operator weight hi =>
    obtain ⟨v, hv, h⟩ := of_bind h
    rw [eq_of_pure h]
    exact ⟨⟨weight, List.mem_of_getElem? hi⟩, hv⟩
  · exact absurd (gives_of_lift h) Draw.not_gives_fault

theorem steps_of_mutateGene {c : Candidate}
    (h : Yields (m.mutateGene impacts c ind : Attempt γ Mutant) mutant) :
    mutant.operator = .gene ∧ ∃ t t' settings steering ids, ind.gene c.action c.param = .ok t ∧
      Gives ((RandomEdit.mutate settings steering t.root : RandomEdit γ (List NodeId)).run.run t)
        (.ok ids, t') ∧ mutant.individual = ind.setGene c.action c.param t' := by
  rw [mutateGene] at h
  split at h
  · exact absurd h not_throw
  · next a ha =>
    split at h
    · exact absurd h not_throw
    · next p hp =>
      obtain ⟨⟨ids, t⟩, ht, h⟩ := of_bind h
      obtain ⟨touched, -, h⟩ := of_bind h
      rw [eq_of_pure h]
      have hgene := Individual.gene_eq_ok_iff.mpr ⟨a, p, ha, hp, rfl⟩
      exact ⟨rfl, _, _, _, _, _, hgene, gives_of_ofChange ht, rfl⟩

theorem steps_of_mutateCandidate {candidates : List Candidate}
    (h : Yields (m.mutateCandidate impacts candidates ind : Attempt γ Mutant) mutant) :
    ∃ c ∈ candidates, Yields (m.mutateGene impacts c ind : Attempt γ Mutant) mutant := by
  obtain ⟨weights, -, h⟩ := of_bind h
  obtain ⟨i, -, h⟩ := of_bind h
  split at h
  · next c hc => exact ⟨c, List.mem_of_getElem? hc, h⟩
  · exact absurd (gives_of_lift h) Draw.not_gives_fault

/-- A change is one of the sequence of actions, or one of a candidate, or none. -/
theorem steps_of_change (h : Yields (m.change s impacts ind : Attempt γ Mutant) mutant) :
    (ind.structureMutable = true ∧
      Yields (mutateStructure s (m.possibleOperators ind.size s.settings.maxSize) ind :
        Attempt γ Mutant) mutant) ∨
    (mutant.individual = ind ∧ mutant.operator = .unchanged) ∨
    ∃ candidates, ind.candidates = .ok candidates ∧ ∃ c ∈ candidates,
      Yields (m.mutateGene impacts c ind : Attempt γ Mutant) mutant := by
  obtain ⟨candidates, hcandidates, h⟩ := of_bind h
  obtain ⟨structural, -, h⟩ := of_bind h
  split at h
  · by_cases hmutable : ind.structureMutable = true
    · rw [if_pos hmutable] at h
      exact .inl ⟨hmutable, h⟩
    · rw [if_neg hmutable] at h
      obtain ⟨⟨_, hmem⟩, -⟩ := steps_of_mutateStructure h
      cases hmem
  · split at h
    · rw [eq_of_pure h]
      exact .inr (.inl ⟨rfl, rfl⟩)
    · obtain ⟨c, hc, h⟩ := steps_of_mutateCandidate h
      exact .inr (.inr ⟨candidates, eq_ok_of_mapError hcandidates, c, hc, h⟩)

namespace Respects

theorem relinkAt (hQ : Respects γ s Q) {i : Nat}
    (h : Yields (relinkAt s i ind : Attempt γ Individual) u) : Q ind u := by
  rcases steps_of_relinkAt h with rfl | ⟨a, n, hv⟩
  · exact hQ.refl u
  · exact hQ.relink _ _ _ _ _ hv

theorem addAction (hQ : Respects γ s Q) (h : Yields (addAction s ind : Attempt γ Individual) u) :
    Q ind u := by
  obtain ⟨a, i, n, ha, -, hv⟩ := steps_of_addAction h
  exact hQ.trans _ _ _ (hQ.insertMain ind i a ha) (hQ.relink _ _ _ _ _ hv)

theorem removeAction (hQ : Respects γ s Q) (h : Yields (removeAction ind : Attempt γ Individual) u) :
    Q ind u := by
  obtain ⟨i, a, hv⟩ := steps_of_removeAction h
  exact hQ.removeMain _ _ _ _ hv

theorem swapActions (hQ : Respects γ s Q) (h : Yields (swapActions s ind : Attempt γ Individual) u) :
    Q ind u := by
  obtain ⟨i, j, v, w, -, hv, hw, h⟩ := steps_of_swapActions h
  exact hQ.trans _ _ _ (hQ.trans _ _ _ (hQ.swapMain _ _ _ _ hv) (hQ.relinkAt hw)) (hQ.relinkAt h)

theorem applyOperator (hQ : Respects γ s Q) {operator : Operator}
    (h : Yields (applyOperator s ind operator : Attempt γ Individual) u) : Q ind u := by
  cases operator with
  | addAction => exact hQ.addAction h
  | removeAction => exact hQ.removeAction h
  | swapActions => exact hQ.swapActions h
  | gene | unchanged =>
    rw [eq_of_pure h]
    exact hQ.refl ind

theorem mutateGene (hQ : Respects γ s Q) {candidates : List Candidate} {c : Candidate}
    (hcandidates : ind.candidates = .ok candidates) (hc : c ∈ candidates)
    (h : Yields (m.mutateGene impacts c ind : Attempt γ Mutant) mutant) : Q ind mutant.individual := by
  obtain ⟨-, t, t', settings, steering, ids, hgene, hmutate, hmutant⟩ := steps_of_mutateGene h
  rw [hmutant]
  exact hQ.setGene _ _ _ _ _ _ _ _ hcandidates hc hgene hmutate

theorem change (hQ : Respects γ s Q) (h : Yields (m.change s impacts ind : Attempt γ Mutant) mutant) :
    Q ind mutant.individual := by
  rcases steps_of_change h with ⟨-, h⟩ | ⟨hsame, -⟩ | ⟨candidates, hcandidates, c, hc, h⟩
  · exact hQ.applyOperator (steps_of_mutateStructure h).2
  · rw [hsame]
    exact hQ.refl ind
  · exact hQ.mutateGene hcandidates hc h

end Respects

/-- A child comes from a change and a pass over the links. -/
theorem steps_of_mutate {identity : Nat}
    (h : Yields (m.mutate s impacts identity ind : Attempt γ Mutant) mutant) :
    ∃ changed n synced, Yields (m.change s impacts ind : Attempt γ Mutant) changed ∧
      Gives ((Revision.sync : Revision γ Nat).run.run changed.individual) (.ok n, synced) ∧
      mutant = { changed with individual := { synced with
        descent := synced.descent.evolve changed.operator.name identity } } := by
  obtain ⟨changed, hchanged, h⟩ := of_bind h
  obtain ⟨⟨n, synced⟩, hsynced, h⟩ := of_bind h
  exact ⟨changed, n, synced, hchanged, gives_of_ofChange hsynced, eq_of_pure h⟩

end Mutator
end CallEvolution
