import CallEvolution.Proofs.LinkIntegrity
import CallEvolution.Proofs.MendedKeys
import CallEvolution.Proofs.MutatorSteps

/-! Repairs, passes over the links, linkers and the mutator: what they leave behind evolves from the
individual they have got. -/

namespace CallEvolution

open Individual

variable {γ : Type} {ind other : Individual}

namespace Individual

theorem evolves_repair [RandomSource γ] {changed : Bool}
    (h : Gives (ind.repair : Draw γ (Bool × Individual)) (changed, other)) : Evolves ind other := by
  obtain ⟨rows, removed, c, hrows, rfl, hmain, hnext, hlinks⟩ := parts_of_repair h
  obtain ⟨hsub, hall⟩ := ids_of_repairFrom hrows
  refine Evolves.of_removed hsub ?_ hnext ?_ ?_
  · rw [mainIds, hmain]
    exact .refl _
  · rw [hlinks]
    exact List.filter_sublist
  · intro l hl id hid hinvolves
    rw [hlinks] at hl
    have hfree := List.all_eq_true.mp (List.mem_filter.mp hl).2
    rw [ids_eq, List.mem_append] at hid ⊢
    rw [mainIds, hmain]
    refine hid.imp_left fun hid => (hall id hid).resolve_right fun hremoved => ?_
    have hnot := hfree id hremoved
    rw [hinvolves] at hnot
    cases hnot

theorem evolves_descent (ind : Individual) (d : Descent) : Evolves ind { ind with descent := d } :=
  .of_same_ids rfl rfl rfl (.refl _)

end Individual

namespace Revision

theorem ensures_addLinks (links : List Link) :
    Ensures (addLinks links : Revision γ Nat) ind fun _ u => Evolves ind u := by
  induction links generalizing ind with
  | nil => exact Ensures.pure (.refl ind)
  | cons l rest ih =>
    refine views_query.ensures_bind ?_ fun _ => .refl ind
    rintro ⟨taken, u⟩ hu
    refine Ensures.bind_rel (Q := Evolves) (fun _ _ _ => Evolves.trans) (ensures_set (evolves_addLink hu)) ?_
    intro _ t
    exact Ensures.map ih

theorem ensures_sync : Ensures (sync : Revision γ Nat) ind fun _ u => Evolves ind u := by
  refine Ensures.get_bind (ensures_applyAll (Q := Evolves) .refl (fun _ _ _ => Evolves.trans) ?_)
  intro l _ s
  refine ensures_applyLink.mono ?_
  rintro r u (rfl | ⟨source, t, -, -, -, r', t', -, rfl, -⟩)
  · exact .refl u
  · exact evolves_setGene s _ _ _

end Revision

namespace Linker

theorem ensures_linkRows (r : Linker) (id : ActionId) (directives : List DbDirective) :
    Ensures (r.linkRows id directives : Linking γ Nat) ind fun _ u => Evolves ind u := by
  refine Ensures.get_bind ?_
  split
  · exact Ensures.throw (.refl ind)
  · refine Views.mk_pure.ensures_bind ?_ fun _ => .refl ind
    intro links _
    exact Linking.ensures_revise (Revision.ensures_addLinks links)

variable [RandomSource γ]

theorem ensures_linkAll (r : Linker) :
    Ensures (r.linkAll : Linking γ Nat) ind fun _ u => Evolves ind u := by
  refine Ensures.get_bind (Linking.views_search.ensures_bind ?_ fun _ => .refl ind)
  intro links _
  exact Linking.ensures_revise (Revision.ensures_addLinks links)

theorem ensures_relink (r : Linker) (id : ActionId) :
    Ensures (r.relink id : Linking γ Nat) ind fun _ u => Evolves ind u := by
  refine Ensures.get_bind ?_
  split
  · exact Ensures.pure (.refl ind)
  · refine Linking.views_search.ensures_bind ?_ fun _ => .refl ind
    intro links _
    exact Linking.ensures_revise (Revision.ensures_addLinks links)

end Linker

namespace Mutator

open Attempt

variable [RandomSource γ]

/-- What the mutator does to an individual is one of its operations. -/
theorem respects_evolves (s : Sampler) : Respects γ s Evolves where
  refl := .refl
  trans _ _ _ := .trans
  insertMain ind i a _ := evolves_insertMain ind i a
  removeMain _ _ _ _ := evolves_removeMain
  swapMain _ _ _ _ := evolves_swapMain
  relink _ r id _ _ h := (r.ensures_relink id).2 _ _ h
  setGene ind _ c _ t _ _ _ _ _ _ _ := evolves_setGene ind c.action c.param t

theorem evolves_mutate {s : Sampler} {m : Mutator} {impacts : Option ImpactHistory} {identity : Nat}
    {mutant : Mutant} (h : Yields (m.mutate s impacts identity ind : Attempt γ Mutant) mutant) :
    Evolves ind mutant.individual := by
  obtain ⟨changed, n, synced, hchanged, hsynced, rfl⟩ := steps_of_mutate h
  have hsync := Revision.ensures_sync.2 _ _ hsynced
  exact (((respects_evolves s).change hchanged).trans hsync).trans (evolves_descent synced _)

end Mutator

end CallEvolution
