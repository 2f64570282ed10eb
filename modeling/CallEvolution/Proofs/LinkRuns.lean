import CallEvolution.Proofs.LinkSteps
import CallEvolution.Random.Words

/-! Runs of the operations on individuals. Each of them moves on from one individual to another that
evolves from it, so every run does. -/

namespace CallEvolution

open Individual

variable {γ : Type} {ind other : Individual}

/-- The operations on individuals. -/
inductive IndividualCall where
  | addInit (a : Action)
  | addMain (a : Action)
  | insertMain (index : Nat) (a : Action)
  | removeMain (index : Nat)
  | swapMain (a b : Nat)
  | addLink (l : Link)
  | detach (id : ActionId)
  | withoutLinks
  | sync
  | repair
  | linkAll (r : Linker)
  | relink (r : Linker) (id : ActionId)
  | linkRows (r : Linker) (id : ActionId) (directives : List DbDirective)
  | mutate (m : Mutator) (s : Sampler) (impacts : Option ImpactHistory) (identity : Nat)

namespace IndividualCall

/-- What is left by a step comes from it. -/
theorem evolves_of_left {ε : Type} {x : ExceptT ε (StateT Individual (Draw γ)) Nat}
    (hx : Ensures x ind fun _ u => Evolves ind u)
    (h : Gives (do let (_, left) ← x.run.run ind; return left) other) : Evolves ind other := by
  obtain ⟨⟨r, u⟩, hu, h⟩ := Draw.gives_of_bind h
  rw [Draw.eq_of_gives_pure h]
  exact hx.2 r u hu

variable [RandomSource γ]

/-- The individual that an operation leaves behind, whether it fails or not. -/
def leave (ind : Individual) : IndividualCall → Draw γ Individual
  | addInit a => return (ind.addInit a).2
  | addMain a => return (ind.addMain a).2
  | insertMain index a => return (ind.insertMain index a).2
  | removeMain index => return ((ind.removeMain index).map Prod.snd).getD ind
  | swapMain a b => return (ind.swapMain a b).toOption.getD ind
  | addLink l => return ((ind.addLink l).toOption.map Prod.snd).getD ind
  | detach id => return ind.detach id
  | withoutLinks => return ind.withoutLinks
  | sync => do
    let (_, left) ← (Revision.sync : Revision γ Nat).run.run ind
    return left
  | repair => do
    let (_, left) ← ind.repair
    return left
  | linkAll r => do
    let (_, left) ← r.linkAll.run.run ind
    return left
  | relink r id => do
    let (_, left) ← (r.relink id).run.run ind
    return left
  | linkRows r id directives => do
    let (_, left) ← (r.linkRows id directives : Linking γ Nat).run.run ind
    return left
  | mutate m s impacts identity => do
    match ← (m.mutate s impacts identity ind).run with
    | .ok mutant => return mutant.individual
    | .error _ => return ind

/-- The individual that is left behind by operations in a row. -/
def leaveAll (calls : List IndividualCall) (ind : Individual) : Draw γ Individual :=
  calls.foldlM (fun ind call => call.leave ind) ind

theorem evolves_of_leave {call : IndividualCall} (h : Gives (call.leave ind : Draw γ Individual) other) :
    Evolves ind other := by
  cases call with
  | addInit a =>
    rw [Draw.eq_of_gives_pure h]
    exact evolves_addInit ind a
  | addMain a =>
    rw [Draw.eq_of_gives_pure h]
    exact evolves_addMain ind a
  | insertMain index a =>
    rw [Draw.eq_of_gives_pure h]
    exact evolves_insertMain ind index a
  | removeMain index =>
    rw [Draw.eq_of_gives_pure h]
    cases hremoved : ind.removeMain index with
    | none => exact .refl ind
    | some r => exact evolves_removeMain hremoved
  | swapMain a b =>
    rw [Draw.eq_of_gives_pure h]
    cases hswapped : ind.swapMain a b with
    | error e => exact .refl ind
    | ok u => exact evolves_swapMain hswapped
  | addLink l =>
    rw [Draw.eq_of_gives_pure h]
    cases hadded : ind.addLink l with
    | error e => exact .refl ind
    | ok r => exact evolves_addLink hadded
  | detach id =>
    rw [Draw.eq_of_gives_pure h]
    exact evolves_detach ind id
  | withoutLinks =>
    rw [Draw.eq_of_gives_pure h]
    exact evolves_withoutLinks ind
  | sync => exact evolves_of_left Revision.ensures_sync h
  | repair =>
    obtain ⟨⟨changed, u⟩, hu, h⟩ := Draw.gives_of_bind h
    rw [Draw.eq_of_gives_pure h]
    exact evolves_repair hu
  | linkAll r => exact evolves_of_left r.ensures_linkAll h
  | relink r id => exact evolves_of_left (r.ensures_relink id) h
  | linkRows r id directives => exact evolves_of_left (r.ensures_linkRows id directives) h
  | mutate m s impacts identity =>
    obtain ⟨r, hr, h⟩ := Draw.gives_of_bind h
    cases r with
    | ok mutant =>
      rw [Draw.eq_of_gives_pure h]
      exact Mutator.evolves_mutate hr
    | error e =>
      rw [Draw.eq_of_gives_pure h]
      exact .refl ind

theorem evolves_of_leaveAll {calls : List IndividualCall}
    (h : Gives (leaveAll calls ind : Draw γ Individual) other) : Evolves ind other := by
  induction calls generalizing ind with
  | nil =>
    rw [Draw.eq_of_gives_pure h]
    exact .refl ind
  | cons call calls ih =>
    rw [leaveAll, List.foldlM_cons] at h
    obtain ⟨u, hu, h⟩ := Draw.gives_of_bind h
    exact (evolves_of_leave hu).trans (ih h)

/-- Whatever is done to a new individual in a row, ids and links stay in order; and an id that has been
used up by some time and stands in the individual later stood in it at that time. -/
theorem link_integrity (provenance : Provenance) (identity : Nat)
    (before after : List IndividualCall) (mid last : Individual) (s s' s'' : γ)
    (hbefore : leaveAll before (.new provenance identity) s = .ok (mid, s'))
    (hafter : leaveAll after mid s' = .ok (last, s'')) :
    mid.Coherent ∧ last.Coherent ∧ mid.nextId ≤ last.nextId ∧
      ∀ id ∈ last.ids, id.number < mid.nextId → id ∈ mid.ids := by
  have hthen := evolves_of_leaveAll ⟨s, s', hbefore⟩
  have hlast := evolves_of_leaveAll ⟨s', s'', hafter⟩
  have hcoherent := hthen.coherent (coherent_new provenance identity)
  exact ⟨hcoherent, hlast.coherent hcoherent, hlast.nextId_le, hlast.not_reused⟩

/-- A link joins the first of two calls to the second, goes when they are swapped, and the id of a call
that is removed does not come back. -/
theorem link_integrity_of_swap :
    let call := Action.template "call" (.rpc "service" "method") [⟨"n", .query, .integer "n"⟩] true
    let start := Individual.new .random 0
    let before := [addMain call, addMain call, addLink ⟨⟨⟨1⟩, 0, ⟨0⟩⟩, ⟨⟨2⟩, 0, ⟨0⟩⟩, .params⟩]
    let after := [swapMain 0 1, removeMain 1, addMain call]
    ∃ (mid last : Individual) (s s' : WordSource), leaveAll before start ⟨[], 1⟩ = .ok (mid, s) ∧
      leaveAll after mid s = .ok (last, s') ∧ mid.links.length = 1 ∧ last.links = [] ∧
      last.ids = [⟨2⟩, ⟨3⟩] ∧ mid.Coherent ∧ last.Coherent := by
  intro call start before after
  refine ⟨_, _, _, _, rfl, rfl, ?_, ?_, ?_, ?_⟩
  · decide +kernel
  · decide +kernel
  · decide +kernel
  · have h := link_integrity .random 0 before after _ _ (⟨[], 1⟩ : WordSource) _ _ rfl rfl
    exact ⟨h.1, h.2.1⟩

end IndividualCall
end CallEvolution
