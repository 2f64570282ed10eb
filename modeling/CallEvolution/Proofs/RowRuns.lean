import CallEvolution.Proofs.ExistingRows
import CallEvolution.Proofs.MendedKeys
import CallEvolution.Proofs.Settling
import CallEvolution.Random.Words

/-! Runs of seeds, step by step. Rows are drawn and repaired first. Behind that they are linked to calls, and
what links lead from or to is brought in line. -/

namespace CallEvolution

open Attempt Individual Matching

variable {γ : Type} {s : Sampler} {seed : Seed} {ind u : Individual} {id : ActionId} {n : Nat}

namespace Linker

variable {r : Linker} {directives : List DbDirective}

theorem steps_of_linkRows
    (h : Gives ((r.linkRows id directives : Linking γ Nat).run.run ind) (.ok n, u)) :
    ∃ a ls, ind.action? id = some a ∧ r.directedLinks ind a directives = .ok ls ∧
      Gives ((Revision.addLinks ls : Revision γ Nat).run.run ind) (.ok n, u) := by
  have h := Linking.gives_of_get_bind h
  cases ha : ind.action? id with
  | none =>
    rw [ha] at h
    cases Draw.eq_of_gives_pure h
  | some a =>
    rw [ha] at h
    obtain ⟨ls, s, hls, hadd⟩ := gives_of_bind_ok h
    obtain ⟨hlinks, rfl⟩ := Prod.mk.inj (Draw.eq_of_gives_pure hls)
    exact ⟨a, ls, rfl, hlinks.symm, Linking.gives_of_revise hadd⟩

variable [RandomSource γ]

theorem steps_of_relink (h : Gives ((r.relink id : Linking γ Nat).run.run ind) (.ok n, u)) :
    u = ind ∨ ∃ ls, (∀ l ∈ ls, l.Within ind.main) ∧
      Gives ((Revision.addLinks ls : Revision γ Nat).run.run ind) (.ok n, u) := by
  have h := Linking.gives_of_get_bind h
  split at h
  · cases Draw.eq_of_gives_pure h
    exact .inl rfl
  · next a after hdrop =>
    obtain ⟨ls, s, hls, hadd⟩ := gives_of_bind_ok h
    obtain ⟨rfl, hyields⟩ := Linking.views_search.2 _ _ hls
    refine .inr ⟨ls, fun l hl => ?_, Linking.gives_of_revise hadd⟩
    have hwithin := within_of_proposalsAround (hyields ls rfl) l hl
    rwa [← hdrop, List.takeWhile_append_dropWhile] at hwithin

end Linker

variable [RandomSource γ]

namespace Sampler

variable {names : List String} {ids : List ActionId} {identity : Nat}

theorem mainIds_addMain (ind : Individual) (a : Action) :
    (ind.addMain a).2.mainIds = ind.mainIds ++ [(ind.addMain a).1] := List.map_append

theorem keepsExisting_addMain (ind : Individual) (a : Action) : KeepsExisting ind (ind.addMain a).2 :=
  .of_links (evolves_addMain ind a) rfl fun _ hl => hl

theorem steps_of_addNamed {name : String}
    (h : Attempt.Yields (s.addNamed seed (name :: names) ind : Attempt γ (List ActionId × Individual))
      (ids, u)) :
    ∃ template a ids', s.catalog.at? name = some template ∧
      Attempt.Yields (s.fromTemplate template : Attempt γ Action) a ∧ ids = (ind.addMain a).1 :: ids' ∧
      Attempt.Yields (s.addNamed seed names (ind.addMain a).2 : Attempt γ (List ActionId × Individual))
        (ids', u) := by
  rw [addNamed] at h
  split at h
  · exact absurd h Attempt.not_throw
  · next template htemplate =>
    obtain ⟨a, ha, h⟩ := Attempt.of_bind h
    obtain ⟨⟨ids', v⟩, hv, h⟩ := Attempt.of_bind h
    have hids : ids = (ind.addMain a).1 :: ids' := congrArg Prod.fst (Attempt.eq_of_pure h)
    have hu : u = v := congrArg Prod.snd (Attempt.eq_of_pure h)
    subst hu
    exact ⟨template, a, ids', htemplate, ha, hids, hv⟩

theorem keepsExisting_addNamed
    (h : Attempt.Yields (s.addNamed seed names ind : Attempt γ (List ActionId × Individual)) (ids, u)) :
    KeepsExisting ind u ∧ (ind.mainIds ++ ids).Sublist u.mainIds ∧ u.init = ind.init ∧
      u.links = ind.links := by
  induction names generalizing ind ids with
  | nil =>
    obtain ⟨rfl, rfl⟩ := Prod.mk.inj (Attempt.eq_of_pure h)
    exact ⟨.refl _, by simp, rfl, rfl⟩
  | cons name names ih =>
    obtain ⟨template, a, ids', -, -, rfl, hrest⟩ := steps_of_addNamed h
    obtain ⟨hkeeps, hsub, hparts⟩ := ih hrest
    rw [mainIds_addMain, List.append_assoc] at hsub
    exact ⟨(keepsExisting_addMain ind a).trans hkeeps, hsub, hparts⟩

omit [RandomSource γ] in
/-- Directives are those of main actions, so what linking these to rows keeps to, following a seed does. -/
theorem respects_followLinks {Q : Individual → Individual → Prop} (hrefl : ∀ ind, Q ind ind)
    (htrans : ∀ ind u v, Q ind u → Q u v → Q ind v)
    (hlink : ∀ (ind u : Individual) (r : Linker) (id : ActionId) (directives : List DbDirective) (n : Nat),
      id ∈ ind.mainIds → Gives ((r.linkRows id directives : Linking γ Nat).run.run ind) (.ok n, u) → Q ind u)
    {links : List SeedLinks} (hids : ∀ id ∈ ids, id ∈ ind.mainIds)
    (h : Attempt.Yields (s.followLinks ids links ind : Attempt γ Individual) u) : Q ind u := by
  induction links generalizing ind with
  | nil =>
    rw [Attempt.eq_of_pure h]
    exact hrefl ind
  | cons l links ih =>
    rw [followLinks] at h
    split at h
    · exact ih hids h
    · next id hid =>
      obtain ⟨⟨n, v⟩, hv, h⟩ := Attempt.of_bind h
      have hv := Attempt.gives_of_ofChange hv
      have hmain : v.main = ind.main := by
        obtain ⟨a, ls, -, -, hadd⟩ := Linker.steps_of_linkRows hv
        obtain ⟨ks, -, rfl, -⟩ := Revision.links_addLinks hadd
        rfl
      have hrow := hlink _ _ _ _ _ _ (hids id (List.mem_of_getElem? hid)) hv
      refine htrans _ _ _ hrow (ih ?_ h)
      rw [mainIds, hmain]
      exact hids

omit [RandomSource γ] in
theorem keepsExisting_followLinks {links : List SeedLinks} (hids : ∀ id ∈ ids, id ∈ ind.mainIds)
    (h : Attempt.Yields (s.followLinks ids links ind : Attempt γ Individual) u) : KeepsExisting ind u := by
  refine respects_followLinks .refl (fun _ _ _ => .trans) ?_ hids h
  intro ind u r id directives n hmain hlink hind
  have hnew : id ∉ ind.initIds := fun hinit => hind.coherent.not_main_of_init hinit hmain
  exact (Linker.ensures_linkRows_keepsExisting hnew).2 _ _ hlink hind

/-- An individual comes from a seed by rows and calls, a repair, links of both kinds and a pass over them. -/
theorem steps_of_fromSeed (h : Attempt.Yields (s.fromSeed seed identity : Attempt γ Individual) u) :
    ∃ started ids named changed repaired n linked followed k,
      Attempt.Yields (addInit seed.init (.new .smart identity) : Attempt γ Individual) started ∧
      Attempt.Yields (s.addNamed seed seed.main started : Attempt γ (List ActionId × Individual))
        (ids, named) ∧
      Gives (named.repair : Draw γ (Bool × Individual)) (changed, repaired) ∧
      Gives ((s.linker.linkAll : Linking γ Nat).run.run repaired) (.ok n, linked) ∧
      (∀ id ∈ ids, id ∈ linked.mainIds) ∧
      Attempt.Yields (s.followLinks ids seed.links linked : Attempt γ Individual) followed ∧
      Gives ((Revision.sync : Revision γ Nat).run.run followed) (.ok k, u) := by
  obtain ⟨started, hinit, h⟩ := Attempt.of_bind h
  obtain ⟨⟨ids, named⟩, hnamed, h⟩ := Attempt.of_bind h
  obtain ⟨⟨changed, repaired⟩, hrepair, h⟩ := Attempt.of_bind h
  obtain ⟨⟨n, linked⟩, hlink, h⟩ := Attempt.of_bind h
  obtain ⟨followed, hfollow, h⟩ := Attempt.of_bind h
  obtain ⟨⟨k, synced⟩, hsync, h⟩ := Attempt.of_bind h
  rw [Attempt.eq_of_pure h]
  have hrepair := Attempt.gives_of_lift hrepair
  have hlink := Attempt.gives_of_ofChange hlink
  have hmain : linked.main = named.main := by
    obtain ⟨_, _, _, -, -, hmain, -⟩ := parts_of_repair hrepair
    obtain ⟨ls, -, hadd⟩ := Linker.steps_of_linkAll hlink
    obtain ⟨ks, -, rfl, -⟩ := Revision.links_addLinks hadd
    exact hmain
  refine ⟨started, ids, named, changed, repaired, n, linked, followed, k, hinit, hnamed, hrepair, hlink, ?_,
    hfollow, Attempt.gives_of_ofChange hsync⟩
  intro id hid
  rw [mainIds, hmain]
  exact (keepsExisting_addNamed hnamed).2.1.subset (List.mem_append_right _ hid)

end Sampler

/-- Is an individual a child that a mutator can make of another with a sampler? -/
def Mutator.Bears (γ : Type) [RandomSource γ] (s : Sampler) (ind u : Individual) : Prop :=
  ∃ (m : Mutator) (impacts : Option ImpactHistory) (identity : Nat) (mutant : Mutant),
    Attempt.Yields (m.mutate s impacts identity ind : Attempt γ Mutant) mutant ∧
      u = mutant.individual

end CallEvolution
