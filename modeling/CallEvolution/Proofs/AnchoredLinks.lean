import CallEvolution.Proofs.Mutation
import CallEvolution.Proofs.RowRuns
import CallEvolution.Proofs.SoundActions
import CallEvolution.Proofs.Upkeep

/-! Links at anchors. The ends of all links that linkers make stand at nodes outside of collections, which
neither links nor mutations take away, so they stay there whatever the sampler and the mutator do. -/

namespace CallEvolution

open Individual GeneTree

variable {γ : Type}

namespace Individual

variable {ind u : Individual} {a : Action} {b : GeneAddress} {l : Link} {ls : List Link} {i j n : Nat}

/-- Are all trees well-formed, and do all links join nodes outside of collections? -/
structure Anchored (ind : Individual) : Prop where
  coherent : ind.Coherent
  sound : ∀ a ∈ ind.actions, a.IsSound
  ends : ∀ l ∈ ind.links, ind.Carries l.source ∧ ind.Carries l.target

theorem sound_of_alike (hids : u.ids.Nodup) (hsound : ∀ a ∈ ind.actions, a.IsSound)
    (halike : ind.Alike u)
    (hgenes : ∀ id i t, u.gene id i = .ok t → ∃ t', ind.gene id i = .ok t') :
    ∀ a ∈ u.actions, a.IsSound := by
  intro a ha p hp
  obtain ⟨i, hi⟩ := List.mem_iff_getElem?.mp hp
  have hgene := gene_eq_ok_iff.mpr ⟨a, p, action?_of_mem hids ha, hi, rfl⟩
  obtain ⟨t, ht⟩ := hgenes _ _ _ hgene
  obtain ⟨v, hv⟩ := (wellFormed_of_gene hsound ht).unfolds
  obtain ⟨w, ⟨t', ht', hw⟩, -⟩ := halike _ _ v ⟨t, ht, hv⟩
  rw [hgene, Except.ok.injEq] at ht'
  exact ht' ▸ hw.wellFormed

/-- Actions come and go, and those that stay are what they were. No link is new. -/
structure Rearranges (ind u : Individual) : Prop where
  evolves : Evolves ind u
  kept : ∀ a ∈ ind.actions, a.id ∈ u.ids → a ∈ u.actions
  links : u.links ⊆ ind.links

theorem Rearranges.gene_eq {id : ActionId} (h : Rearranges ind u) (hind : ind.ids.Nodup) (hu : u.ids.Nodup)
    (hold : id ∈ ind.ids) (hnew : id ∈ u.ids) (i : Nat) : u.gene id i = ind.gene id i := by
  obtain ⟨a, ha, rfl⟩ := List.mem_map.mp hold
  rw [gene, gene, action?_of_mem hu (h.kept a ha hnew), action?_of_mem hind ha]

theorem rearranges_addInit (ind : Individual) (a : Action) : Rearranges ind (ind.addInit a).2 := by
  refine ⟨evolves_addInit ind a, fun b hb _ => ?_, List.Subset.refl _⟩
  change b ∈ ind.init ++ [{ a with id := ⟨ind.nextId⟩ }] ++ ind.main
  rcases List.mem_append.mp hb with hb | hb
  · simp [hb]
  · simp [hb]

theorem actions_addMain (ind : Individual) (a : Action) :
    (ind.addMain a).2.actions = ind.actions ++ [{ a with id := ⟨ind.nextId⟩ }] :=
  (List.append_assoc ..).symm

theorem rearranges_addMain (ind : Individual) (a : Action) : Rearranges ind (ind.addMain a).2 := by
  refine ⟨evolves_addMain ind a, fun b hb _ => ?_, List.Subset.refl _⟩
  rw [actions_addMain]
  exact List.mem_append_left _ hb

theorem rearranges_insertMain (ind : Individual) (i : Nat) (a : Action) :
    Rearranges ind (ind.insertMain i a).2 := by
  refine ⟨evolves_insertMain ind i a, fun b hb _ => ?_, List.filter_sublist.subset⟩
  rcases List.mem_append.mp hb with hb | hb
  · exact List.mem_append_left _ hb
  · exact List.mem_append_right _ ((mem_main_insertMain ind i a b).mpr (.inr hb))

theorem rearranges_removeMain (hind : ind.Coherent) (h : ind.removeMain i = some (a, u)) :
    Rearranges ind u := by
  obtain ⟨hinit, -, hlinks⟩ := parts_of_removeMain h
  obtain ⟨ha, hmain⟩ := mem_main_removeMain hind.ids_distinct h
  refine ⟨evolves_removeMain h, fun b hb hid => ?_, hlinks ▸ List.filter_sublist.subset⟩
  rcases List.mem_append.mp hb with hb | hb
  · exact List.mem_append_left _ (hinit ▸ hb)
  · refine List.mem_append_right _ ((hmain b).mpr ⟨hb, fun he => ?_⟩)
    rw [he, ids_eq, List.mem_append, initIds, hinit] at hid
    rcases hid with hid | hid
    · exact hind.not_main_of_init hid (List.mem_map_of_mem ha)
    · obtain ⟨c, hc, hca⟩ := List.mem_map.mp hid
      exact ((hmain c).mp hc).2 hca

theorem perm_swapMain (h : ind.swapMain i j = .ok u) :
    u.init = ind.init ∧ u.actions.Perm ind.actions ∧ u.links ⊆ ind.links := by
  rw [Individual.swapMain] at h
  split at h
  · next x y hx hy =>
    cases h
    obtain ⟨hi, rfl⟩ := List.getElem?_eq_some_iff.mp hx
    obtain ⟨hj, rfl⟩ := List.getElem?_eq_some_iff.mp hy
    exact ⟨rfl, (List.set_set_perm hi hj).append_left _, List.filter_sublist.subset⟩
  · cases h

theorem rearranges_swapMain (h : ind.swapMain i j = .ok u) : Rearranges ind u := by
  obtain ⟨-, hperm, hlinks⟩ := perm_swapMain h
  exact ⟨evolves_swapMain h, fun b hb _ => hperm.mem_iff.mpr hb, hlinks⟩

namespace Anchored

theorem new (provenance : Provenance) (identity : Nat) : (Individual.new provenance identity).Anchored :=
  ⟨coherent_new provenance identity, List.forall_mem_nil _, List.forall_mem_nil _⟩

theorem gene_of_rearranges (h : ind.Anchored) (hre : Rearranges ind u) (hl : l ∈ u.links) (i : Nat) :
    u.gene l.source.action i = ind.gene l.source.action i ∧
      u.gene l.target.action i = ind.gene l.target.action i := by
  have hcoherent := hre.evolves.coherent h.coherent
  obtain ⟨hsource, htarget⟩ := h.coherent.ends_present l (hre.links hl)
  obtain ⟨hsource', htarget'⟩ := hcoherent.ends_present l hl
  exact ⟨hre.gene_eq h.coherent.ids_distinct hcoherent.ids_distinct hsource hsource' i,
    hre.gene_eq h.coherent.ids_distinct hcoherent.ids_distinct htarget htarget' i⟩

theorem rearranges (h : ind.Anchored) (hre : Rearranges ind u)
    (hsound : ∀ a ∈ u.actions, a ∈ ind.actions ∨ a.IsSound) : u.Anchored := by
  refine ⟨hre.evolves.coherent h.coherent, fun a ha => (hsound a ha).elim (h.sound a) id, fun l hl => ?_⟩
  obtain ⟨hs, ht⟩ := h.ends l (hre.links hl)
  exact ⟨hs.of_gene (h.gene_of_rearranges hre hl _).1, ht.of_gene (h.gene_of_rearranges hre hl _).2⟩

/-- Values change, and moulds do not. -/
theorem of_alike (h : ind.Anchored) (hevolves : Evolves ind u) (halike : ind.Alike u)
    (hgenes : ∀ id i t, u.gene id i = .ok t → ∃ t', ind.gene id i = .ok t')
    (hlinks : u.links ⊆ ind.links) : u.Anchored := by
  have hcoherent := hevolves.coherent h.coherent
  refine ⟨hcoherent, sound_of_alike hcoherent.ids_distinct h.sound halike hgenes, fun l hl => ?_⟩
  obtain ⟨hs, ht⟩ := h.ends l (hlinks hl)
  exact ⟨hs.alike halike, ht.alike halike⟩

theorem withDescent (h : ind.Anchored) (d : Descent) : { ind with descent := d }.Anchored :=
  ⟨(evolves_descent ind d).coherent h.coherent, h.sound, h.ends⟩

theorem addInit (h : ind.Anchored) (ha : a.IsSound) : (ind.addInit a).2.Anchored := by
  refine h.rearranges (rearranges_addInit ind a) fun b hb => ?_
  change b ∈ ind.init ++ [{ a with id := ⟨ind.nextId⟩ }] ++ ind.main at hb
  simp only [List.mem_append, List.mem_singleton] at hb
  rcases hb with (hb | rfl) | hb
  · exact .inl (List.mem_append_left _ hb)
  · exact .inr ha
  · exact .inl (List.mem_append_right _ hb)

theorem addMain (h : ind.Anchored) (ha : a.IsSound) : (ind.addMain a).2.Anchored := by
  refine h.rearranges (rearranges_addMain ind a) fun b hb => ?_
  rw [actions_addMain, List.mem_append, List.mem_singleton] at hb
  rcases hb with hb | rfl
  · exact .inl hb
  · exact .inr ha

theorem insertMain (h : ind.Anchored) (ha : a.IsSound) (i : Nat) : (ind.insertMain i a).2.Anchored := by
  refine h.rearranges (rearranges_insertMain ind i a) fun b hb => ?_
  rcases List.mem_append.mp hb with hb | hb
  · exact .inl (List.mem_append_left _ hb)
  · rcases (mem_main_insertMain ind i a b).mp hb with rfl | hb
    · exact .inr ha
    · exact .inl (List.mem_append_right _ hb)

theorem removeMain (h : ind.Anchored) (hremove : ind.removeMain i = some (a, u)) : u.Anchored := by
  obtain ⟨hinit, -, -⟩ := parts_of_removeMain hremove
  obtain ⟨-, hmain⟩ := mem_main_removeMain h.coherent.ids_distinct hremove
  refine h.rearranges (rearranges_removeMain h.coherent hremove) fun b hb => .inl ?_
  rcases List.mem_append.mp hb with hb | hb
  · exact List.mem_append_left _ (hinit ▸ hb)
  · exact List.mem_append_right _ ((hmain b).mp hb).1

theorem swapMain (h : ind.Anchored) (hswap : ind.swapMain i j = .ok u) : u.Anchored := by
  obtain ⟨-, hperm, -⟩ := perm_swapMain hswap
  exact h.rearranges (rearranges_swapMain hswap) fun b hb => .inl (hperm.mem_iff.mp hb)

variable {id : ActionId} {t t' : GeneTree} {v w : GeneTerm}

/-- A parameter gets a tree of the same mould. -/
theorem setGene (h : ind.Anchored) (hv : ind.Shows id i v) (hw : t.Unfolds w) (hmould : w.mould = v.mould) :
    (ind.setGene id i t).Anchored :=
  h.of_alike (evolves_setGene ind id i t) (alike_setGene hv hw hmould)
    (fun _ _ _ => exists_gene_of_setGene) (links_setGene ind id i t ▸ List.Subset.refl _)

theorem sync (h : ind.Anchored)
    (hsync : Gives ((Revision.sync : Revision γ Nat).run.run ind) (.ok n, u)) : u.Anchored := by
  obtain ⟨hlinks, hgenes⟩ := Revision.kept_of_sync hsync
  have hrun : Gives ((Revision.applyAll ind.links : Revision γ Nat).run.run ind) (.ok n, u) := hsync
  exact h.of_alike (Revision.ensures_sync.2 _ _ hsync) (Revision.kept_of_applyAll h.ends hrun).1 hgenes
    (hlinks ▸ List.Subset.refl _)

theorem addLinks (h : ind.Anchored) (hls : ∀ l ∈ ls, ind.Carries l.source ∧ ind.Carries l.target)
    (hadd : Gives ((Revision.addLinks ls : Revision γ Nat).run.run ind) (.ok n, u)) : u.Anchored := by
  have hcoherent := ((Revision.ensures_addLinks ls).2 _ _ hadd).coherent h.coherent
  obtain ⟨ks, hks, rfl, -⟩ := Revision.links_addLinks hadd
  refine ⟨hcoherent, h.sound, fun l hl => ?_⟩
  rcases List.mem_append.mp hl with hold | hnew
  · exact h.ends l hold
  · exact hls l (hks.subset hnew)

theorem addLinks_within (h : ind.Anchored) (hls : ∀ l ∈ ls, l.Within ind.main)
    (hadd : Gives ((Revision.addLinks ls : Revision γ Nat).run.run ind) (.ok n, u)) : u.Anchored :=
  h.addLinks (fun l hl => carries_of_within h.coherent.ids_distinct h.sound
    (List.subset_append_right _ _) (hls l hl)) hadd

variable {r : Linker}

theorem linkRows {directives : List DbDirective} (h : ind.Anchored)
    (hlink : Gives ((r.linkRows id directives : Linking γ Nat).run.run ind) (.ok n, u)) :
    u.Anchored := by
  obtain ⟨a, ls, ha, hls, hadd⟩ := Linker.steps_of_linkRows hlink
  refine h.addLinks (fun l hl => ?_) hadd
  obtain ⟨row, hrow, hdirects⟩ := Linker.directs_of_directedLinks hls l hl
  exact carries_of_directs h.coherent.ids_distinct h.sound (List.mem_append_left _ hrow)
    (List.mem_of_find?_eq_some ha) hdirects

variable [RandomSource γ]

theorem linkAll (h : ind.Anchored)
    (hlink : Gives ((r.linkAll : Linking γ Nat).run.run ind) (.ok n, u)) : u.Anchored := by
  obtain ⟨ls, hls, hadd⟩ := Linker.steps_of_linkAll hlink
  exact h.addLinks_within (Linker.within_of_allProposals hls) hadd

theorem relink (h : ind.Anchored)
    (hlink : Gives ((r.relink id : Linking γ Nat).run.run ind) (.ok n, u)) : u.Anchored := by
  rcases Linker.steps_of_relink hlink with rfl | ⟨ls, hls, hadd⟩
  · exact h
  · exact h.addLinks_within hls hadd

/-- A repair of rows that are not linked yet. -/
theorem repair {changed : Bool} (h : ind.Anchored) (hlinks : ind.links = [])
    (hrepair : Gives (ind.repair : Draw γ (Bool × Individual)) (changed, u)) :
    u.Anchored ∧ u.links = [] := by
  have hcoherent := (evolves_repair hrepair).coherent h.coherent
  obtain ⟨rows, removed, c, hrows, rfl, hmain, -, hleft⟩ := parts_of_repair hrepair
  have hnone : u.links = [] := by
    rw [hleft, hlinks]
    rfl
  have hsound := sound_of_repairFrom (fun a ha => h.sound a (List.mem_append_left _ ha)) hrows
  refine ⟨⟨hcoherent, fun a ha => ?_, ?_⟩, hnone⟩
  · rw [actions, hmain] at ha
    exact (List.mem_append.mp ha).elim (hsound a) fun ha => h.sound a (List.mem_append_right _ ha)
  · rw [hnone]
    exact List.forall_mem_nil _

end Anchored
end Individual

namespace Mutator

variable [RandomSource γ] {s : Sampler}

theorem respects_anchored (hs : s.IsSound) : Respects γ s fun ind u => ind.Anchored → u.Anchored where
  refl _ h := h
  trans _ _ _ h h' hind := h' (h hind)
  insertMain _ i _ ha h := h.insertMain (Sampler.sound_of_randomAction hs ha) i
  removeMain _ _ _ _ hremove h := h.removeMain hremove
  swapMain _ _ _ _ hswap h := h.swapMain hswap
  relink _ _ _ _ _ hlink h := h.relink hlink
  setGene ind _ c t t' _ _ ids _ _ ht hmutate h := by
    obtain ⟨v, hv⟩ := (wellFormed_of_gene h.sound ht).unfolds
    rw [← hv.root] at hmutate
    obtain ⟨w, hw⟩ := (RandomEdit.ensures_mutate hv.exact hv.holds _ _).2 _ _ hmutate
    exact h.setGene ⟨t, ht, hv⟩ (hv.becomes hw.becomes) hw.mould

end Mutator
end CallEvolution
