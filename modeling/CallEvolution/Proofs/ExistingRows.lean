import CallEvolution.Proofs.LinkEnds
import CallEvolution.Proofs.LinkSteps
import CallEvolution.Proofs.Registration
import Mathlib.Data.List.Forall2

/-! Rows that stand for existing data. No linker lets a link lead to such a row, and mutations pass it
over, so it keeps its values whatever is bound, synchronised or mutated. -/

namespace CallEvolution

open Attempt

theorem forall₂_trans {α : Type} {R : α → α → Prop} {xs ys zs : List α}
    (hR : ∀ x y z, R x y → R y z → R x z) (h : List.Forall₂ R xs ys) (h' : List.Forall₂ R ys zs) :
    List.Forall₂ R xs zs := by
  induction h generalizing zs with
  | nil =>
    cases h'
    exact .nil
  | cons hxy _ ih =>
    cases h' with
    | cons hyz hrest => exact .cons (hR _ _ _ hxy hyz) (ih hrest)

theorem Individual.forall₂_modifyFirst {R : Action → Action → Prop} {f : Action → Action} {id : ActionId}
    {as : List Action} (hR : ∀ a, R a a) (hf : ∀ a ∈ as, a.id = id → R a (f a)) :
    List.Forall₂ R as (modifyFirst id f as) := by
  induction as with
  | nil => exact .nil
  | cons a as ih =>
    obtain ⟨ha, has⟩ := List.forall_mem_cons.mp hf
    by_cases hsame : a.id = id
    · rw [modifyFirst, if_pos hsame]
      exact .cons (ha hsame) (List.forall₂_same.mpr fun b _ => hR b)
    · rw [modifyFirst, if_neg hsame]
      exact .cons (hR a) (ih has)

/-- Does a row remain, with its values if it exists already? -/
structure Action.Stays (a b : Action) : Prop where
  id_eq : b.id = a.id
  kind_eq : b.kind = a.kind
  eq_of_existing : a.isExisting = true → b = a

namespace Action.Stays

variable {a b c : Action}

theorem refl (a : Action) : Stays a a := ⟨rfl, rfl, fun _ => rfl⟩

theorem isExisting_eq (h : Stays a b) : b.isExisting = a.isExisting := by
  rw [isExisting, h.kind_eq, isExisting]

theorem trans (h : Stays a b) (h' : Stays b c) : Stays a c := by
  refine ⟨h'.id_eq.trans h.id_eq, h'.kind_eq.trans h.kind_eq, fun ha => ?_⟩
  have hb : b.isExisting = true := h.isExisting_eq.trans ha
  rw [h'.eq_of_existing hb, h.eq_of_existing ha]

end Action.Stays

/-- Do rows remain in their order, with the values of those that exist already? -/
def Action.AllStay (as bs : List Action) : Prop := List.Forall₂ Action.Stays as bs

namespace Action.AllStay

variable {as bs cs : List Action} {a b : Action} {id : ActionId}

theorem refl (as : List Action) : AllStay as as := List.forall₂_same.mpr fun a _ => .refl a

theorem trans (h : AllStay as bs) (h' : AllStay bs cs) : AllStay as cs :=
  forall₂_trans (fun _ _ _ => .trans) h h'

theorem exists_of_mem (h : AllStay as bs) (hb : b ∈ bs) : ∃ a ∈ as, a.Stays b := by
  induction h with
  | nil => cases hb
  | cons hab _ ih =>
    rcases List.mem_cons.mp hb with rfl | hb
    · exact ⟨_, List.mem_cons_self, hab⟩
    · obtain ⟨a, ha, hstays⟩ := ih hb
      exact ⟨a, List.mem_cons_of_mem _ ha, hstays⟩

theorem mem (h : AllStay as bs) (ha : a ∈ as) (hold : a.isExisting = true) : a ∈ bs := by
  induction h with
  | nil => cases ha
  | cons hab _ ih =>
    rcases List.mem_cons.mp ha with rfl | ha
    · rw [← hab.eq_of_existing hold]
      exact List.mem_cons_self
    · exact List.mem_cons_of_mem _ (ih ha)

theorem map_id (h : AllStay as bs) : bs.map Action.id = as.map Action.id := by
  induction h with
  | nil => rfl
  | cons hab _ ih => rw [List.map_cons, List.map_cons, hab.id_eq, ih]

end Action.AllStay

namespace Individual

variable {γ : Type} {ind u v : Individual} {a : Action} {l : Link} {id : ActionId} {i : Nat}

/-- Does an id belong to no row that exists already? -/
def Spares (ind : Individual) (id : ActionId) : Prop :=
  ∀ a ∈ ind.init, a.isExisting = true → a.id ≠ id

/-- Does no link lead to a row that exists already? -/
structure SparesExisting (ind : Individual) : Prop where
  coherent : ind.Coherent
  spares : ∀ l ∈ ind.links, ind.Spares l.target.action

/-- If no link leads to a row that exists, such rows are kept, and no link leads to them then. -/
def KeepsExisting (ind u : Individual) : Prop :=
  ind.SparesExisting → Action.AllStay ind.init u.init ∧ u.SparesExisting

theorem Coherent.spares_of_main (h : ind.Coherent) (hid : id ∈ ind.mainIds) : ind.Spares id := by
  intro a ha _ he
  have hinit : id ∈ ind.initIds := he ▸ List.mem_map_of_mem ha
  exact h.not_main_of_init hinit hid

theorem Coherent.spares_of_row (h : ind.Coherent) (ha : a ∈ ind.init) (hnew : a.isExisting = false) :
    ind.Spares a.id := by
  intro b hb hold he
  have hnodup := h.ids_distinct
  rw [ids_eq] at hnodup
  have hsame : b = a := List.inj_on_of_nodup_map (List.Nodup.of_append_left hnodup) hb ha he
  rw [hsame, hnew] at hold
  cases hold

theorem Spares.of_allStay (h : Action.AllStay ind.init u.init) (hid : ind.Spares id) : u.Spares id := by
  intro b hb hold
  obtain ⟨a, ha, hstays⟩ := h.exists_of_mem hb
  rw [hstays.id_eq]
  exact hid a ha (hstays.isExisting_eq ▸ hold)

theorem Spares.setGene (hid : ind.Spares id) (i : Nat) (t : GeneTree) :
    Action.AllStay ind.init (ind.setGene id i t).init := by
  rw [Individual.setGene, modifyAction]
  split
  · exact forall₂_modifyFirst .refl fun a ha he => ⟨rfl, rfl, fun hold => absurd he (hid a ha hold)⟩
  · exact .refl ind.init

namespace KeepsExisting

theorem of_stays (hevolves : Evolves ind u) (hstays : ind.SparesExisting → Action.AllStay ind.init u.init)
    (hlinks : ind.SparesExisting → ∀ l ∈ u.links, l ∈ ind.links ∨ ind.Spares l.target.action) :
    KeepsExisting ind u := by
  intro h
  have hrows := hstays h
  refine ⟨hrows, hevolves.coherent h.coherent, fun l hl => .of_allStay hrows ?_⟩
  rcases hlinks h l hl with hold | hspares
  · exact h.spares l hold
  · exact hspares

/-- What leaves the rows alone and makes no link. -/
theorem of_links (hevolves : Evolves ind u) (hinit : u.init = ind.init)
    (hlinks : ∀ l ∈ u.links, l ∈ ind.links) : KeepsExisting ind u :=
  of_stays hevolves (fun _ => hinit ▸ .refl ind.init) fun _ l hl => .inl (hlinks l hl)

theorem refl (ind : Individual) : KeepsExisting ind ind := fun h => ⟨.refl _, h⟩

theorem trans (h : KeepsExisting ind u) (h' : KeepsExisting u v) : KeepsExisting ind v := by
  intro hind
  obtain ⟨hrows, hu⟩ := h hind
  obtain ⟨hrows', hv⟩ := h' hu
  exact ⟨hrows.trans hrows', hv⟩

end KeepsExisting

theorem keepsExisting_insertMain (ind : Individual) (i : Nat) (a : Action) :
    KeepsExisting ind (ind.insertMain i a).2 :=
  .of_links (evolves_insertMain ind i a) rfl fun _ hl => List.mem_of_mem_filter hl

theorem keepsExisting_removeMain (h : ind.removeMain i = some (a, u)) : KeepsExisting ind u := by
  have hevolves := evolves_removeMain h
  rw [removeMain] at h
  split at h
  · cases h
    exact .of_links hevolves rfl fun _ hl => List.mem_of_mem_filter hl
  · cases h

theorem keepsExisting_swapMain {j : Nat} (h : ind.swapMain i j = .ok u) : KeepsExisting ind u := by
  have hevolves := evolves_swapMain h
  rw [swapMain] at h
  split at h
  · cases h
    exact .of_links hevolves rfl fun _ hl => List.mem_of_mem_filter hl
  · cases h

theorem keepsExisting_setGene (hid : ind.SparesExisting → ind.Spares id) (i : Nat) (t : GeneTree) :
    KeepsExisting ind (ind.setGene id i t) :=
  .of_stays (evolves_setGene ind id i t) (fun h => (hid h).setGene i t) fun _ _ hl =>
    .inl (links_setGene ind id i t ▸ hl)

end Individual

open Individual Matching

variable {γ : Type} {ind u : Individual} {a row : Action} {id : ActionId} {l : Link} {ls : List Link}

theorem Link.Directs.target_of_existing (h : l.Directs row a) (hrow : row.isExisting = true) :
    l.target.action = a.id := by
  obtain ⟨-, v, -, w, hw, ⟨-, htarget⟩ | ⟨hnew, -⟩⟩ := h
  · rw [htarget.1.1, ParamSite.action_of_mem hw]
  · rw [hrow] at hnew
    cases hnew

/-- A link between a row and another action leads to that action, or to a row that is new. -/
theorem Link.Directs.spares (h : l.Directs row a) (hind : ind.Coherent) (hrow : row ∈ ind.init)
    (ha : ind.Spares a.id) : ind.Spares l.target.action := by
  cases hold : row.isExisting with
  | true => rwa [h.target_of_existing hold]
  | false =>
    obtain ⟨-, v, hv, w, hw, ⟨-, htarget⟩ | ⟨-, -, htarget, -⟩⟩ := h
    · rwa [htarget.1.1, ParamSite.action_of_mem hw]
    · rw [htarget]
      change ind.Spares v.action
      rw [ParamSite.action_of_mem hv]
      exact hind.spares_of_row hrow hold

namespace Revision

/-- Of the links to be registered some are appended, even if an error stops the rest. -/
theorem ensures_addLinks_appends (ls : List Link) :
    Ensures (addLinks ls : Revision γ Nat) ind fun _ u =>
      ∃ ks, ks ⊆ ls ∧ u = { ind with links := ind.links ++ ks } := by
  induction ls generalizing ind with
  | nil => exact Ensures.pure ⟨[], List.Subset.refl _, by simp⟩
  | cons l ls ih =>
    refine views_query.ensures_bind ?_ fun _ => ⟨[], List.nil_subset _, by simp⟩
    rintro ⟨taken, s⟩ hadd
    obtain ⟨js, hjs, rfl, -⟩ := added_of_addLink hadd
    refine Ensures.bind_ok (P := fun _ s' => s' = { ind with links := ind.links ++ js })
      (ensures_set ⟨_, rfl, rfl⟩) ?_
    rintro _ _ rfl
    refine Ensures.map (ih.mono ?_)
    rintro r u ⟨ks, hks, rfl⟩
    refine ⟨js ++ ks, ?_, by simp⟩
    exact List.append_subset.mpr ⟨fun k hk => by
      rw [List.mem_singleton.mp (hjs.subset hk)]
      exact List.mem_cons_self, fun k hk => List.mem_cons_of_mem _ (hks hk)⟩

theorem ensures_addLinks_keepsExisting
    (htargets : ind.SparesExisting → ∀ l ∈ ls, ind.Spares l.target.action) :
    Ensures (addLinks ls : Revision γ Nat) ind fun _ u => KeepsExisting ind u := by
  refine ((ensures_addLinks_appends ls).and (ensures_addLinks ls)).mono ?_
  rintro r u ⟨⟨ks, hks, rfl⟩, hevolves⟩
  refine .of_stays hevolves (fun _ => .refl _) fun hind l hl => ?_
  exact (List.mem_append.mp hl).imp_right fun hnew => htargets hind l (hks hnew)

/-- A pass over the links writes to their targets only. -/
theorem ensures_sync_keepsExisting :
    Ensures (sync : Revision γ Nat) ind fun _ u => KeepsExisting ind u := by
  have hlink : ∀ s : Individual, ∀ l ∈ s.links, Ensures (applyLink l : Revision γ Bool) s fun _ u =>
      u.links = s.links ∧ KeepsExisting s u := by
    intro s l hl
    refine ensures_applyLink.mono ?_
    rintro r u (rfl | ⟨source, t, -, -, -, r', t', -, rfl, -⟩)
    · exact ⟨rfl, .refl u⟩
    · exact ⟨links_setGene .., keepsExisting_setGene (fun hs => hs.spares l hl) _ _⟩
  have hpass := ensures_applyAll_of_mem .refl (fun _ _ _ => .trans) hlink (List.Subset.refl ind.links)
  exact Ensures.get_bind (hpass.mono fun _ _ h => h.2)

end Revision

namespace Linker

variable {r : Linker} {directives : List DbDirective}

/-- The directives may name any action but a row that exists. -/
theorem ensures_linkRows_keepsExisting (hid : id ∉ ind.initIds) :
    Ensures (r.linkRows id directives : Linking γ Nat) ind fun _ u => KeepsExisting ind u := by
  refine Ensures.get_bind ?_
  split
  · exact Ensures.throw (.refl ind)
  · next a ha =>
    refine Views.mk_pure.ensures_bind ?_ fun _ => .refl ind
    intro links hlinks
    refine Linking.ensures_revise (Revision.ensures_addLinks_keepsExisting fun hind l hl => ?_)
    obtain ⟨row, hrow, hdirects⟩ := directs_of_directedLinks hlinks l hl
    have hsame : a.id = id := by simpa using List.find?_some ha
    refine hdirects.spares hind.coherent hrow fun b hb _ he => hid ?_
    rw [← hsame, ← he]
    exact List.mem_map_of_mem hb

variable [RandomSource γ]

theorem ensures_linkAll_keepsExisting :
    Ensures (r.linkAll : Linking γ Nat) ind fun _ u => KeepsExisting ind u := by
  refine Ensures.get_bind (Linking.views_search.ensures_bind ?_ fun _ => .refl ind)
  intro links hlinks
  refine Linking.ensures_revise (Revision.ensures_addLinks_keepsExisting fun hind l hl => ?_)
  exact hind.coherent.spares_of_main (within_of_allProposals hlinks l hl).target_mem

theorem ensures_relink_keepsExisting :
    Ensures (r.relink id : Linking γ Nat) ind fun _ u => KeepsExisting ind u := by
  refine Ensures.get_bind ?_
  split
  · exact Ensures.pure (.refl ind)
  · next a after hdrop =>
    refine Linking.views_search.ensures_bind ?_ fun _ => .refl ind
    intro links hlinks
    refine Linking.ensures_revise (Revision.ensures_addLinks_keepsExisting fun hind l hl => ?_)
    have hwithin := within_of_proposalsAround hlinks l hl
    rw [← hdrop, List.takeWhile_append_dropWhile] at hwithin
    exact hind.coherent.spares_of_main hwithin.target_mem

end Linker

namespace Individual

variable {cs : List Candidate} {c : Candidate}

theorem mem_candidatesFrom {ps : List Parameter} {i : Nat} (h : ind.candidatesFrom a i ps = .ok cs)
    (hc : c ∈ cs) : c.action = a.id ∧ ∃ j p, c.param = i + j ∧ ps[j]? = some p ∧
      p.gene.isMutable p.gene.root = .ok true := by
  induction ps generalizing i cs with
  | nil =>
    cases h
    cases hc
  | cons p ps ih =>
    obtain ⟨found, hfound, h⟩ := ok_of_bind h
    obtain ⟨rest, hrest, h⟩ := ok_of_bind h
    cases h
    rcases List.mem_append.mp hc with hc | hc
    · rw [Option.mem_toList] at hc
      subst hc
      obtain ⟨changes, hmutable, hfound⟩ := ok_of_bind hfound
      split at hfound
      · cases hfound
      · next hchanges =>
        obtain ⟨_, -, hfound⟩ := ok_of_bind hfound
        split at hfound
        · cases hfound
        · obtain ⟨_, -, hfound⟩ := ok_of_bind hfound
          cases hfound
          rw [Bool.not_eq_true', Bool.not_eq_false] at hchanges
          exact ⟨rfl, 0, p, rfl, rfl, hchanges ▸ hmutable⟩
    · obtain ⟨haction, j, q, hj, hq, hmutable⟩ := ih hrest hc
      exact ⟨haction, j + 1, q, by omega, hq, hmutable⟩

/-- A candidate for a mutation is a parameter that can change, of an action that is no row which exists. -/
theorem mem_candidates (h : ind.candidates = .ok cs) (hc : c ∈ cs) :
    ∃ a ∈ ind.actions, a.isExisting = false ∧ c.action = a.id ∧
      ∃ p, a.param? c.param = some p ∧ p.gene.isMutable p.gene.root = .ok true := by
  obtain ⟨each, heach, h⟩ := ok_of_bind h
  cases h
  obtain ⟨own, hown, hc⟩ := List.mem_flatten.mp hc
  obtain ⟨a, ha, hown⟩ := ok_of_mapM heach own hown
  rw [List.mem_filter, Bool.not_eq_true'] at ha
  obtain ⟨haction, j, p, hj, hp, hmutable⟩ := mem_candidatesFrom hown hc
  obtain rfl : c.param = j := by omega
  exact ⟨a, ha.1, ha.2, haction, p, hp, hmutable⟩

theorem Coherent.spares_of_candidates (hind : ind.Coherent) (h : ind.candidates = .ok cs)
    (hc : c ∈ cs) : ind.Spares c.action := by
  obtain ⟨a, ha, hnew, hid, -⟩ := mem_candidates h hc
  rw [hid]
  rcases List.mem_append.mp ha with hrow | hmain
  · exact hind.spares_of_row hrow hnew
  · exact hind.spares_of_main (List.mem_map_of_mem hmain)

end Individual

namespace Mutator

variable [RandomSource γ] {m : Mutator}

theorem respects_keepsExisting (s : Sampler) : Respects γ s KeepsExisting where
  refl := .refl
  trans _ _ _ := .trans
  insertMain ind i a _ := keepsExisting_insertMain ind i a
  removeMain _ _ _ _ := keepsExisting_removeMain
  swapMain _ _ _ _ := keepsExisting_swapMain
  relink _ _ _ _ _ h := Linker.ensures_relink_keepsExisting.2 _ _ h
  setGene _ _ _ _ _ _ _ _ hcandidates hc _ _ :=
    keepsExisting_setGene (fun hind => hind.coherent.spares_of_candidates hcandidates hc) _ _

theorem keepsExisting_mutate {s : Sampler} {impacts : Option ImpactHistory} {identity : Nat}
    {mutant : Mutant} (h : Yields (m.mutate s impacts identity ind : Attempt γ Mutant) mutant) :
    KeepsExisting ind mutant.individual := by
  obtain ⟨changed, n, synced, hchanged, hsynced, rfl⟩ := steps_of_mutate h
  have hchange := (respects_keepsExisting s).change hchanged
  have hsync := Revision.ensures_sync_keepsExisting.2 _ _ hsynced
  exact (hchange.trans hsync).trans (.of_links (evolves_descent synced _) rfl fun _ hl => hl)

end Mutator

end CallEvolution
