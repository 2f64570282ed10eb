import CallEvolution.Proofs.LinkEnds
import CallEvolution.Proofs.LinkSteps
import CallEvolution.Proofs.Registration
import CallEvolution.Proofs.SecondPass
import CallEvolution.Proofs.Construction
import CallEvolution.Random.Words

/-! Passes over the links of a linker. Its links come in the order of their targets, so the first pass
already gives every parameter its last value. -/

namespace CallEvolution

open GeneTerm GeneTree

/-- Trees of one value and one mould: only the ids inside collections may differ. -/
def GeneTree.SameValue (t u : GeneTree) : Prop :=
  ∃ v w, t.Unfolds v ∧ u.Unfolds w ∧ v.mould = w.mould ∧ v.erase = w.erase

namespace Individual

variable {ind s fin u : Individual} {a : Action} {v : ParamSite} {b : GeneAddress} {l : Link}

theorem action?_of_mem (hids : ind.ids.Nodup) (ha : a ∈ ind.actions) : ind.action? a.id = some a := by
  rw [ids] at hids
  rw [action?]
  generalize ind.actions = as at hids ha
  induction as with
  | nil => cases ha
  | cons c as ih =>
    rw [List.map_cons, List.nodup_cons] at hids
    by_cases hc : c.id = a.id
    · rcases List.mem_cons.mp ha with rfl | ha
      · simp
      · exact absurd (hc ▸ List.mem_map_of_mem ha) hids.1
    · have hne : a ≠ c := fun he => hc (he ▸ rfl)
      simpa [hc] using ih hids.2 (List.mem_of_ne_of_mem hne ha)

theorem gene_of_mem (hids : ind.ids.Nodup) (ha : a ∈ ind.actions) (hv : v ∈ ParamSite.ofAction a) :
    ind.gene v.action v.index = .ok v.tree ∧ v.param ∈ a.params := by
  obtain ⟨i, p, hp, rfl⟩ := ParamSite.mem_ofAction_iff.mp hv
  exact ⟨gene_eq_ok_iff.mpr ⟨a, p, action?_of_mem hids ha, hp, rfl⟩, List.mem_of_getElem? hp⟩

theorem Carries.of_gene (h : ind.Carries b) (hgene : u.gene b.action b.param = ind.gene b.action b.param) :
    u.Carries b := by
  obtain ⟨v, ⟨t, ht, hv⟩, hb⟩ := h
  exact ⟨v, ⟨t, hgene.trans ht, hv⟩, hb⟩

/-- What a parameter offers, the individual carries. -/
theorem carries_of_offers (hids : ind.ids.Nodup)
    (htrees : ∀ a ∈ ind.actions, ∀ p ∈ a.params, p.gene.WellFormed) (ha : a ∈ ind.actions)
    (hv : v ∈ ParamSite.ofAction a) (h : v.Offers b) : ind.Carries b := by
  obtain ⟨hgene, hp⟩ := gene_of_mem hids ha hv
  obtain ⟨w, hw⟩ := (htrees a ha v.param hp).unfolds
  obtain ⟨haction, hparam, hfix⟩ := h
  exact ⟨w, ⟨v.tree, by rw [haction, hparam]; exact hgene, hw⟩, hfix w hw⟩

theorem carries_of_within {as : List Action} (hids : ind.ids.Nodup)
    (htrees : ∀ a ∈ ind.actions, ∀ p ∈ a.params, p.gene.WellFormed) (has : as ⊆ ind.actions)
    (h : l.Within as) : ind.Carries l.source ∧ ind.Carries l.target := by
  obtain ⟨⟨a, ha, v, hv, hsource⟩, c, hc, w, hw, htarget⟩ := h
  exact ⟨carries_of_offers hids htrees (has ha) hv hsource.1,
    carries_of_offers hids htrees (has hc) hw htarget.1⟩

theorem carries_of_directs {row : Action} (hids : ind.ids.Nodup)
    (htrees : ∀ a ∈ ind.actions, ∀ p ∈ a.params, p.gene.WellFormed) (hrow : row ∈ ind.actions)
    (ha : a ∈ ind.actions) (h : l.Directs row a) : ind.Carries l.source ∧ ind.Carries l.target := by
  obtain ⟨-, v, hv, w, hw, ⟨hsource, htarget⟩ | ⟨-, hsource, htarget, -⟩⟩ := h
  · have hroot := ParamSite.offers_address (v := v) (fixes_root v.tree)
    exact ⟨hsource ▸ carries_of_offers hids htrees hrow hv hroot,
      carries_of_offers hids htrees ha hw htarget.1⟩
  · have hroot := ParamSite.offers_address (v := v) (fixes_root v.tree)
    exact ⟨carries_of_offers hids htrees ha hw hsource.1,
      htarget ▸ carries_of_offers hids htrees hrow hv hroot⟩

/-- Does no link lead to where itself or an earlier one starts? -/
def IsForward (ind : Individual) : Prop :=
  (∀ l ∈ ind.links, ¬ ind.Meet l.source l.target) ∧
    ind.links.Pairwise fun l k => ¬ ind.Meet l.source k.target

theorem Alike.between_self (h : s.Alike fin) : s.Between fin fin := by
  intro id i v hv
  obtain ⟨w, hw, hmould⟩ := h id i v hv
  exact ⟨w, w, hw, hw, hmould, hmould, fun _ _ => .inr rfl⟩

theorem Between.sameValue (h : s.Between s u) {id : ActionId} {i : Nat} {t : GeneTree}
    (ht : s.gene id i = .ok t) (hwell : ∃ v, s.Shows id i v) :
    ∃ t', u.gene id i = .ok t' ∧ t.SameValue t' := by
  obtain ⟨v, hv⟩ := hwell
  obtain ⟨w, x, hw, hx, -, hmould, hvalue⟩ := h id i v hv
  rw [hw.unique hv] at hvalue
  obtain ⟨t₁, ht₁, hunfolds⟩ := hv
  obtain ⟨t₂, ht₂, hunfolds'⟩ := hx
  rw [ht, Except.ok.injEq] at ht₁
  subst ht₁
  refine ⟨t₂, ht₂, v, x, hunfolds, hunfolds', hmould.symm, ?_⟩
  have hvx : ∀ z ∈ v.fixed, v.valueAt z = x.valueAt z := fun z hz => by
    rcases hvalue z hz with he | he <;> exact he.symm
  exact erase_eq_of_places hunfolds.holds.shaped hunfolds'.holds.shaped hunfolds.holds.distinct
    hunfolds'.holds.distinct hmould.symm hvx

end Individual

variable {γ : Type} {ind linked synced : Individual} {m n : Nat}

namespace Revision

/-- A pass keeps the links and makes no parameter. -/
theorem kept_of_sync (h : Gives ((sync : Revision γ Nat).run.run ind) (.ok n, synced)) :
    synced.links = ind.links ∧
      ∀ id i t, synced.gene id i = .ok t → ∃ t', ind.gene id i = .ok t' := by
  have hkeeps : Ensures (sync : Revision γ Nat) ind fun _ u => u.links = ind.links ∧
      ∀ id i t, u.gene id i = .ok t → ∃ t', ind.gene id i = .ok t' := by
    refine Ensures.get_bind (ensures_applyAll
      (Q := fun s u => u.links = s.links ∧ ∀ id i t, u.gene id i = .ok t → ∃ t', s.gene id i = .ok t')
      (fun _ => ⟨rfl, fun _ _ t h => ⟨t, h⟩⟩) ?_ ?_)
    · rintro s u w ⟨hlinks, hgenes⟩ ⟨hlinks', hgenes'⟩
      refine ⟨hlinks'.trans hlinks, fun id i t ht => ?_⟩
      obtain ⟨t', ht'⟩ := hgenes' id i t ht
      exact hgenes id i t' ht'
    · intro l _ s
      refine ensures_applyLink.mono ?_
      rintro r u (rfl | ⟨source, t, -, -, -, r', t', -, rfl, -⟩)
      · exact ⟨rfl, fun _ _ t h => ⟨t, h⟩⟩
      · exact ⟨Individual.links_setGene .., fun _ _ _ => Individual.exists_gene_of_setGene⟩
  exact hkeeps.2 _ _ h

/-- A pass over links that come in order settles the values, whoever gets the result. -/
theorem settles_of_sync (d : Descent) (htrees : ∀ a ∈ ind.actions, ∀ p ∈ a.params, p.gene.WellFormed)
    (hends : ∀ l ∈ ind.links, ind.Carries l.source ∧ ind.Carries l.target) (hforward : ind.IsForward)
    (h : Gives ((sync : Revision γ Nat).run.run ind) (.ok n, synced)) :
    ∃ again, Yields (sync : Revision γ Nat) { synced with descent := d } (.ok n) again ∧
      ∀ id i t, synced.gene id i = .ok t → ∃ u, again.gene id i = .ok u ∧ t.SameValue u := by
  have hrun : Gives ((applyAll ind.links : Revision γ Nat).run.run ind) (.ok n, synced) := h
  have halike := (kept_of_applyAll hends hrun).1
  -- the second pass starts where the first one has ended
  have hbetween : ind.Between synced { synced with descent := d } := halike.between_self
  obtain ⟨again, hagain, hbetween⟩ := between_applyAll hends hrun hforward.1 hforward.2 hbetween
  obtain ⟨hkept, hgenes⟩ := kept_of_sync h
  refine ⟨again, hagain.sync hkept, fun id i t ht => hbetween.sameValue ht ?_⟩
  obtain ⟨t', ht'⟩ := hgenes id i t ht
  obtain ⟨v, hv⟩ := (Individual.wellFormed_of_gene htrees ht').unfolds
  obtain ⟨w, hw, -⟩ := halike id i v ⟨t', ht', hv⟩
  exact ⟨w, hw⟩

end Revision

namespace Linker

variable [RandomSource γ] {r : Linker}

theorem steps_of_linkAll (h : Gives ((r.linkAll : Linking γ Nat).run.run ind) (.ok m, linked)) :
    ∃ ls, Attempt.Yields (r.allProposals [] ind.main : Matching.Proposal γ (List Link)) ls ∧
      Gives ((Revision.addLinks ls : Revision γ Nat).run.run ind) (.ok m, linked) := by
  obtain ⟨ls, u, hls, hadd⟩ := gives_of_bind_ok (Linking.gives_of_get_bind h)
  obtain ⟨rfl, hyields⟩ := Linking.views_search.2 _ _ hls
  exact ⟨ls, hyields ls rfl, Linking.gives_of_revise hadd⟩

/-- Links that are all registered at once come in the order of their targets. -/
theorem forward_of_linkAll (hids : ind.ids.Nodup) (hlinks : ind.links = [])
    (htrees : ∀ a ∈ ind.actions, ∀ p ∈ a.params, p.gene.WellFormed)
    (h : Gives ((r.linkAll : Linking γ Nat).run.run ind) (.ok m, linked)) :
    linked.actions = ind.actions ∧ linked.IsForward ∧
      ∀ l ∈ linked.links, linked.Carries l.source ∧ linked.Carries l.target := by
  obtain ⟨ls, hls, hadd⟩ := steps_of_linkAll h
  obtain ⟨ks, hks, rfl, -⟩ := Revision.links_addLinks hadd
  have hmain : (([] ++ ind.main).map Action.id).Nodup := by
    rw [Individual.ids_eq, List.nodup_append] at hids
    exact hids.2.1
  obtain ⟨hends, horder⟩ := forward_of_allProposals hmain hls
  rw [hlinks, List.nil_append]
  refine ⟨rfl, ⟨fun l hl hmeet => ?_, ?_⟩, fun l hl => ?_⟩
  · exact (hends l (hks.subset hl)).2 hmeet.1
  · exact (horder.sublist hks).imp fun hne hmeet => hne hmeet.1
  · exact Individual.carries_of_within hids htrees (List.subset_append_right _ _)
      (hends l (hks.subset hl)).1

/-- After all links of a linker are registered, one pass over them settles the values: a second pass
counts as many links and leaves every parameter the value it has. -/
theorem settles_after_linkAll (g g' h h' : γ) (hids : ind.ids.Nodup) (hlinks : ind.links = [])
    (htrees : ∀ a ∈ ind.actions, ∀ p ∈ a.params, p.gene.WellFormed)
    (hlink : (r.linkAll : Linking γ Nat).run.run ind g = .ok ((.ok m, linked), g'))
    (hsync : (Revision.sync : Revision γ Nat).run.run linked h = .ok ((.ok n, synced), h')) :
    ∃ again, (∀ k : γ, (Revision.sync : Revision γ Nat).run.run synced k = .ok ((.ok n, again), k)) ∧
      ∀ id i t, synced.gene id i = .ok t → ∃ u, again.gene id i = .ok u ∧ t.SameValue u := by
  obtain ⟨hactions, hforward, hends⟩ := forward_of_linkAll hids hlinks htrees ⟨g, g', hlink⟩
  exact Revision.settles_of_sync synced.descent (hactions ▸ htrees) hends hforward ⟨h, h', hsync⟩

/-- The value of a first call reaches two others, and the links from the first to the last and from the
second to the last agree on it. -/
theorem settles_after_linkAll_of_calls :
    let tree (value min max : Int32) : GeneTree := leaf "id" (.integer value min max)
    let call (id : Nat) (t : GeneTree) : Action :=
      ⟨⟨id⟩, "call", .rpc "service" "method", [⟨"id", .path, t⟩], true⟩
    let link (a b : Nat) : Link := ⟨⟨⟨a⟩, 0, ⟨0⟩⟩, ⟨⟨b⟩, 0, ⟨0⟩⟩, .params⟩
    let ind := { Individual.new .random 0 with
      main := [call 1 (tree 7 7 9), call 2 (tree 0 0 9), call 3 (tree 8 0 8)] }
    let linked := { ind with links := [link 1 2, link 1 3, link 2 3] }
    let synced := { linked with
      main := [call 1 (tree 7 7 9), call 2 (tree 7 0 9), call 3 (tree 7 0 8)] }
    (({} : Linker).linkAll : Linking WordSource Nat).run.run ind ⟨[], 1⟩ =
        .ok ((.ok 3, linked), ⟨[], 1⟩) ∧
      (Revision.sync : Revision WordSource Nat).run.run linked ⟨[], 1⟩ =
        .ok ((.ok 3, synced), ⟨[], 1⟩) ∧
      ∃ again, (Revision.sync : Revision WordSource Nat).run.run synced ⟨[], 1⟩ =
          .ok ((.ok 3, again), ⟨[], 1⟩) ∧
        ∀ id i t, synced.gene id i = .ok t → ∃ u, again.gene id i = .ok u ∧ t.SameValue u := by
  intro tree call link ind linked synced
  have hids : ind.ids.Nodup := by decide
  have htrees : ∀ a ∈ ind.actions, ∀ p ∈ a.params, p.gene.WellFormed := by
    simp [ind, call, Individual.actions, Individual.new]
    exact ⟨wellFormed_leaf _ rfl, wellFormed_leaf _ rfl, wellFormed_leaf _ rfl⟩
  have hlink : (({} : Linker).linkAll : Linking WordSource Nat).run.run ind ⟨[], 1⟩ =
      .ok ((.ok 3, linked), ⟨[], 1⟩) := rfl
  let half := { linked with
    main := [call 1 (tree 7 7 9), call 2 (tree 7 0 9), call 3 (tree 8 0 8)] }
  have hstep : Revision.Yields (Revision.applyLink (link 1 2)) linked (.ok true) half :=
    fun _ : WordSource => rfl
  have hstep' : Revision.Yields (Revision.applyLink (link 1 3)) half (.ok true) synced :=
    fun _ : WordSource => rfl
  have hstep'' : Revision.Yields (Revision.applyLink (link 2 3)) synced (.ok true) synced :=
    fun _ : WordSource => rfl
  have hnone : Revision.Yields (Revision.applyAll []) synced (.ok 0) synced :=
    Revision.yields_pure (γ := WordSource) 0 synced
  have hpass := hstep.applyAll_cons (hstep'.applyAll_cons (hstep''.applyAll_cons hnone))
  have hsync : Revision.Yields Revision.sync linked (.ok 3) synced := hpass.sync rfl
  have hlinks : ind.links = [] := rfl
  obtain ⟨again, hagain, hsame⟩ :=
    settles_after_linkAll (γ := WordSource) (m := 3) (n := 3) ⟨[], 1⟩ ⟨[], 1⟩ ⟨[], 1⟩ ⟨[], 1⟩ hids
      hlinks htrees hlink (hsync ⟨[], 1⟩)
  exact ⟨hlink, hsync ⟨[], 1⟩, again, hagain ⟨[], 1⟩, hsame⟩

end Linker
end CallEvolution
