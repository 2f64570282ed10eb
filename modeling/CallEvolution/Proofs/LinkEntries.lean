import CallEvolution.Proofs.Settling

/-! Where links start and where they lead: to cores, or to the optionals around them. Which nodes these are
depends on the mould of a tree only, so it lasts. -/

namespace CallEvolution

open GeneTerm

namespace GeneTree

variable {t u : GeneTree} {v w : GeneTerm} {x y : NodeId}

/-- Trees of one mould have nodes that are alike but for their values at the same places outside of
collections. -/
theorem exists_nodes_of_mould (hv : t.Unfolds v) (hw : u.Unfolds w) (hmould : w.mould = v.mould)
    (hx : x ∈ v.fixed) : ∃ n n', t.get? x = some n ∧ u.get? x = some n' ∧ n'.blank = n.blank := by
  obtain ⟨hs, ks, p, q, rfl, rfl, rfl, hq, hpq, -, -⟩ :=
    exists_plugs hv.holds.shaped hw.holds.shaped hmould.symm hx
  obtain ⟨id, content, parts⟩ := p
  obtain ⟨id', content', parts'⟩ := q
  obtain rfl : id' = id := hq
  exact ⟨content, content', hv.holds.of_plug.get?_node, hw.holds.of_plug.get?_node,
    blank_eq_of_mould_eq hpq.symm⟩

theorem IsCore.of_mould (h : t.IsCore x) (hv : t.Unfolds v) (hw : u.Unfolds w)
    (hmould : w.mould = v.mould) (hx : x ∈ v.fixed) : u.IsCore x := by
  obtain ⟨g, hg, hcore⟩ := h
  obtain ⟨n, n', hn, hn', hblank⟩ := exists_nodes_of_mould hv hw hmould hx
  have hgene : n'.gene.blank = n.gene.blank := congrArg GeneNode.gene hblank
  rw [gene_of_get? hn, Except.ok.injEq] at hg
  subst hg
  refine ⟨n'.gene, gene_of_get? hn', ?_⟩
  rw [← Gene.isWrapper_blank, hgene, Gene.isWrapper_blank, hcore]

theorem exists_optional_of_blank {g : Gene} {active : Bool}
    (h : g.blank = (Gene.optional x active).blank) : ∃ active', g = .optional x active' := by
  cases g
  case optional y active' =>
    obtain ⟨rfl, -⟩ := Gene.optional.inj h
    exact ⟨active', rfl⟩
  all_goals cases h

theorem IsEntry.of_mould (h : t.IsEntry y) (hv : t.Unfolds v) (hw : u.Unfolds w)
    (hmould : w.mould = v.mould) (hy : y ∈ v.fixed) : u.IsEntry y := by
  rcases h with h | ⟨x, active, hgene, hcore⟩
  · exact .inl (h.of_mould hv hw hmould hy)
  · have hfixes : t.Fixes y := fun v' hv' => hv'.unique hv ▸ hy
    have hx := hfixes.owned hgene rfl List.mem_cons_self v hv
    obtain ⟨n, n', hn, hn', hblank⟩ := exists_nodes_of_mould hv hw hmould hy
    rw [gene_of_get? hn, Except.ok.injEq] at hgene
    have hoptional : n'.gene.blank = (Gene.optional x active).blank :=
      hgene ▸ congrArg GeneNode.gene hblank
    obtain ⟨active', hgene'⟩ := exists_optional_of_blank hoptional
    exact .inr ⟨x, active', hgene' ▸ gene_of_get? hn', hcore.of_mould hv hw hmould hx⟩

end GeneTree

open GeneTree

/-- Only a core gives way to a parameter of a better rank. -/
theorem Matching.not_wrapper_of_reversed {k s : Variant} (h : direction k s none = .reversed) :
    k ≠ .optional ∧ k ≠ .primaryKey := by
  constructor
  · rintro rfl
    cases h
  -- no side has a better rank than a primary key
  · rintro rfl
    cases s <;> cases h

namespace Individual

variable {ind u : Individual} {a : Action} {v : ParamSite} {b : GeneAddress} {l : Link}

/-- Is a core at an address? -/
def HasCore (ind : Individual) (b : GeneAddress) : Prop :=
  ∃ t, ind.gene b.action b.param = .ok t ∧ t.IsCore b.node

/-- Is a core or the optional around one at an address? -/
def HasEntry (ind : Individual) (b : GeneAddress) : Prop :=
  ∃ t, ind.gene b.action b.param = .ok t ∧ t.IsEntry b.node

theorem HasCore.alike (h : ind.HasCore b) (hb : ind.Carries b) (halike : ind.Alike u) : u.HasCore b := by
  obtain ⟨w, ⟨t, ht, hw⟩, hx⟩ := hb
  obtain ⟨w', ⟨t', ht', hw'⟩, hmould⟩ := halike _ _ w ⟨t, ht, hw⟩
  obtain ⟨s, hs, hcore⟩ := h
  obtain rfl : t = s := Except.ok.inj (ht.symm.trans hs)
  exact ⟨t', ht', hcore.of_mould hw hw' hmould hx⟩

theorem HasEntry.alike (h : ind.HasEntry b) (hb : ind.Carries b) (halike : ind.Alike u) :
    u.HasEntry b := by
  obtain ⟨w, ⟨t, ht, hw⟩, hx⟩ := hb
  obtain ⟨w', ⟨t', ht', hw'⟩, hmould⟩ := halike _ _ w ⟨t, ht, hw⟩
  obtain ⟨s, hs, hentry⟩ := h
  obtain rfl : t = s := Except.ok.inj (ht.symm.trans hs)
  exact ⟨t', ht', hentry.of_mould hw hw' hmould hx⟩

/-- Does a link join nodes outside of collections and lead to an entry? Links between calls start at
cores. -/
structure Fastens (ind : Individual) (l : Link) : Prop where
  source : ind.Carries l.source
  target : ind.Carries l.target
  core : l.origin = .params → ind.HasCore l.source
  entry : ind.HasEntry l.target

theorem Fastens.alike (h : ind.Fastens l) (halike : ind.Alike u) : u.Fastens l :=
  ⟨h.source.alike halike, h.target.alike halike, fun ho => (h.core ho).alike h.source halike,
    h.entry.alike h.target halike⟩

/-- What fastens a link are the genes at its ends. -/
theorem Fastens.of_genes (h : ind.Fastens l)
    (hsource : u.gene l.source.action l.source.param = ind.gene l.source.action l.source.param)
    (htarget : u.gene l.target.action l.target.param = ind.gene l.target.action l.target.param) :
    u.Fastens l := by
  refine ⟨h.source.of_gene hsource, h.target.of_gene htarget, fun ho => ?_, ?_⟩
  · obtain ⟨t, ht, hcore⟩ := h.core ho
    exact ⟨t, hsource.trans ht, hcore⟩
  · obtain ⟨t, ht, hentry⟩ := h.entry
    exact ⟨t, htarget.trans ht, hentry⟩

theorem hasCore_of_gives (hids : ind.ids.Nodup) (ha : a ∈ ind.actions) (hv : v ∈ ParamSite.ofAction a)
    (h : v.Gives b) : ind.HasCore b := by
  obtain ⟨⟨haction, hparam, -⟩, hcore⟩ := h
  exact ⟨v.tree, by rw [haction, hparam]; exact (gene_of_mem hids ha hv).1, hcore⟩

theorem hasEntry_of_takes (hids : ind.ids.Nodup)
    (htrees : ∀ a ∈ ind.actions, ∀ p ∈ a.params, p.gene.WellFormed) (ha : a ∈ ind.actions)
    (hv : v ∈ ParamSite.ofAction a) (h : v.Takes b) : ind.HasEntry b := by
  obtain ⟨hgene, hp⟩ := gene_of_mem hids ha hv
  obtain ⟨⟨haction, hparam, -⟩, hentry⟩ := h
  exact ⟨v.tree, by rw [haction, hparam]; exact hgene, hentry (htrees a ha v.param hp)⟩

theorem fastens_of_within {as : List Action} (hids : ind.ids.Nodup)
    (htrees : ∀ a ∈ ind.actions, ∀ p ∈ a.params, p.gene.WellFormed) (has : as ⊆ ind.actions)
    (h : l.Within as) : ind.Fastens l := by
  obtain ⟨hsource, htarget⟩ := carries_of_within hids htrees has h
  obtain ⟨⟨a, ha, v, hv, hgives⟩, c, hc, w, hw, htakes⟩ := h
  exact ⟨hsource, htarget, fun _ => hasCore_of_gives hids (has ha) hv hgives,
    hasEntry_of_takes hids htrees (has hc) hw htakes⟩

theorem fastens_of_directs {row : Action} (hids : ind.ids.Nodup)
    (htrees : ∀ a ∈ ind.actions, ∀ p ∈ a.params, p.gene.WellFormed) (hrow : row ∈ ind.actions)
    (ha : a ∈ ind.actions) (h : l.Directs row a) : ind.Fastens l := by
  obtain ⟨hsource, htarget⟩ := carries_of_directs hids htrees hrow ha h
  obtain ⟨horigin, v, hv, w, hw, h⟩ := h
  refine ⟨hsource, htarget, fun hparams => ?_, ?_⟩
  · rw [horigin] at hparams
    cases hparams
  obtain ⟨-, htakes⟩ | ⟨-, -, hroot, k, s, hk, -, hdirection⟩ := h
  · exact hasEntry_of_takes hids htrees ha hw htakes
  · obtain ⟨hoptional, hkey⟩ := Matching.not_wrapper_of_reversed hdirection
    rw [hroot]
    exact ⟨v.tree, (gene_of_mem hids hrow hv).1, .inl (isCore_of_variant hk hoptional hkey)⟩

end Individual
end CallEvolution
