import CallEvolution.Proofs.Lookups

/-! One link of a pass. It draws nothing, writes to the region of its target only, and does the same in
two individuals that agree on its source. -/

namespace CallEvolution

open GeneTerm GeneTree

namespace Individual

variable {ind : Individual} {l : Link} {v p : GeneTerm}

/-- The value at the source of a link is that of the part there, without its owner. -/
theorem exists_sourceValue {hs : List Hole}
    (hshows : ind.Shows l.source.action l.source.param (plug hs p)) (hp : p.id = l.source.node) :
    ∃ src s, ind.sourceValue? l = some src ∧ src.Holds s ∧ s.id = src.root ∧
      s.erase = p.erase.withParent none := by
  obtain ⟨t, ht, hv⟩ := hshows
  obtain ⟨src, f, hextract, hsrc⟩ := hv.holds.of_plug.extract
  refine ⟨src, (p.rename f).withParent none, ?_, hsrc.holds, hsrc.root, ?_⟩
  · rw [sourceValue?, ht, ← hp]
    simp only [hextract]
    rfl
  · rw [erase, rename_withParent, ← erase, erase_rename]
    rfl

theorem Shows.exists_holds {id : ActionId} {i : Nat} (h : ind.Shows id i v) :
    ∃ t : GeneTree, t.Holds v := by
  obtain ⟨t, -, hv⟩ := h
  exact ⟨t, hv.holds⟩

theorem Shows.contains {t : GeneTree} {i : Nat} {id : ActionId} {x : NodeId}
    (hshows : ind.Shows id i v) (ht : ind.gene id i = .ok t) (hx : x ∈ v.fixed) :
    t.contains x = true := by
  obtain ⟨u, hu, hv⟩ := hshows
  rw [ht, Except.ok.injEq] at hu
  subst hu
  obtain ⟨n, -, hn⟩ := hv.holds.get?_of_mem (mem_ids_of_mem_fixed hx)
  rw [GeneTree.contains, hn]
  rfl

end Individual

namespace Revision

variable {γ α β : Type}

/-- A step that ends with the same result whatever the state of the source, and draws nothing. -/
def Yields (x : Revision γ α) (ind : Individual) (r : Except ActionError α) (ind' : Individual) : Prop :=
  ∀ g : γ, x.run.run ind g = .ok ((r, ind'), g)

theorem yields_pure (a : α) (ind : Individual) : Yields (pure a : Revision γ α) ind (.ok a) ind :=
  fun _ => rfl

theorem yields_query {q : Individual → Except ActionError α} {ind : Individual}
    {r : Except ActionError α} (h : q ind = r) : Yields (query q : Revision γ α) ind r ind := by
  intro g
  rw [← h]
  rfl

theorem yields_get (ind : Individual) : Yields (get : Revision γ Individual) ind (.ok ind) ind :=
  fun _ => rfl

theorem Yields.bind_ok {x : Revision γ α} {f : α → Revision γ β} {ind ind₁ ind₂ : Individual} {a : α}
    {r : Except ActionError β} (h : Yields x ind (.ok a) ind₁) (hf : Yields (f a) ind₁ r ind₂) :
    Yields (x >>= f) ind r ind₂ := by
  intro g
  change (x.run.run ind g >>= _) = _
  rw [h g]
  exact hf g

theorem Yields.bind_error {x : Revision γ α} {f : α → Revision γ β} {ind ind₁ : Individual}
    {e : ActionError} (h : Yields x ind (.error e) ind₁) : Yields (x >>= f) ind (.error e) ind₁ := by
  intro g
  change (x.run.run ind g >>= _) = _
  rw [h g]
  rfl

theorem yields_lift {d : Draw γ α} {ind : Individual} {a : α} (h : ∀ g, d g = .ok (a, g)) :
    Yields (ExceptT.lift (StateT.lift d) : Revision γ α) ind (.ok a) ind := by
  have hd : d = pure a := funext h
  intro g
  rw [hd]
  rfl

theorem yields_editGene {e : Edit α} {ind : Individual} {id : ActionId} {i : Nat} {t t' : GeneTree}
    {r : Except GeneError α} (ht : ind.gene id i = .ok t) (hrun : e.run.run t = .ok (r, t')) :
    Yields (editGene id i (RandomEdit.lift e) : Revision γ α) ind (r.mapError .gene)
      (ind.setGene id i t') := by
  refine Yields.bind_ok (yields_query ht) ?_
  have hlift : ∀ g : γ, (RandomEdit.lift e : RandomEdit γ α).run.run t g = .ok ((r, t'), g) := by
    intro g
    change (e.run.run t).map (fun r => (r, g)) = _
    rw [hrun]
    rfl
  refine Yields.bind_ok (yields_lift hlift) fun g => rfl

theorem yields_applyLink {l : Link} {ind : Individual} {src t t' : GeneTree}
    {r : Except GeneError Bool} (hsrc : ind.sourceValue? l = some src)
    (ht : ind.gene l.target.action l.target.param = .ok t) (hz : t.contains l.target.node = true)
    (hrun : (Edit.adopt l.target.node src src.root).run.run t = .ok (r, t')) :
    Yields (applyLink l : Revision γ Bool) ind (r.mapError .gene)
      (ind.setGene l.target.action l.target.param t') := by
  refine Yields.bind_ok (yields_get ind) ?_
  rw [hsrc]
  refine Yields.bind_ok (yields_query ht) ?_
  rw [if_pos hz]
  exact yields_editGene ht hrun

variable {l : Link} {ind other : Individual} {v v' w w' : GeneTerm}

/-- Individuals that agree on the source of a link have the same value there. -/
theorem exists_sourceValues (hv : ind.Shows l.source.action l.source.param v)
    (hv' : other.Shows l.source.action l.source.param v') (hmould : v.mould = v'.mould)
    (hx : l.source.node ∈ v.fixed)
    (hsame : ∀ x, v.Covers l.source.node x → v'.valueAt x = v.valueAt x) :
    ∃ src s src' s', ind.sourceValue? l = some src ∧ other.sourceValue? l = some src' ∧
      src.Holds s ∧ src'.Holds s' ∧ s.id = src.root ∧ s'.id = src'.root ∧ s.erase = s'.erase := by
  obtain ⟨_, hold⟩ := hv.exists_holds
  obtain ⟨_, hold'⟩ := hv'.exists_holds
  obtain ⟨hs, ks, p, q, rfl, rfl, hp, hq, hpq, hplain, hplain'⟩ :=
    exists_plugs hold.shaped hold'.shaped hmould hx
  have hpart := hold.of_plug
  have hpart' := hold'.of_plug
  have herase : p.erase = q.erase := by
    refine erase_eq_of_places hpart.shaped hpart'.shaped hpart.distinct hpart'.distinct hpq ?_
    intro y hy
    have hy' : y ∈ q.fixed := fixed_eq_of_mould_eq hpart.shaped hpart'.shaped hpq ▸ hy
    rw [← valueAt_plug_of_mem hold.distinct hplain hy, ← valueAt_plug_of_mem hold'.distinct hplain' hy',
      hsame y ⟨hs, p, rfl, hplain, hp, hy⟩]
  obtain ⟨src, s, hsrc, hs, hroot, hse⟩ := Individual.exists_sourceValue hv hp
  obtain ⟨src', s', hsrc', hs', hroot', hse'⟩ := Individual.exists_sourceValue hv' hq
  exact ⟨src, s, src', s', hsrc, hsrc', hs, hs', hroot, hroot', by rw [hse, hse', herase]⟩

/-- A link in two individuals that agree on its source. -/
theorem lockstep_applyLink (hv : ind.Shows l.source.action l.source.param v)
    (hv' : other.Shows l.source.action l.source.param v') (hmould : v.mould = v'.mould)
    (hx : l.source.node ∈ v.fixed)
    (hsame : ∀ x, v.Covers l.source.node x → v'.valueAt x = v.valueAt x)
    (hw : ind.Shows l.target.action l.target.param w)
    (hw' : other.Shows l.target.action l.target.param w') (hmould' : w.mould = w'.mould)
    (hz : l.target.node ∈ w.fixed) :
    ∃ r t u x x', Yields (applyLink l : Revision γ Bool) ind r
        (ind.setGene l.target.action l.target.param t) ∧
      Yields (applyLink l : Revision γ Bool) other r
        (other.setGene l.target.action l.target.param u) ∧
      t.Unfolds x ∧ u.Unfolds x' ∧ x.mould = w.mould ∧ x'.mould = w'.mould ∧
        w.Overwrites w' x x' ∧ ∀ z, ¬ w.Covers l.target.node z → x.valueAt z = w.valueAt z := by
  obtain ⟨src, s, src', s', hsrc, hsrc', hs, hs', hroot, hroot', hss⟩ :=
    exists_sourceValues hv hv' hmould hx hsame
  obtain ⟨t, ht, hwt⟩ := hw
  obtain ⟨u, hu, hwu⟩ := hw'
  have hlive := Individual.Shows.contains ⟨t, ht, hwt⟩ ht hz
  have hz' : l.target.node ∈ w'.fixed :=
    fixed_eq_of_mould_eq hwt.holds.shaped hwu.holds.shaped hmould' ▸ hz
  have hlive' := Individual.Shows.contains ⟨u, hu, hwu⟩ hu hz'
  obtain ⟨r, t', x, u', x', hrun, hrun', hxt, hxu, hover, hkept⟩ :=
    Edit.lockstep_adopt_at hwt.exact hwu.exact hwt.holds hwu.holds hs hs' hmould' hss hz
  rw [hroot] at hrun
  rw [hroot'] at hrun'
  exact ⟨r.mapError .gene, t', u', x, x', yields_applyLink hsrc ht hlive hrun,
    yields_applyLink hsrc' hu hlive' hrun', hwt.becomes hxt.becomes, hwu.becomes hxu.becomes,
    hxt.mould, hxu.mould, hover, hkept⟩

end Revision
end CallEvolution
