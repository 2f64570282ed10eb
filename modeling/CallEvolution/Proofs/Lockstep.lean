import CallEvolution.Proofs.Adoption
import CallEvolution.Proofs.Agreement
import CallEvolution.Proofs.Places

/-! Runs in lockstep: the same step in two trees that hold terms of one mould has the same result, and at
each place it leaves the same value in both or changes neither. -/

namespace CallEvolution

open GeneTerm GeneTree

theorem Gene.optional_of_blank {g : Gene} {inner : NodeId} (h : g.blank = .optional inner false) :
    ∃ active, g = .optional inner active := by
  cases g <;> cases h
  exact ⟨_, rfl⟩

/-- At each place `v` and `w` have got the same value, or both have kept their own. -/
def GeneTerm.Overwrites (v w v' w' : GeneTerm) : Prop :=
  ∀ x ∈ v.fixed, w'.valueAt x = v'.valueAt x ∨
    (v'.valueAt x = v.valueAt x ∧ w'.valueAt x = w.valueAt x)

theorem GeneTerm.Overwrites.trans {v w v' w' v₂ w₂ : GeneTerm} (h : v.Overwrites w v' w')
    (h₂ : v'.Overwrites w' v₂ w₂) (hfixed : v'.fixed = v.fixed) : v.Overwrites w v₂ w₂ := by
  intro x hx
  rcases h₂ x (hfixed ▸ hx) with heq | ⟨hv₂, hw₂⟩
  · exact .inl heq
  · rw [hv₂, hw₂]
    exact h x hx

namespace Edit

variable {t u src other : GeneTree} {v w s r : GeneTerm} {α β : Type}

/-- Two steps with the same result, one for `v` in `t` and one for `w` in `u`. -/
def Lockstep (x y : Edit α) (t : GeneTree) (v : GeneTerm) (u : GeneTree) (w : GeneTerm) : Prop :=
  ∃ result t' v' u' w', x.run.run t = .ok (result, t') ∧ y.run.run u = .ok (result, u') ∧
    Refills t v t' v' ∧ Refills u w u' w' ∧ v.Overwrites w v' w'

theorem lockstep_pure (ht : t.FreeExact) (hv : t.Holds v) (hu : u.FreeExact) (hw : u.Holds w) (a : α) :
    Lockstep (pure a) (pure a) t v u w :=
  ⟨.ok a, t, v, u, w, rfl, rfl, .refl ht hv, .refl hu hw, fun _ _ => .inr ⟨rfl, rfl⟩⟩

theorem lockstep_throw (ht : t.FreeExact) (hv : t.Holds v) (hu : u.FreeExact) (hw : u.Holds w)
    (e : GeneError) : Lockstep (throw e : Edit α) (throw e) t v u w :=
  ⟨.error e, t, v, u, w, rfl, rfl, .refl ht hv, .refl hu hw, fun _ _ => .inr ⟨rfl, rfl⟩⟩

theorem run_bind_ok {x : Edit α} {a : α} (f : α → Edit β) (h : x.run.run t = .ok (.ok a, u)) :
    (x >>= f).run.run t = (f a).run.run u := by
  change (x.run.run t >>= _) = _
  rw [h]
  rfl

theorem run_bind_error {x : Edit α} {e : GeneError} (f : α → Edit β)
    (h : x.run.run t = .ok (.error e, u)) : (x >>= f).run.run t = .ok (.error e, u) := by
  change (x.run.run t >>= _) = _
  rw [h]
  rfl

theorem Lockstep.bind {x y : Edit α} {f g : α → Edit β} (h : Lockstep x y t v u w)
    (hv : t.Holds v)
    (hfg : ∀ a t' v' u' w', Refills t v t' v' → Refills u w u' w' →
      Lockstep (f a) (g a) t' v' u' w') : Lockstep (x >>= f) (y >>= g) t v u w := by
  obtain ⟨result, t', v', u', w', hx, hy, hv', hw', hover⟩ := h
  cases result with
  | error e =>
    refine ⟨.error e, t', v', u', w', ?_, ?_, hv', hw', hover⟩
    · rw [run_bind_error f hx]
    · rw [run_bind_error g hy]
  | ok a =>
    obtain ⟨result, t₂, v₂, u₂, w₂, hf, hg, hv₂, hw₂, hover₂⟩ := hfg a t' v' u' w' hv' hw'
    have hfixed := fixed_eq_of_mould_eq hv'.holds.shaped hv.shaped hv'.mould
    refine ⟨result, t₂, v₂, u₂, w₂, ?_, ?_, hv'.trans hv₂, hw'.trans hw₂, hover.trans hover₂ hfixed⟩
    · rw [run_bind_ok f hx, hf]
    · rw [run_bind_ok g hy, hg]

theorem run_tryCatch_ok {x : Edit α} {a : α} (handle : GeneError → Edit α)
    (h : x.run.run t = .ok (.ok a, u)) : (tryCatch x handle).run.run t = .ok (.ok a, u) := by
  change (x.run.run t >>= _) = _
  rw [h]
  rfl

theorem run_tryCatch_error {x : Edit α} {e : GeneError} (handle : GeneError → Edit α)
    (h : x.run.run t = .ok (.error e, u)) :
    (tryCatch x handle).run.run t = (handle e).run.run u := by
  change (x.run.run t >>= _) = _
  rw [h]
  rfl

theorem Lockstep.tryCatch {x y : Edit α} {handle : GeneError → Edit α} (h : Lockstep x y t v u w)
    (hv : t.Holds v)
    (hhandle : ∀ e t' v' u' w', Refills t v t' v' → Refills u w u' w' →
      Lockstep (handle e) (handle e) t' v' u' w') :
    Lockstep (MonadExcept.tryCatch x handle) (MonadExcept.tryCatch y handle) t v u w := by
  obtain ⟨result, t', v', u', w', hx, hy, hv', hw', hover⟩ := h
  cases result with
  | ok a =>
    exact ⟨.ok a, t', v', u', w', run_tryCatch_ok handle hx, run_tryCatch_ok handle hy, hv', hw', hover⟩
  | error e =>
    obtain ⟨result, t₂, v₂, u₂, w₂, hf, hg, hv₂, hw₂, hover₂⟩ := hhandle e t' v' u' w' hv' hw'
    have hfixed := fixed_eq_of_mould_eq hv'.holds.shaped hv.shaped hv'.mould
    refine ⟨result, t₂, v₂, u₂, w₂, ?_, ?_, hv'.trans hv₂, hw'.trans hw₂, hover.trans hover₂ hfixed⟩
    · rw [run_tryCatch_error handle hx, hf]
    · rw [run_tryCatch_error handle hy, hg]

theorem run_query {q : GeneTree → Except GeneError α} : (query q).run.run t = .ok (q t, t) := rfl

/-- What the steps look at need not be the same if they go on alike. -/
theorem Lockstep.query_bind {q q' : GeneTree → Except GeneError α} {f g : α → Edit β} {a b : α}
    (hq : q t = .ok a) (hq' : q' u = .ok b) (h : Lockstep (f a) (g b) t v u w) :
    Lockstep (query q >>= f) (query q' >>= g) t v u w := by
  obtain ⟨result, t', v', u', w', hf, hg, hrest⟩ := h
  refine ⟨result, t', v', u', w', ?_, ?_, hrest⟩
  · rw [run_bind_ok f (by rw [run_query, hq]), hf]
  · rw [run_bind_ok g (by rw [run_query, hq']), hg]

theorem Lockstep.same_query_bind {q q' : GeneTree → Except GeneError α} {f g : α → Edit β}
    (ht : t.FreeExact) (hv : t.Holds v) (hu : u.FreeExact) (hw : u.Holds w) (hq : q t = q' u)
    (h : ∀ a, q t = .ok a → Lockstep (f a) (g a) t v u w) :
    Lockstep (query q >>= f) (query q' >>= g) t v u w := by
  cases hqt : q t with
  | ok a => exact query_bind hqt (hq ▸ hqt) (h a hqt)
  | error e =>
    refine ⟨.error e, t, v, u, w, ?_, ?_, .refl ht hv, .refl hu hw, fun _ _ => .inr ⟨rfl, rfl⟩⟩
    · rw [run_bind_error f (by rw [run_query, hqt])]
    · rw [run_bind_error g (by rw [run_query, ← hq, hqt])]

/-- Steps on parts of one mould outside of all collections. Other places stay as they are. -/
theorem Lockstep.plug {x y : Edit α} {hs ks : List Hole} {p q : GeneTerm} (h : Lockstep x y t p u q)
    (hv : t.Holds (GeneTree.plug hs p)) (hw : u.Holds (GeneTree.plug ks q)) (hpq : p.mould = q.mould)
    (hplain : ∀ h ∈ hs, h.content.gene.isCollection = false)
    (hplain' : ∀ h ∈ ks, h.content.gene.isCollection = false) :
    ∃ result t' v' u' w', x.run.run t = .ok (result, t') ∧ y.run.run u = .ok (result, u') ∧
      Refills t (GeneTree.plug hs p) t' v' ∧ Refills u (GeneTree.plug ks q) u' w' ∧
        (GeneTree.plug hs p).Overwrites (GeneTree.plug ks q) v' w' ∧
          ∀ z ∉ p.fixed, v'.valueAt z = (GeneTree.plug hs p).valueAt z := by
  obtain ⟨result, t', p', u', q', hx, hy, hp', hq', hover⟩ := h
  have hleft := hp'.plug hv hplain
  have hright := hq'.plug hw hplain'
  have hpfixed := fixed_eq_of_mould_eq hp'.holds.shaped hv.of_plug.shaped hp'.mould
  have hqfixed := fixed_eq_of_mould_eq hq'.holds.shaped hw.of_plug.shaped hq'.mould
  have hfixed := fixed_eq_of_mould_eq hv.of_plug.shaped hw.of_plug.shaped hpq
  have hkept : ∀ z ∉ p.fixed, (GeneTree.plug hs p').valueAt z = (GeneTree.plug hs p).valueAt z :=
    fun z hz => valueAt_plug_of_notMem hplain hz hpfixed
  refine ⟨result, t', _, u', _, hx, hy, hleft, hright, fun z hz => ?_, hkept⟩
  -- inside the parts the steps agree, outside of them nothing has changed
  by_cases hzp : z ∈ p.fixed
  · have hzq : z ∈ q.fixed := hfixed ▸ hzp
    rw [valueAt_plug_of_mem hv.distinct hplain hzp, valueAt_plug_of_mem hw.distinct hplain' hzq,
      valueAt_plug_of_mem hleft.holds.distinct hplain (hpfixed ▸ hzp),
      valueAt_plug_of_mem hright.holds.distinct hplain' (hqfixed ▸ hzq)]
    exact hover z hzp
  · have hzq : z ∉ q.fixed := hfixed ▸ hzp
    exact .inr ⟨hkept z hzp, valueAt_plug_of_notMem hplain' hzq hqfixed⟩

theorem Lockstep.of_fixed {x y : Edit α} {id : NodeId} (hv : t.Holds v) (hw : u.Holds w)
    (hmould : v.mould = w.mould) (hid : id ∈ v.fixed)
    (h : ∀ p q : GeneTerm, p.id = id → p.mould = q.mould → t.Holds p → u.Holds q →
      Lockstep x y t p u q) : Lockstep x y t v u w := by
  obtain ⟨hs, ks, p, q, rfl, rfl, hp, -, hpq, hplain, hplain'⟩ :=
    exists_plugs hv.shaped hw.shaped hmould hid
  obtain ⟨result, t', v', u', w', hx, hy, hv', hw', hover, -⟩ :=
    (h p q hp hpq hv.of_plug hw.of_plug).plug hv hw hpq hplain hplain'
  exact ⟨result, t', v', u', w', hx, hy, hv', hw', hover⟩

theorem lockstep_setGene {id : NodeId} {content content' : GeneNode} {parts parts' : List GeneTerm}
    {g : Gene} (ht : t.FreeExact) (hu : u.FreeExact) (hv : t.Holds (.node id content parts))
    (hw : u.Holds (.node id content' parts'))
    (hmould : (GeneTerm.node id content parts).mould = (GeneTerm.node id content' parts').mould)
    (hg : g.blank = content.gene.blank) (hc : content.gene.isCollection = false) :
    Lockstep (update (·.setGene id g)) (update (·.setGene id g))
      t (.node id content parts) u (.node id content' parts') := by
  have hblank := (alikeNodes hv.shaped hw.shaped hmould).blank
  have hgene : content.gene.blank = content'.gene.blank := congrArg GeneNode.gene hblank
  have hname : content.blank.name = content'.blank.name := congrArg GeneNode.name hblank
  have hparent : content.blank.parent = content'.blank.parent := congrArg GeneNode.parent hblank
  change content.name = content'.name at hname
  change content.parent = content'.parent at hparent
  have hc' : content'.gene.isCollection = false := (isCollection_of_blank hblank).symm.trans hc
  have hgc : g.isCollection = false := by
    rw [← Gene.isCollection_blank, hg, Gene.isCollection_blank, hc]
  have hleft := Refills.setGene ht hv hg hc
  have hright := Refills.setGene hu hw (hg.trans hgene) hc'
  have hkept : ∀ {s : GeneTree} {n : GeneNode} {ps : List GeneTerm} {x : NodeId},
      s.Holds (.node id n ps) → n.gene.isCollection = false →
        (s.setGene id g).Holds (.node id { n with gene := g } ps) → x ≠ id →
          x ∈ (GeneTerm.node id n ps).fixed →
            (GeneTerm.node id { n with gene := g } ps).valueAt x = (GeneTerm.node id n ps).valueAt x := by
    intro s n ps x hold hn hnew hne hx
    obtain ⟨-, p, hp, hxp⟩ := (mem_fixed_node hne).mp hx
    rw [valueAt_of_part hold.distinct hn hp hxp, valueAt_of_part hnew.distinct hgc hp hxp]
  refine ⟨.ok (), _, _, _, _, rfl, rfl, hleft, hright, fun x hx => ?_⟩
  by_cases hxid : x = id
  · have hself := valueAt_self (.node id { content with gene := g } parts)
    have hself' := valueAt_self (.node id { content' with gene := g } parts')
    simp only [ownValue, hgc, GeneTerm.id] at hself hself'
    rw [hxid, hself, hself']
    simp [GeneNode.rename, hname, hparent]
  · have hx' := fixed_eq_of_mould_eq hv.shaped hw.shaped hmould ▸ hx
    exact .inr ⟨hkept hv hc hleft.holds hxid hx, hkept hw hc' hright.holds hxid hx'⟩

theorem overwrites_of_erase {v' w' : GeneTerm} (hv : v'.Shaped) (hw : w'.Shaped)
    (hmould : v'.mould = w'.mould) (h : v'.erase = w'.erase) : v.Overwrites w v' w' := by
  intro x _
  rw [valueAt, valueAt, places_eq_of_erase hv hw hmould h]
  exact .inl rfl

theorem lockstep_copyFrom (ht : t.FreeExact) (hu : u.FreeExact) (hv : t.Holds v) (hw : u.Holds w)
    (hs : src.Holds s) (hr : other.Holds r) (hmould : v.mould = w.mould) (herase : s.erase = r.erase) :
    Lockstep (copyFrom v.id src s.id) (copyFrom v.id other r.id) t v u w := by
  have hid := id_eq_of_mould_eq hmould
  have hassess : t.assessCopy v.id src s.id = u.assessCopy w.id other r.id := by
    have hbound : ∀ {a b : GeneTree} {c : GeneTerm}, a.Holds c → c.height ≤ a.pairBound b := by
      intro a b c hc
      exact hc.height_le_depthBound.trans (Nat.le_mul_of_pos_right _ (Nat.succ_pos _))
    exact assessCopyWithin_eq hv hw hs hr hmould herase (hbound hv) (hbound hw)
  -- both copies are refused, or both are made
  cases h : t.assessCopy v.id src s.id with
  | error e =>
    obtain ⟨⟨⟨_, _⟩, hrun⟩, hall⟩ := ensures_copyFrom_error h
    obtain ⟨rfl, rfl⟩ := hall _ _ hrun
    obtain ⟨⟨⟨_, _⟩, hrun'⟩, hall'⟩ := ensures_copyFrom_error (hassess ▸ h)
    obtain ⟨rfl, rfl⟩ := hall' _ _ hrun'
    rw [← hid] at hrun'
    exact ⟨.error e, _, v, _, w, hrun, hrun', .refl ht hv, .refl hu hw, fun _ _ => .inr ⟨rfl, rfl⟩⟩
  | ok =>
    obtain ⟨⟨⟨_, t'⟩, hrun⟩, hall⟩ := ensures_copyFrom ht hv hs h
    obtain ⟨rfl, v', hv', hleft⟩ := hall _ _ hrun
    obtain ⟨⟨⟨_, u'⟩, hrun'⟩, hall'⟩ := ensures_copyFrom hu hw hr (hassess ▸ h)
    obtain ⟨rfl, w', hw', hright⟩ := hall' _ _ hrun'
    rw [← hid] at hrun'
    refine ⟨.ok (), t', v', u', w', hrun, hrun', hleft, hright, ?_⟩
    refine overwrites_of_erase hleft.holds.shaped hright.holds.shaped ?_ ?_
    · rw [hleft.mould, hright.mould, hmould]
    · rw [hv', hw', erase_overlay_eq hv hw hs hr hmould herase h]

theorem lockstep_copyIfFits (ht : t.FreeExact) (hu : u.FreeExact) (hv : t.Holds v) (hw : u.Holds w)
    (hs : src.Holds s) (hr : other.Holds r) (hmould : v.mould = w.mould) (herase : s.erase = r.erase) :
    Lockstep (copyIfFits v.id src s.id) (copyIfFits v.id other r.id) t v u w := by
  refine Lockstep.tryCatch ((lockstep_copyFrom ht hu hv hw hs hr hmould herase).bind hv ?_) hv ?_
  · intro _ t' v' u' w' hv' hw'
    exact lockstep_pure hv'.frame.exact hv'.holds hw'.frame.exact hw'.holds true
  · intro e t' v' u' w' hv' hw'
    split
    · exact lockstep_pure hv'.frame.exact hv'.holds hw'.frame.exact hw'.holds false
    · exact lockstep_pure hv'.frame.exact hv'.holds hw'.frame.exact hw'.holds false
    · exact lockstep_pure hv'.frame.exact hv'.holds hw'.frame.exact hw'.holds false
    · exact lockstep_throw hv'.frame.exact hv'.holds hw'.frame.exact hw'.holds _

theorem blank_eq_of_mould {id id' : NodeId} {content content' : GeneNode}
    {parts parts' : List GeneTerm} (hv : t.Holds (.node id content parts))
    (hw : u.Holds (.node id' content' parts'))
    (hmould : (GeneTerm.node id content parts).mould = (GeneTerm.node id' content' parts').mould) :
    content.gene.blank = content'.gene.blank :=
  congrArg GeneNode.gene (alikeNodes hv.shaped hw.shaped hmould).blank

/-- A step that looks at a gene, but not at its value, goes on alike. -/
theorem Lockstep.gene_bind {f : Gene → Edit α} (hv : t.Holds v) (hw : u.Holds w)
    (hmould : v.mould = w.mould) (hf : ∀ g, f g.blank = f g)
    (h : ∀ g, t.gene v.id = .ok g → Lockstep (f g) (f g) t v u w) :
    Lockstep (query (·.gene v.id) >>= f) (query (·.gene v.id) >>= f) t v u w := by
  obtain ⟨id, content, parts⟩ := v
  obtain ⟨id', content', parts'⟩ := w
  obtain rfl : id = id' := id_eq_of_mould_eq hmould
  have hgene : t.gene id = .ok content.gene := gene_of_get? hv.get?_node
  have hgene' : u.gene id = .ok content'.gene := gene_of_get? hw.get?_node
  have hsame : f content'.gene = f content.gene := by
    rw [← hf content'.gene, ← blank_eq_of_mould hv hw hmould, hf]
  refine query_bind hgene hgene' ?_
  rw [hsame]
  exact h _ hgene

theorem variant_eq_of_mould (hv : t.Holds v) (hw : u.Holds w) (hmould : v.mould = w.mould) :
    t.variant v.id = u.variant v.id := by
  obtain ⟨id, content, parts⟩ := v
  obtain ⟨id', content', parts'⟩ := w
  obtain rfl : id = id' := id_eq_of_mould_eq hmould
  have hgene : t.gene id = .ok content.gene := gene_of_get? hv.get?_node
  have hgene' : u.gene id = .ok content'.gene := gene_of_get? hw.get?_node
  have hv' : t.variant id = .ok content.gene.variant := variant_of_gene hgene
  have hw' : u.variant id = .ok content'.gene.variant := variant_of_gene hgene'
  rw [← Gene.variant_blank, blank_eq_of_mould hv hw hmould, Gene.variant_blank] at hv'
  exact hv'.trans hw'.symm

/-- Gives a gene in both trees the same value. -/
theorem lockstep_assign {g old : Gene} (ht : t.FreeExact) (hu : u.FreeExact) (hv : t.Holds v)
    (hw : u.Holds w) (hmould : v.mould = w.mould) (hold : t.gene v.id = .ok old)
    (hg : g.blank = old.blank) (hc : old.isCollection = false) :
    Lockstep (update (·.setGene v.id g)) (update (·.setGene v.id g)) t v u w := by
  obtain ⟨id, content, parts⟩ := v
  obtain ⟨id', content', parts'⟩ := w
  have hgene : t.gene id = .ok content.gene := gene_of_get? hv.get?_node
  have hold' := hgene.symm.trans hold
  rw [Except.ok.injEq] at hold'
  subst hold'
  obtain rfl : id = id' := id_eq_of_mould_eq hmould
  exact lockstep_setGene ht hu hv hw hmould hg hc

theorem lockstep_assigned {g old : Gene} (ht : t.FreeExact) (hu : u.FreeExact) (hv : t.Holds v)
    (hw : u.Holds w) (hmould : v.mould = w.mould) (hold : t.gene v.id = .ok old)
    (hg : g.blank = old.blank) (hc : old.isCollection = false) :
    Lockstep (do update (·.setGene v.id g); return true) (do update (·.setGene v.id g); return true)
      t v u w :=
  (lockstep_assign ht hu hv hw hmould hold hg hc).bind hv fun _ _ _ _ _ hv' hw' =>
    lockstep_pure hv'.frame.exact hv'.holds hw'.frame.exact hw'.holds true

theorem lockstep_assignDecoded (ht : t.FreeExact) (hu : u.FreeExact) (hv : t.Holds v)
    (hw : u.Holds w) (hmould : v.mould = w.mould) (value : Scalar) :
    Lockstep (assignDecoded v.id value) (assignDecoded v.id value) t v u w := by
  refine Lockstep.gene_bind hv hw hmould (fun g => by cases g <;> rfl) fun g hg => ?_
  split
  · split
    · exact lockstep_assigned ht hu hv hw hmould hg rfl rfl
    · exact lockstep_pure ht hv hu hw false
  · exact lockstep_pure ht hv hu hw false

theorem lockstep_assignFrom (ht : t.FreeExact) (hu : u.FreeExact) (hv : t.Holds v) (hw : u.Holds w)
    (hs : src.Holds s) (hr : other.Holds r) (hmould : v.mould = w.mould) (herase : s.erase = r.erase) :
    Lockstep (assignFrom v.id src s.id) (assignFrom v.id other r.id) t v u w := by
  refine Lockstep.same_query_bind ht hv hu hw (scalar_eq_of_erase hs hr herase) fun value _ => ?_
  cases value with
  | none => exact lockstep_pure ht hv hu hw false
  | some value =>
    refine Lockstep.gene_bind hv hw hmould (fun g => by cases g <;> rfl) fun g hg => ?_
    split
    · next data =>
      obtain ⟨id, content, parts⟩ := v
      have hdata : content.gene = .base64 data := by
        have hgene : t.gene id = .ok content.gene := gene_of_get? hv.get?_node
        exact Except.ok.inj (hgene.symm.trans hg)
      have hshaped := hv.shaped
      rw [Shaped, hdata] at hshaped
      obtain ⟨p, rfl, rfl⟩ := List.map_eq_singleton_iff.mp hshaped.1
      have hfixed : p.id ∈ (GeneTerm.node id content [p]).fixed := by
        rw [fixed, if_neg (by simp [hdata, Gene.isCollection])]
        simp [id_mem_fixed]
      refine Lockstep.of_fixed hv hw hmould hfixed fun p' q' hp' hpq hp hq => ?_
      rw [← hp']
      exact lockstep_assignDecoded ht hu hp hq hpq value
    · split
      · next k hk =>
        obtain ⟨hvaries, hc⟩ := Gene.varies_of_assign? hk
        exact lockstep_assigned ht hu hv hw hmould hg hvaries.blank hc
      · exact lockstep_pure ht hv hu hw false

theorem lockstep_adoptInner (ht : t.FreeExact) (hu : u.FreeExact) (hv : t.Holds v) (hw : u.Holds w)
    (hs : src.Holds s) (hr : other.Holds r) (hmould : v.mould = w.mould) (herase : s.erase = r.erase) :
    Lockstep (adoptInner v.id src s.id) (adoptInner v.id other r.id) t v u w := by
  refine Lockstep.same_query_bind ht hv hu hw (variant_eq_of_mould hv hw hmould) fun target _ => ?_
  refine Lockstep.same_query_bind ht hv hu hw (variant_eq_of_erase hs hr herase) fun source _ => ?_
  split
  · exact lockstep_copyIfFits ht hu hv hw hs hr hmould herase
  · split
    · exact lockstep_pure ht hv hu hw false
    · exact lockstep_assignFrom ht hu hv hw hs hr hmould herase

theorem lockstep_setActive (ht : t.FreeExact) (hu : u.FreeExact) (hv : t.Holds v) (hw : u.Holds w)
    (hmould : v.mould = w.mould) (on : Bool) :
    Lockstep (setActive v.id on) (setActive v.id on) t v u w := by
  obtain ⟨id, content, parts⟩ := v
  obtain ⟨id', content', parts'⟩ := w
  obtain rfl : id = id' := id_eq_of_mould_eq hmould
  have hnode : t.node id = .ok content := node_of_get? hv.get?_node
  have hnode' : u.node id = .ok content' := node_of_get? hw.get?_node
  have hblank := blank_eq_of_mould hv hw hmould
  have hvariant : content.gene.variant = content'.gene.variant := by
    rw [← Gene.variant_blank, hblank, Gene.variant_blank]
  refine Lockstep.query_bind hnode hnode' ?_
  split
  · next inner active hgene =>
    rw [hgene] at hblank
    obtain ⟨active', hgene'⟩ := Gene.optional_of_blank hblank.symm
    rw [hgene']
    exact lockstep_setGene ht hu hv hw hmould (by rw [hgene]; rfl) (by rw [hgene]; rfl)
  · next hnot =>
    split
    · next inner active hgene' =>
      rw [hgene'] at hblank
      obtain ⟨active', hgene⟩ := Gene.optional_of_blank hblank
      exact absurd hgene (hnot inner active')
    · rw [hvariant]
      exact lockstep_throw ht hv hu hw _

/-- A gene that adopts a value does so alike wherever it stands. -/
theorem lockstep_adopt (ht : t.FreeExact) (hu : u.FreeExact) (hv : t.Holds v) (hw : u.Holds w)
    (hs : src.Holds s) (hr : other.Holds r) (hmould : v.mould = w.mould) (herase : s.erase = r.erase) :
    Lockstep (adopt v.id src s.id) (adopt v.id other r.id) t v u w := by
  have hcore : t.coreNode v.id = u.coreNode v.id := by
    rw [hv.coreNode, id_eq_of_mould_eq hmould, hw.coreNode,
      id_eq_of_mould_eq (core_mould hv.shaped hw.shaped hmould)]
  have hinto : ∀ inner, t.coreNode v.id = .ok inner →
      Lockstep (adoptInner inner src s.id) (adoptInner inner other r.id) t v u w := by
    intro inner hinner
    rw [hv.coreNode, Except.ok.injEq] at hinner
    subst hinner
    refine Lockstep.of_fixed hv hw hmould (core_mem_fixed hv.shaped) fun p q hp hpq hpt hqu => ?_
    rw [← hp]
    exact lockstep_adoptInner ht hu hpt hqu hs hr hpq herase
  refine Lockstep.same_query_bind ht hv hu hw (variant_eq_of_mould hv hw hmould) fun target _ => ?_
  refine Lockstep.same_query_bind ht hv hu hw (variant_eq_of_erase hs hr herase) fun source _ => ?_
  split
  · exact lockstep_copyIfFits ht hu hv hw hs hr hmould herase
  · split
    · refine Lockstep.same_query_bind ht hv hu hw hcore fun inner hinner => ?_
      refine (hinto inner hinner).bind hv fun adopted t' v' u' w' hv' hw' => ?_
      have hmould' : v'.mould = w'.mould := by rw [hv'.mould, hw'.mould, hmould]
      have hset := lockstep_setActive hv'.frame.exact hw'.frame.exact hv'.holds hw'.holds hmould' true
      rw [hv'.same_id] at hset
      cases adopted with
      | true =>
        refine hset.bind hv'.holds fun _ _ _ _ _ hv₂ hw₂ => ?_
        exact lockstep_pure hv₂.frame.exact hv₂.holds hw₂.frame.exact hw₂.holds true
      | false => exact lockstep_pure hv'.frame.exact hv'.holds hw'.frame.exact hw'.holds false
    · exact Lockstep.same_query_bind ht hv hu hw hcore hinto
    · exact lockstep_adoptInner ht hu hv hw hs hr hmould herase

end Edit
end CallEvolution
