import CallEvolution.Proofs.AnchoredLinks
import CallEvolution.Proofs.ChildSequences
import CallEvolution.Proofs.LinkEntries

/-! Runs that register links and change values. The ends of links stand outside of all collections, and no
such run takes a node away there, so a link never loses an end and its ends never become other genes. -/

namespace CallEvolution

open GeneTree GeneTerm Individual

variable {γ : Type}

namespace GeneTree

/-- Has a tree turned into one of the same mould? -/
def Alike (t u : GeneTree) : Prop := ∀ v, t.Unfolds v → ∃ w, u.Unfolds w ∧ w.mould = v.mould

theorem Alike.refl (t : GeneTree) : t.Alike t := fun v hv => ⟨v, hv, rfl⟩

end GeneTree

variable [RandomSource γ]

namespace RandomEdit

variable {t : GeneTree}

theorem alike_randomize (t : GeneTree) (forceNew : Bool) :
    Ensures (randomize t.root forceNew : RandomEdit γ Unit) t fun _ u => t.Alike u := by
  refine ⟨trivial, fun r u hr v hv => ?_⟩
  rw [← hv.root] at hr
  obtain ⟨-, w, hw⟩ := (ensures_randomize hv.exact hv.holds forceNew).2 _ _ hr
  exact ⟨w, hv.becomes hw.becomes, hw.mould⟩

def randomizeRoot (forceNew : Bool) : RandomEdit γ Unit := do
  let t ← (get : Edit GeneTree)
  randomize t.root forceNew

def mutateRoot (settings : MutationSettings) (steering : Steering) : RandomEdit γ (List NodeId) := do
  let t ← (get : Edit GeneTree)
  mutate settings steering t.root

theorem alike_randomizeRoot (forceNew : Bool) :
    Ensures (randomizeRoot forceNew : RandomEdit γ Unit) t fun _ u => t.Alike u := by
  refine views_get.ensures_bind ?_ fun _ => .refl t
  rintro u rfl
  exact alike_randomize u forceNew

theorem alike_mutate (t : GeneTree) (settings : MutationSettings) (steering : Steering) :
    Ensures (mutate settings steering t.root : RandomEdit γ (List NodeId)) t fun _ u => t.Alike u := by
  refine ⟨trivial, fun r u hr v hv => ?_⟩
  rw [← hv.root] at hr
  obtain ⟨w, hw⟩ := (ensures_mutate hv.exact hv.holds settings steering).2 _ _ hr
  exact ⟨w, hv.becomes hw.becomes, hw.mould⟩

theorem alike_mutateRoot (settings : MutationSettings) (steering : Steering) :
    Ensures (mutateRoot settings steering : RandomEdit γ (List NodeId)) t fun _ u => t.Alike u := by
  refine views_get.ensures_bind ?_ fun _ => .refl t
  rintro u rfl
  exact alike_mutate u settings steering

end RandomEdit

/-- An action that is the same but for the values of its genes. -/
structure Action.Alike (a b : Action) : Prop where
  id_eq : b.id = a.id
  genes : List.Forall₂ (fun p q => p.gene.Alike q.gene) a.params b.params

theorem Action.Alike.refl (a : Action) : a.Alike a :=
  ⟨rfl, List.forall₂_same.mpr fun p _ => .refl p.gene⟩

theorem Action.alike_of_randomizeAll {as bs : List Action} {r : Except GeneError Unit}
    (h : Gives (randomizeAll as : Draw γ (Except GeneError Unit × List Action)) (r, bs)) :
    List.Forall₂ Action.Alike as bs := by
  have hsame : ∀ as : List Action, List.Forall₂ Action.Alike as as :=
    fun as => List.forall₂_same.mpr fun a _ => .refl a
  induction as generalizing r bs with
  | nil =>
    cases Draw.eq_of_gives_pure h
    exact .nil
  | cons a as ih =>
    obtain ⟨⟨result, b⟩, hb, h⟩ := Draw.gives_of_bind h
    obtain ⟨⟨_, params⟩, hparams, hpure⟩ := Draw.gives_of_bind hb
    cases Draw.eq_of_gives_pure hpure
    have hab : a.Alike { a with params } :=
      ⟨rfl, Parameter.forall₂_of_randomizeAll .refl (fun _ => RandomEdit.alike_randomizeRoot false) hparams⟩
    cases result with
    | error e =>
      cases Draw.eq_of_gives_pure h
      exact .cons hab (hsame as)
    | ok _ =>
      obtain ⟨⟨result, rest⟩, htail, h⟩ := Draw.gives_of_bind h
      cases Draw.eq_of_gives_pure h
      exact .cons hab (ih htail)

namespace Individual

variable {ind s u : Individual} {id : ActionId} {i : Nat} {a b : Action} {as bs : List Action}
  {l : Link} {ls : List Link}

theorem exists_find?_of_ids {R : Action → Action → Prop} (hR : ∀ a b, R a b → b.id = a.id)
    (h : List.Forall₂ R as bs) (ha : as.find? (·.id = id) = some a) :
    ∃ b, bs.find? (·.id = id) = some b ∧ R a b := by
  induction h with
  | nil => cases ha
  | @cons c d as bs hcd _ ih =>
    have hd := hR c d hcd
    by_cases hc : c.id = id
    · rw [List.find?_cons_of_pos (by simpa using hc), Option.some.injEq] at ha
      subst ha
      exact ⟨d, by simp [hd, hc], hcd⟩
    · rw [List.find?_cons_of_neg (by simpa using hc)] at ha
      obtain ⟨b, hb, hab⟩ := ih ha
      exact ⟨b, by simpa [hd, hc] using hb, hab⟩

theorem alike_of_actions (h : List.Forall₂ Action.Alike ind.actions u.actions) :
    ind.Alike u ∧ ∀ id i t, u.gene id i = .ok t → ∃ t', ind.gene id i = .ok t' := by
  constructor
  · rintro id i v ⟨t, ht, hv⟩
    obtain ⟨a, p, ha, hp, rfl⟩ := gene_eq_ok_iff.mp ht
    obtain ⟨b, hb, hab⟩ := exists_find?_of_ids (fun _ _ h => h.id_eq) h ha
    have hlength := hab.genes.length_eq
    obtain ⟨hi, rfl⟩ := List.getElem?_eq_some_iff.mp hp
    have hpq := hab.genes.get hi (hlength ▸ hi)
    obtain ⟨w, hw, hmould⟩ := hpq v hv
    have hq := List.getElem?_eq_getElem (hlength ▸ hi)
    exact ⟨w, ⟨_, gene_eq_ok_iff.mpr ⟨b, _, hb, hq, rfl⟩, hw⟩, hmould⟩
  · intro id i t ht
    obtain ⟨b, q, hb, hq, -⟩ := gene_eq_ok_iff.mp ht
    obtain ⟨a, ha, hab⟩ := exists_find?_of_ids (fun _ _ h => h.id_eq.symm) h.flip hb
    obtain ⟨hi, -⟩ := List.getElem?_eq_some_iff.mp hq
    have hp := List.getElem?_eq_getElem (hab.genes.length_eq ▸ hi)
    exact ⟨_, gene_eq_ok_iff.mpr ⟨a, _, ha, hp, rfl⟩⟩

/-- Are ids distinct and all trees well-formed, and are all links fastened? -/
structure Moored (ind : Individual) : Prop where
  distinct : ind.ids.Nodup
  sound : ∀ a ∈ ind.actions, a.IsSound
  fastened : ∀ l ∈ ind.links, ind.Fastens l

/-- A moored individual has become one that is moored and has its links and moulds. -/
def Drifts (ind u : Individual) : Prop := ind.Moored → u.Moored ∧ ind.links ⊆ u.links ∧ ind.Alike u

namespace Drifts

theorem refl (ind : Individual) : Drifts ind ind := fun h => ⟨h, List.Subset.refl _, .refl ind⟩

theorem trans (h : Drifts ind s) (k : Drifts s u) : Drifts ind u := by
  intro hind
  obtain ⟨hs, hlinks, halike⟩ := h hind
  obtain ⟨hu, hlinks', halike'⟩ := k hs
  exact ⟨hu, List.Subset.trans hlinks hlinks', halike.trans halike'⟩

theorem of_alike (hids : u.ids = ind.ids) (hlinks : u.links = ind.links)
    (halike : ind.Moored → ind.Alike u)
    (hgenes : ∀ id i t, u.gene id i = .ok t → ∃ t', ind.gene id i = .ok t') : Drifts ind u := by
  intro h
  have halike := halike h
  have hdistinct : u.ids.Nodup := hids ▸ h.distinct
  refine ⟨⟨hdistinct, sound_of_alike hdistinct h.sound halike hgenes, fun l hl => ?_⟩, ?_, halike⟩
  · exact (h.fastened l (hlinks ▸ hl)).alike halike
  · rw [hlinks]
    exact List.Subset.refl _

theorem of_actions (hlinks : u.links = ind.links)
    (h : List.Forall₂ Action.Alike ind.actions u.actions) : Drifts ind u := by
  obtain ⟨halike, hgenes⟩ := alike_of_actions h
  refine of_alike ?_ hlinks (fun _ => halike) hgenes
  rw [ids, ids, ← List.forall₂_eq_eq_eq, List.forall₂_map_left_iff, List.forall₂_map_right_iff]
  exact h.flip.imp fun _ _ hab => hab.id_eq

theorem setGene {t t' : GeneTree} (ht : ind.gene id i = .ok t) (h : t.Alike t') :
    Drifts ind (ind.setGene id i t') := by
  refine of_alike (SameSequence.setGene ind id i t').ids (links_setGene ..) (fun hind => ?_)
    fun _ _ _ => exists_gene_of_setGene
  obtain ⟨v, hv⟩ := (wellFormed_of_gene hind.sound ht).unfolds
  obtain ⟨w, hw, hmould⟩ := h v hv
  exact alike_setGene ⟨t, ht, hv⟩ hw hmould

theorem addLinks {ks : List Link}
    (hks : ind.Moored → ∀ l ∈ ks, ind.Fastens l) :
    Drifts ind { ind with links := ind.links ++ ks } := by
  intro h
  refine ⟨⟨h.distinct, h.sound, fun l hl => ?_⟩, List.subset_append_left _ _, .refl ind⟩
  exact ((List.mem_append.mp hl).elim (h.fastened l) (hks h l)).of_genes rfl rfl

end Drifts
end Individual

namespace Revision

variable {ind : Individual} {ls : List Link} {α : Type}

omit [RandomSource γ] in
theorem drifts_addLinks (hls : ind.Moored → ∀ l ∈ ls, ind.Fastens l) :
    Ensures (addLinks ls : Revision γ Nat) ind fun _ u => Drifts ind u := by
  refine (ensures_addLinks_appends ls).mono ?_
  rintro r u ⟨ks, hks, rfl⟩
  exact .addLinks fun hind l hl => hls hind l (hks hl)

omit [RandomSource γ] in
theorem drifts_editGene {m : RandomEdit γ α} (hm : ∀ t, Ensures m t fun _ u => t.Alike u)
    (id : ActionId) (i : Nat) : Ensures (editGene id i m) ind fun _ u => Drifts ind u := by
  cases hgene : ind.gene id i with
  | error e =>
    refine views_query.ensures_bind (fun t ht => ?_) fun _ => .refl ind
    cases hgene.symm.trans ht
  | ok t =>
    refine (ensures_editGene hgene (hm t)).mono ?_
    rintro r u ⟨r', t', ht', rfl, -⟩
    exact .setGene hgene ht'

omit [RandomSource γ] in
theorem drifts_applyLink {l : Link} (hl : l ∈ ind.links) :
    Ensures (applyLink l : Revision γ Bool) ind fun _ u => u.links = ind.links ∧ Drifts ind u := by
  refine ⟨trivial, fun r u hr => ?_⟩
  rcases ensures_applyLink.2 r u hr with rfl | ⟨source, t, -, -, -, r', t', -, hu, -⟩
  · exact ⟨rfl, .refl u⟩
  · have hlinks : u.links = ind.links := hu ▸ links_setGene ..
    refine ⟨hlinks, .of_alike (hu ▸ (SameSequence.setGene ..).ids) hlinks (fun hind => ?_) ?_⟩
    · -- a fastened link runs through, so what it leaves is known from that one run
      have hfastens := hind.fastened l hl
      obtain ⟨r'', s, hyields, halike, -⟩ := exists_applyLink (γ := γ) hfastens.source hfastens.target
      obtain ⟨-, rfl⟩ := hyields.eq_of_gives hr
      exact halike
    · rw [hu]
      exact fun _ _ _ => exists_gene_of_setGene

omit [RandomSource γ] in
/-- A pass over links changes values at their targets, even if one of them stops it. -/
theorem drifts_applyAll (hls : ls ⊆ ind.links) :
    Ensures (applyAll ls : Revision γ Nat) ind fun _ u => Drifts ind u :=
  (ensures_applyAll_of_mem .refl (fun _ _ _ => .trans) (fun _ _ => drifts_applyLink) hls).mono
    fun _ _ h => h.2

omit [RandomSource γ] in
theorem drifts_sync : Ensures (sync : Revision γ Nat) ind fun _ u => Drifts ind u :=
  Ensures.get_bind (drifts_applyAll (List.Subset.refl _))

theorem drifts_randomize : Ensures (randomize : Revision γ Unit) ind fun _ u => Drifts ind u := by
  refine Ensures.get_bind (ensures_draw_bind ?_)
  rintro ⟨result, init⟩ hinit
  have hrows := Action.alike_of_randomizeAll hinit
  have hsame : List.Forall₂ Action.Alike ind.main ind.main := List.forall₂_same.mpr fun a _ => .refl a
  cases result with
  | error e =>
    refine Ensures.bind_ok (P := fun _ u => u = { ind with init }) (ensures_set ⟨_, rfl, rfl⟩) ?_
    rintro _ _ rfl
    exact Ensures.throw (.of_actions rfl (List.rel_append hrows hsame))
  | ok _ =>
    refine ensures_draw_bind ?_
    rintro ⟨result, main⟩ hmain
    have hcalls := Action.alike_of_randomizeAll hmain
    refine Ensures.bind_ok (P := fun _ u => u = { ind with init, main }) (ensures_set ⟨_, rfl, rfl⟩) ?_
    rintro _ _ rfl
    refine Views.mk_pure.mono ?_
    rintro r u ⟨rfl, -⟩
    exact .of_actions rfl (List.rel_append hrows hcalls)

end Revision

namespace Linker

variable {r : Linker} {ind : Individual}

theorem drifts_linkAll : Ensures (r.linkAll : Linking γ Nat) ind fun _ u => Drifts ind u := by
  refine Ensures.get_bind (Linking.views_search.ensures_bind ?_ fun _ => .refl ind)
  intro links hlinks
  refine Linking.ensures_revise (Revision.drifts_addLinks fun hind l hl => ?_)
  exact fastens_of_within hind.distinct hind.sound (List.subset_append_right _ _)
    (within_of_allProposals hlinks l hl)

theorem drifts_relink (id : ActionId) :
    Ensures (r.relink id : Linking γ Nat) ind fun _ u => Drifts ind u := by
  refine Ensures.get_bind ?_
  split
  · exact Ensures.pure (.refl ind)
  · next a after hdrop =>
    refine Linking.views_search.ensures_bind ?_ fun _ => .refl ind
    intro links hlinks
    refine Linking.ensures_revise (Revision.drifts_addLinks fun hind l hl => ?_)
    -- the search goes over the calls before and behind the action, which are calls of the individual
    have hwithin := within_of_proposalsAround hlinks l hl
    rw [← hdrop, List.takeWhile_append_dropWhile] at hwithin
    exact fastens_of_within hind.distinct hind.sound (List.subset_append_right _ _) hwithin

omit [RandomSource γ] in
theorem drifts_linkRows (id : ActionId) (directives : List DbDirective) :
    Ensures (r.linkRows id directives : Linking γ Nat) ind fun _ u => Drifts ind u := by
  refine Ensures.get_bind ?_
  split
  · exact Ensures.throw (.refl ind)
  · next a ha =>
    refine Views.mk_pure.ensures_bind ?_ fun _ => .refl ind
    intro links hlinks
    refine Linking.ensures_revise (Revision.drifts_addLinks fun hind l hl => ?_)
    obtain ⟨row, hrow, hdirects⟩ := directs_of_directedLinks hlinks l hl
    exact fastens_of_directs hind.distinct hind.sound (List.mem_append_left _ hrow)
      (List.mem_of_find?_eq_some ha) hdirects

end Linker

omit [RandomSource γ] in
theorem eq_ok_of_toOption {ε α : Type} {x : Except ε α} {a : α} (h : x.toOption = some a) : x = .ok a := by
  cases x with
  | error e => cases h
  | ok b =>
    cases h
    rfl

/-- Linkers, and what changes values. -/
inductive ValueCall where
  | linkAll (r : Linker)
  | relink (r : Linker) (id : ActionId)
  | linkRows (r : Linker) (id : ActionId) (directives : List DbDirective)
  | sync
  | randomize
  | randomizeGene (id : ActionId) (param : Nat) (forceNew : Bool)
  | mutateGene (id : ActionId) (param : Nat) (settings : MutationSettings) (steering : Steering)

namespace ValueCall

variable {ind u : Individual}

/-- What steps leave behind, whether they fail or not. -/
def left {ε α : Type} (x : ExceptT ε (StateT Individual (Draw γ)) α) (ind : Individual) :
    Draw γ Individual := do
  let (_, left) ← x.run.run ind
  return left

def leave (ind : Individual) : ValueCall → Draw γ Individual
  | linkAll r => left r.linkAll ind
  | relink r action => left (r.relink action) ind
  | linkRows r action directives => left (r.linkRows action directives) ind
  | sync => left Revision.sync ind
  | randomize => left Revision.randomize ind
  | randomizeGene action param forceNew =>
    left (Revision.editGene action param (RandomEdit.randomizeRoot forceNew)) ind
  | mutateGene action param settings steering =>
    left (Revision.editGene action param (RandomEdit.mutateRoot settings steering)) ind

def leaveAll (calls : List ValueCall) (ind : Individual) : Draw γ Individual :=
  calls.foldlM (fun ind call => call.leave ind) ind

omit [RandomSource γ] in
theorem of_left {ε α : Type} {x : ExceptT ε (StateT Individual (Draw γ)) α}
    {Q : Individual → Prop} (hx : Ensures x ind fun _ u => Q u) (h : Gives (left x ind) u) : Q u := by
  obtain ⟨⟨r, v⟩, hv, h⟩ := Draw.gives_of_bind h
  rw [Draw.eq_of_gives_pure h]
  exact hx.2 r v hv

theorem drifts_of_leave {call : ValueCall} (h : Gives (call.leave ind : Draw γ Individual) u) :
    Drifts ind u := by
  cases call with
  | linkAll r => exact of_left Linker.drifts_linkAll h
  | relink r action => exact of_left (Linker.drifts_relink action) h
  | linkRows r action directives => exact of_left (Linker.drifts_linkRows action directives) h
  | sync => exact of_left Revision.drifts_sync h
  | randomize => exact of_left Revision.drifts_randomize h
  | randomizeGene action param forceNew =>
    exact of_left
      (Revision.drifts_editGene (fun _ => RandomEdit.alike_randomizeRoot forceNew) action param) h
  | mutateGene action param settings steering =>
    exact of_left
      (Revision.drifts_editGene (fun _ => RandomEdit.alike_mutateRoot settings steering) action param) h

theorem drifts_of_leaveAll {calls : List ValueCall}
    (h : Gives (leaveAll calls ind : Draw γ Individual) u) : Drifts ind u := by
  induction calls generalizing ind with
  | nil =>
    rw [Draw.eq_of_gives_pure h]
    exact .refl ind
  | cons call calls ih =>
    rw [leaveAll, List.foldlM_cons] at h
    obtain ⟨v, hv, h⟩ := Draw.gives_of_bind h
    exact (drifts_of_leave hv).trans (ih h)

end ValueCall

/-- Individuals whose links all come from linkers. Between calls actions may come, go and move, as long as
the genes stay that links join. -/
inductive Individual.LinksFromLinkers (γ : Type) [RandomSource γ] : Individual → Prop where
  | unlinked {ind : Individual} (hids : ind.ids.Nodup)
      (htrees : ∀ a ∈ ind.actions, ∀ p ∈ a.params, p.gene.WellFormed) (hlinks : ind.links = []) :
      LinksFromLinkers γ ind
  | called {ind u : Individual} (hind : LinksFromLinkers γ ind) (call : ValueCall)
      (hu : Gives (call.leave ind : Draw γ Individual) u) : LinksFromLinkers γ u
  | rearranged {ind u : Individual} (hind : LinksFromLinkers γ ind) (hids : u.ids.Nodup)
      (htrees : ∀ a ∈ u.actions, ∀ p ∈ a.params, p.gene.WellFormed) (hlinks : u.links ⊆ ind.links)
      (hgenes : ∀ l ∈ u.links, ∀ b, b = l.source ∨ b = l.target →
        u.gene b.action b.param = ind.gene b.action b.param) : LinksFromLinkers γ u

namespace Individual

variable {ind u : Individual} {b : GeneAddress}

def node? (ind : Individual) (b : GeneAddress) : Option GeneNode :=
  match ind.gene b.action b.param with
  | .ok t => t.get? b.node
  | .error _ => none

theorem moored_of_linksFromLinkers (h : ind.LinksFromLinkers γ) : ind.Moored := by
  induction h with
  | unlinked hids htrees hlinks =>
    refine ⟨hids, htrees, ?_⟩
    rw [hlinks]
    exact List.forall_mem_nil _
  | called _ call hu ih => exact (ValueCall.drifts_of_leave hu ih).1
  | rearranged _ hids htrees hlinks hgenes ih =>
    refine ⟨hids, htrees, fun l hl => ?_⟩
    exact (ih.fastened l (hlinks hl)).of_genes (hgenes l hl _ (.inl rfl)) (hgenes l hl _ (.inr rfl))

/-- What stands outside of collections stays but for its value. -/
theorem Carries.exists_nodes (h : ind.Carries b) (halike : ind.Alike u) :
    ∃ n n', ind.node? b = some n ∧ u.node? b = some n' ∧ n'.blank = n.blank := by
  obtain ⟨v, ⟨t, ht, hv⟩, hb⟩ := h
  obtain ⟨w, ⟨t', ht', hw⟩, hmould⟩ := halike _ _ v ⟨t, ht, hv⟩
  obtain ⟨n, n', hn, hn', hblank⟩ := exists_nodes_of_mould hv hw hmould hb
  exact ⟨n, n', by simp only [node?, ht, hn], by simp only [node?, ht', hn'], hblank⟩

/-- The value at the source of a link is of the variant of the node there. -/
theorem Carries.exists_source {l : Link} (h : ind.Carries l.source) :
    ∃ n src s, ind.node? l.source = some n ∧ ind.sourceValue? l = some src ∧ src.Holds s ∧
      s.id = src.root ∧ s.content.variant = n.variant := by
  obtain ⟨v, ⟨t, ht, hv⟩, hx⟩ := h
  obtain ⟨hs, p, rfl, hp, -⟩ := exists_plug (mem_ids_of_mem_fixed hx)
  obtain ⟨src, s, hsrc, hs, hroot, herase⟩ := exists_sourceValue ⟨t, ht, hv⟩ hp
  refine ⟨p.content, src, s, ?_, hsrc, hs, hroot, ?_⟩
  · simp only [node?, ht]
    rw [← hp]
    exact hv.holds.of_plug.get?_id
  · have hvariant := congrArg (fun w : GeneTerm => w.content.gene.variant) herase
    simp only [erase, content_rename, content_withParent, GeneNode.rename, Gene.variant_rename] at hvariant
    exact hvariant

end Individual

namespace ValueCall

/-- No run of linkers and of what changes values takes away an end of a link. -/
theorem link_ends_stay (ind last : Individual) (calls : List ValueCall) (g g' : γ)
    (hind : ind.LinksFromLinkers γ) (hrun : leaveAll calls ind g = .ok (last, g')) :
    ∀ l ∈ ind.links, l ∈ last.links ∧ (last.sourceValue? l).isSome = true ∧
      ∀ b, b = l.source ∨ b = l.target → ∃ n n', ind.node? b = some n ∧ last.node? b = some n' ∧
        n'.name = n.name ∧ n'.variant = n.variant ∧ n'.parent = n.parent := by
  have hmoored := moored_of_linksFromLinkers hind
  obtain ⟨hlast, hlinks, halike⟩ := drifts_of_leaveAll ⟨g, g', hrun⟩ hmoored
  intro l hl
  have hfastens := hmoored.fastened l hl
  refine ⟨hlinks hl, ?_, fun b hb => ?_⟩
  · obtain ⟨_, src, _, -, hsrc, -⟩ := (hfastens.source.alike halike).exists_source
    rw [hsrc]
    rfl
  · have hcarries : ind.Carries b := by
      rcases hb with rfl | rfl
      · exact hfastens.source
      · exact hfastens.target
    obtain ⟨n, n', hn, hn', hblank⟩ := hcarries.exists_nodes halike
    have hname : n'.blank.name = n.blank.name := congrArg GeneNode.name hblank
    have hparent : n'.blank.parent = n.blank.parent := congrArg GeneNode.parent hblank
    exact ⟨n, n', hn, hn', hname, GeneNode.variant_of_blank_eq hblank, hparent⟩

/-- Two calls with a list of tags, which are linked and then change. -/
theorem link_ends_stay_of_tags :
    let body := GeneTree.object "body" [.array "tags" (.integerIn "tag" 0 9) 3, .integerIn "count" 0 9]
    let call (id : Nat) : Action := { Action.rpc "shop" "list" [⟨"body", .body, body⟩] with id := ⟨id⟩ }
    let start := { Individual.new .random 0 with main := [call 1, call 2], nextId := 3 }
    let tags : Link := ⟨⟨⟨1⟩, 0, ⟨1⟩⟩, ⟨⟨2⟩, 0, ⟨1⟩⟩, .params⟩
    let calls := [randomize, sync, mutateGene ⟨1⟩ 0 {} .uniform, randomizeGene ⟨2⟩ 0 true, sync]
    ∃ (ind last : Individual) (g g' : WordSource),
      (leave start (linkAll {}) : Draw WordSource Individual) ⟨[], 1⟩ = .ok (ind, g) ∧
      (leaveAll calls ind : Draw WordSource Individual) g = .ok (last, g') ∧ ind.links.length = 2 ∧
      tags ∈ last.links ∧ (last.sourceValue? tags).isSome = true ∧
      ∃ n, last.node? tags.target = some n ∧ n.name = "tags" := by
  intro body call start tags calls
  let linked : Draw WordSource Individual := leave start (linkAll {})
  have hruns : ((linked ⟨[], 1⟩).toOption.bind fun r => (leaveAll calls r.1 r.2).toOption.map fun _ =>
      (r.1.links.length, decide (tags ∈ r.1.links), (r.1.node? tags.target).map GeneNode.name)) =
        some (2, true, some "tags") := by decide +kernel
  have htrees : ∀ a ∈ start.actions, ∀ p ∈ a.params, p.gene.WellFormed := by
    have hbody : body.WellFormed := by
      refine (Built.object "body" ?_).wellFormed
      simpa using ⟨Built.array "tags" 3 (.integerIn "tag" 0 9), Built.integerIn "count" 0 9⟩
    simpa [start, call, Individual.actions, Individual.new, Action.rpc, Action.template] using hbody
  have hstart : start.LinksFromLinkers WordSource := .unlinked (by decide) htrees rfl
  obtain ⟨⟨ind, g⟩, hind, hrest⟩ := Option.bind_eq_some_iff.mp hruns
  obtain ⟨⟨last, g'⟩, hlast, hends⟩ := Option.map_eq_some_iff.mp hrest
  simp only [Prod.mk.injEq, decide_eq_true_eq] at hends
  obtain ⟨hlength, hmem, hname⟩ := hends
  clear_value calls start tags
  have hlinked := eq_ok_of_toOption hind
  have hrun := eq_ok_of_toOption hlast
  obtain ⟨hstays, hsource, hnodes⟩ :=
    link_ends_stay ind last calls g g' (.called hstart (linkAll {}) ⟨_, _, hlinked⟩) hrun tags hmem
  obtain ⟨n, n', hn, hn', hsame, -⟩ := hnodes _ (.inr rfl)
  rw [hn, Option.map_some, Option.some.injEq] at hname
  exact ⟨ind, last, g, g', hlinked, hrun, hlength, hstays, hsource, n', hn', hsame.trans hname⟩

end ValueCall

end CallEvolution
