import CallEvolution.Proofs.LinkedRuns

/-! Which bound values can be seen. A value below an optional that is switched off is no part of its
parameter. A link switches on the optional that it leads to, but none of those above that. -/

namespace CallEvolution

open GeneTerm GeneTree Matching

/-- Is a gene an optional that is switched off? -/
def Gene.isSwitchedOff : Gene → Bool
  | optional _ active => !active
  | _ => false

theorem Gene.isSwitchedOff_of_variant {g : Gene} (h : g.variant ≠ .optional) : g.isSwitchedOff = false := by
  cases g
  case optional => exact absurd rfl h
  all_goals rfl

theorem Gene.isSwitchedOff_of_core {g : Gene} (h : g.isWrapper = false) : g.isSwitchedOff = false :=
  isSwitchedOff_of_variant (isWrapper_eq_false_iff.mp h).1

theorem Gene.isSwitchedOff_rename (f : NodeId → NodeId) (g : Gene) :
    (g.rename f).isSwitchedOff = g.isSwitchedOff := by
  cases g <;> rfl

namespace GeneTree

variable {t u : GeneTree} {v p q : GeneTerm} {hs : List Hole} {h : Hole} {x : NodeId} {d : Nat}

def isSwitchedOff (t : GeneTree) (x : NodeId) : Bool :=
  match t.gene x with
  | .ok g => g.isSwitchedOff
  | .error _ => false

/-- A node and those above it, at most `depth` of them. -/
def lineageWithin (t : GeneTree) : Nat → NodeId → List NodeId
  | 0, _ => []
  | depth + 1, x =>
    match (t.get? x).bind GeneNode.parent with
    | some owner => x :: lineageWithin t depth owner
    | none => [x]

def lineage (t : GeneTree) (x : NodeId) : List NodeId := t.lineageWithin t.depthBound x

/-- Is nothing switched off between the root and a node? -/
def isVisible (t : GeneTree) (x : NodeId) : Bool := (t.lineage x).all fun y => !t.isSwitchedOff y

theorem isVisible_iff : t.isVisible x = true ↔ ∀ y ∈ t.lineage x, t.isSwitchedOff y = false := by
  simp [isVisible, List.all_eq_true]

theorem plug_concat (hs : List Hole) (h : Hole) (p : GeneTerm) :
    plug (hs ++ [h]) p = plug hs (.node h.id h.content (h.before ++ p :: h.after)) := by
  induction hs with
  | nil => rfl
  | cons k hs ih => rw [List.cons_append, plug, plug, ih]

theorem length_lt_height_plug (hs : List Hole) (p : GeneTerm) : hs.length < (plug hs p).height := by
  induction hs with
  | nil =>
    obtain ⟨id, content, parts⟩ := p
    simp [plug, height]
  | cons h hs ih =>
    have hlt : (plug hs p).height < (plug (h :: hs) p).height :=
      height_lt_of_part h.id h.content (by simp)
    rw [List.length_cons]
    omega

theorem lineageWithin_plug (hv : t.Holds (plug hs p)) (horphan : (plug hs p).content.parent = none)
    (hd : hs.length < d) : t.lineageWithin d p.id = p.id :: (hs.map Hole.id).reverse := by
  -- the owner of the part is the innermost hole, so holes are taken off from there
  induction hs using List.reverseRecOn generalizing p d with
  | nil =>
    obtain ⟨d, rfl⟩ := Nat.exists_eq_succ_of_ne_zero (Nat.ne_of_gt hd)
    have hget : t.get? p.id = some p.content := hv.get?_id
    have hparent : p.content.parent = none := horphan
    simp only [lineageWithin, hget, Option.bind_some, hparent, List.map_nil, List.reverse_nil]
  | append_singleton hs h ih =>
    rw [plug_concat] at hv horphan
    rw [List.length_append, List.length_singleton] at hd
    obtain ⟨d, rfl⟩ := Nat.exists_eq_succ_of_ne_zero (Nat.ne_of_gt (Nat.zero_lt_of_lt hd))
    have howner := hv.of_plug
    have hshaped := howner.shaped
    rw [Shaped] at hshaped
    have hparent : p.content.parent = some h.id := (hshaped.2 p (by simp)).1
    have hget : t.get? p.id = some p.content := (howner.parts.each p (by simp)).get?_id
    have habove : t.lineageWithin d h.id = h.id :: (hs.map Hole.id).reverse := ih hv horphan (by omega)
    simp only [lineageWithin, hget, Option.bind_some, hparent, List.map_append, List.map_singleton,
      List.reverse_append, List.reverse_singleton, List.singleton_append]
    rw [habove]

theorem Unfolds.lineage (hv : t.Unfolds (plug hs p)) :
    t.lineage p.id = p.id :: (hs.map Hole.id).reverse := by
  refine lineageWithin_plug hv.holds hv.orphan ?_
  exact (length_lt_height_plug hs p).trans_le hv.holds.height_le_depthBound

theorem Holds.get?_hole (hv : t.Holds (plug hs p)) (hh : h ∈ hs) : t.get? h.id = some h.content := by
  induction hs with
  | nil => cases hh
  | cons k hs ih =>
    rcases List.mem_cons.mp hh with rfl | hh
    · exact hv.get?_node
    · exact ih (hv.parts.each _ (by simp)) hh

theorem isSwitchedOff_of_get? {n : GeneNode} (h : t.get? x = some n) :
    t.isSwitchedOff x = n.gene.isSwitchedOff := by
  rw [isSwitchedOff, gene_of_get? h]

theorem Holds.isSwitchedOff (hv : t.Holds p) : t.isSwitchedOff p.id = p.content.gene.isSwitchedOff :=
  isSwitchedOff_of_get? hv.get?_id

theorem Holds.switchedOn_iff (hv : t.Holds (plug hs p)) :
    (∀ y ∈ (hs.map Hole.id).reverse, t.isSwitchedOff y = false) ↔
      ∀ h ∈ hs, h.content.gene.isSwitchedOff = false := by
  simp only [List.mem_reverse, List.mem_map, forall_exists_index, and_imp, forall_apply_eq_imp_iff₂]
  exact forall₂_congr fun h hh => by rw [isSwitchedOff_of_get? (hv.get?_hole hh)]

theorem Unfolds.isVisible_iff (hv : t.Unfolds (plug hs p)) : t.isVisible p.id = true ↔
    p.content.gene.isSwitchedOff = false ∧ ∀ h ∈ hs, h.content.gene.isSwitchedOff = false := by
  rw [GeneTree.isVisible_iff, hv.lineage, List.forall_mem_cons, hv.holds.switchedOn_iff,
    hv.holds.of_plug.isSwitchedOff]

/-- Below an entry there is its core, and nothing else that could be switched off. -/
theorem Unfolds.isVisible_core_iff (hv : t.Unfolds (plug hs p)) (hentry : t.IsEntry p.id) :
    t.isVisible p.core.id = true ↔
      p.content.gene.isSwitchedOff = false ∧ ∀ h ∈ hs, h.content.gene.isSwitchedOff = false := by
  obtain ⟨id, content, parts⟩ := p
  have hp := hv.holds.of_plug
  have hgene : t.gene id = .ok content.gene := gene_of_get? hp.get?_node
  change t.IsEntry id at hentry
  rcases hentry with ⟨g, hg, hcore⟩ | ⟨x, active, hg, g, hx, hcore⟩
  · obtain rfl : content.gene = g := Except.ok.inj (hgene.symm.trans hg)
    rw [core_self hcore, hv.isVisible_iff]
  · have hoptional : content.gene = .optional x active := Except.ok.inj (hgene.symm.trans hg)
    have hwrapper : content.gene.isWrapper = true := by
      rw [hoptional]
      rfl
    obtain ⟨q, rfl⟩ := hp.shaped.exists_part hwrapper
    have hshaped := hp.shaped
    rw [Shaped, hoptional] at hshaped
    obtain ⟨rfl, -⟩ := List.cons.inj hshaped.1
    have hq := hp.parts.head
    obtain rfl : q.content.gene = g := Except.ok.inj ((gene_of_get? hq.get?_id).symm.trans hx)
    have hself : q.core = q := by
      obtain ⟨id', content', parts'⟩ := q
      exact core_self hcore
    -- seen from the core, the entry is one more hole of the context
    have hinner : t.Unfolds (plug (hs ++ [⟨id, content, [], []⟩]) q) := by
      rw [plug_concat]
      exact hv
    rw [core_wrapper hwrapper, hself, hinner.isVisible_iff, List.forall_mem_append, List.forall_mem_singleton,
      Gene.isSwitchedOff_of_core hcore]
    exact ⟨fun h => ⟨h.2.2, h.2.1⟩, fun h => ⟨rfl, h.2, h.1⟩⟩

end GeneTree

namespace GeneTerm

variable {v s : GeneTerm} {x : NodeId} {active : Bool}

theorem isSwitchedOff_erase (v : GeneTerm) :
    v.erase.content.gene.isSwitchedOff = v.content.gene.isSwitchedOff := by
  obtain ⟨id, content, parts⟩ := v
  rw [erase_node]
  exact Gene.isSwitchedOff_rename _ content.gene

theorem isSwitchedOff_withParent (owner : Option NodeId) (v : GeneTerm) :
    (v.withParent owner).content.gene.isSwitchedOff = v.content.gene.isSwitchedOff := by
  obtain ⟨id, content, parts⟩ := v
  rfl

/-- An optional with the value of another one is switched on or off like that. -/
theorem isSwitchedOff_overlay (hv : v.content.gene = .optional x active)
    (hs : s.content.gene.variant = .optional) :
    (overlay v s).content.gene.isSwitchedOff = s.content.gene.isSwitchedOff := by
  obtain ⟨id, ⟨name, gene, parent⟩, parts⟩ := v
  obtain ⟨sid, ⟨sname, source, sparent⟩, others⟩ := s
  obtain rfl : gene = .optional x active := hv
  cases source
  case optional => rfl
  all_goals cases hs

end GeneTerm

namespace Edit

variable {t src : GeneTree} {v s : GeneTerm} {x : NodeId} {active : Bool}

theorem ensures_copyIfFits (ht : t.FreeExact) (hv : t.Holds v) (hs : src.Holds s) :
    Ensures (copyIfFits v.id src s.id) t fun r u => r = .ok true →
      ∃ w, w.erase = (overlay v s).erase ∧ Refills t v u w := by
  have hcopy : Ensures (do copyFrom v.id src s.id; return true : Edit Bool) t fun r u =>
      r = .ok true → ∃ w, w.erase = (overlay v s).erase ∧ Refills t v u w := by
    cases h : t.assessCopy v.id src s.id with
    | error e =>
      refine Ensures.bind (ensures_copyFrom_error h) ?_ ?_
      · rintro a u ⟨he, -⟩
        cases he
      · exact fun _ _ _ he => by cases he
    | ok =>
      refine Ensures.bind (ensures_copyFrom ht hv hs h) ?_ ?_
      · exact fun _ _ hw => Ensures.pure fun _ => hw.2
      · exact fun _ _ _ he => by cases he
  refine Ensures.tryCatch (P := fun r u => r = .ok true →
    ∃ w, w.erase = (overlay v s).erase ∧ Refills t v u w) hcopy (fun _ _ h => h) ?_
  intro e u _
  split
  · exact Ensures.pure fun he => by cases he
  · exact Ensures.pure fun he => by cases he
  · exact Ensures.pure fun he => by cases he
  · exact Ensures.throw fun he => by cases he

/-- An optional that adopts a value is switched on, unless it is copied from one that is switched off. -/
theorem ensures_adopt_optional (ht : t.FreeExact) (hv : t.Holds v) (hs : src.Holds s)
    (hgene : v.content.gene = .optional x active) :
    Ensures (adopt v.id src s.id) t fun r u => r = .ok true →
      ∃ w, Refills t v u w ∧ w.content.gene.isSwitchedOff = s.content.gene.isSwitchedOff := by
  have hvariant : t.variant v.id = .ok .optional := by
    rw [exists_variant hv.get?_id, hgene]
    rfl
  refine ensures_query_bind hvariant (ensures_query_bind (exists_variant hs.get?_id) ?_)
  -- an optional copies another one with its flag; any other gene goes to the core and sets the flag
  by_cases hoptional : s.content.gene.variant = .optional
  · rw [hoptional, if_pos (by rfl)]
    refine (ensures_copyIfFits ht hv hs).mono ?_
    intro r u h hr
    obtain ⟨w, herase, hw⟩ := h hr
    refine ⟨w, hw, ?_⟩
    rw [← isSwitchedOff_overlay hgene hoptional, ← isSwitchedOff_erase w, herase, isSwitchedOff_erase]
  · have hcopies : adoptsByCopy .optional s.content.gene.variant = false := by
      simp [adoptsByCopy, Ne.symm hoptional]
    rw [hcopies]
    refine ensures_query_bind hv.coreNode ?_
    refine Ensures.bind (keeps_adoptInner_core lasts_true ht hv hs (accepts_true _ s)) ?_ ?_
    · rintro adopted u ⟨w, hw⟩
      cases adopted with
      | false => exact Ensures.pure fun he => by cases he
      | true =>
        obtain ⟨id, content, parts⟩ := v
        obtain ⟨id', content', parts'⟩ := w
        obtain rfl : id' = id := hw.same_id
        have hblank : content'.gene.blank = (Gene.optional x active).blank :=
          hgene ▸ congrArg GeneNode.gene (blank_eq_of_mould_eq hw.mould)
        obtain ⟨active', hgene'⟩ := exists_optional_of_blank hblank
        refine Ensures.bind_ok (P := fun _ u' => u' = u.setGene id' (.optional x true))
          (ensures_setActive hw.holds.get?_node hgene' ⟨(), rfl, rfl⟩) ?_
        rintro - u' rfl
        have hset := Refills.setGene (g := .optional x true) hw.frame.exact hw.holds
          (hgene' ▸ rfl) (hgene' ▸ rfl)
        exact Ensures.pure fun _ =>
          ⟨_, hw.toRefills.trans hset, (Gene.isSwitchedOff_of_variant hoptional).symm⟩
    · exact fun _ _ _ he => by cases he

theorem ensures_adopt_entry (ht : t.FreeExact) (hv : t.Holds v) (hs : src.Holds s)
    (hentry : t.IsEntry v.id) :
    Ensures (adopt v.id src s.id) t fun r u => r = .ok true → ∃ w, Refills t v u w ∧
      (w.content.gene.isSwitchedOff = true ↔
        t.variant v.id = .ok .optional ∧ src.isSwitchedOff s.id = true) := by
  have hgene := gene_of_get? hv.get?_id
  have hvariant := exists_variant hv.get?_id
  rw [hs.isSwitchedOff]
  rcases hentry with ⟨g, hg, hcore⟩ | ⟨x, active, hg, -⟩
  · obtain rfl : v.content.gene = g := Except.ok.inj (hgene.symm.trans hg)
    refine (keeps_adopt ht hv hs).mono ?_
    rintro r u ⟨w, hw⟩ -
    have hblank : w.content.gene.blank = v.content.gene.blank :=
      congrArg GeneNode.gene (blank_eq_of_mould_eq hw.mould)
    have hcore' : w.content.gene.isWrapper = false := by
      rw [← Gene.isWrapper_blank, hblank, Gene.isWrapper_blank, hcore]
    refine ⟨w, hw, ?_⟩
    rw [Gene.isSwitchedOff_of_core hcore', hvariant]
    simp [(Gene.isWrapper_eq_false_iff.mp hcore).1]
  · have hoptional : v.content.gene = .optional x active := Except.ok.inj (hgene.symm.trans hg)
    refine (ensures_adopt_optional ht hv hs hoptional).mono ?_
    intro r u h hr
    obtain ⟨w, hw, hsame⟩ := h hr
    refine ⟨w, hw, ?_⟩
    rw [hsame, hvariant, hoptional]
    exact ⟨fun h => ⟨rfl, h⟩, fun h => h.2⟩

variable {hs : List Hole} {p : GeneTerm}

/-- Adopting a value switches nothing above an entry. -/
theorem ensures_adopt_visible (hv : t.Unfolds (plug hs p)) (hsrc : src.Holds s)
    (hplain : ∀ h ∈ hs, h.content.gene.isCollection = false) (hentry : t.IsEntry p.id) :
    Ensures (adopt p.id src s.id) t fun r u => r = .ok true →
      u.coreNode p.id = .ok p.core.id ∧
        (u.isVisible p.core.id = true ↔ (∀ y ∈ (t.lineage p.id).tail, t.isSwitchedOff y = false) ∧
          ¬ (t.variant p.id = .ok .optional ∧ src.isSwitchedOff s.id = true)) := by
  have hp := hv.holds.of_plug
  refine (ensures_adopt_entry hv.exact hp hsrc hentry).mono ?_
  intro r u h hr
  obtain ⟨q, hq, hoff⟩ := h hr
  have hu := hv.becomes (hq.plug hv.holds hplain).becomes
  have hid : q.id = p.id := hq.becomes.id
  have hcore : q.core.id = p.core.id :=
    id_eq_of_mould_eq (core_mould hq.holds.shaped hp.shaped hq.mould)
  have hentry' : u.IsEntry q.id := by
    rw [hid]
    exact hentry.of_mould hv hu (hq.plug hv.holds hplain).mould (fixed_plug hplain p.id_mem_fixed)
  refine ⟨hid ▸ hcore ▸ hu.holds.of_plug.coreNode, ?_⟩
  rw [← hcore, hu.isVisible_core_iff hentry', hv.lineage, List.tail_cons, hv.holds.switchedOn_iff, ← hoff,
    Bool.not_eq_true, and_comm]

end Edit

namespace Revision

variable {γ : Type} {s u : Individual} {l : Link}

/-- Of the optionals above the gene that a link has given a value, those above the target are as before,
and the target is switched on, unless it is a copy of an optional that is switched off. -/
theorem visible_of_applyLink (hl : s.Fastens l)
    (h : Gives ((applyLink l : Revision γ Bool).run.run s) (.ok true, u)) :
    ∃ src t t' core, s.sourceValue? l = some src ∧ s.gene l.target.action l.target.param = .ok t ∧
      u.gene l.target.action l.target.param = .ok t' ∧ t.coreNode l.target.node = .ok core ∧
      t'.coreNode l.target.node = .ok core ∧
      (l.origin = .params → src.isSwitchedOff src.root = false) ∧
      (t'.isVisible core = true ↔
        (∀ y ∈ (t.lineage l.target.node).tail, t.isSwitchedOff y = false) ∧
          ¬ (t.variant l.target.node = .ok .optional ∧ src.isSwitchedOff src.root = true)) := by
  obtain ⟨⟨v, ⟨t₀, ht₀, hv⟩, hx⟩, ⟨w, ⟨t, ht, hw⟩, hz⟩, hcore, t₁, ht₁, hentry⟩ := hl
  obtain rfl : t = t₁ := Except.ok.inj (ht.symm.trans ht₁)
  obtain ⟨ks, p', rfl, hp', -⟩ := exists_plug (mem_ids_of_mem_fixed hx)
  obtain ⟨src, sv, hsrc, hsv, hroot, herase⟩ := Individual.exists_sourceValue ⟨t₀, ht₀, hv⟩ hp'
  have hlive := Individual.Shows.contains ⟨t, ht, hw⟩ ht hz
  obtain ⟨hs, p, rfl, hp, hplain⟩ := exists_plug (mem_ids_of_mem_fixed hz)
  rw [← hp] at hentry
  have hadopt := Edit.ensures_adopt_visible hw hsv (hplain hz) hentry
  rw [hroot, hp] at hadopt
  obtain ⟨⟨r, t'⟩, hrun⟩ := hadopt.1
  have hyields := yields_applyLink (γ := γ) hsrc ht hlive hrun
  obtain ⟨hr, hu⟩ := hyields.eq_of_gives h
  have hr : r = .ok true := by
    cases r with
    | error e => cases hr
    | ok b =>
      cases hr
      rfl
  obtain ⟨hcore', hvisible⟩ := hadopt.2 r t' hrun hr
  refine ⟨src, t, t', p.core.id, hsrc, ht, ?_, hp ▸ hw.holds.of_plug.coreNode, hcore', ?_, hvisible⟩
  · rw [hu]
    exact Individual.gene_setGene_self ht
  · intro horigin
    obtain ⟨t₂, ht₂, g, hg, hwrapper⟩ := hcore horigin
    obtain rfl : t₀ = t₂ := Except.ok.inj (ht₀.symm.trans ht₂)
    rw [← hp', gene_of_get? hv.holds.of_plug.get?_id, Except.ok.injEq] at hg
    subst hg
    rw [← hroot, hsv.isSwitchedOff, ← isSwitchedOff_erase, herase, isSwitchedOff_withParent,
      isSwitchedOff_erase, Gene.isSwitchedOff_of_core hwrapper]

end Revision

namespace ValueCall

variable {γ : Type} [RandomSource γ]

/-- When a value can be seen that a link has just brought, in a pass after any run of linkers and of what
changes values. All optionals above the target have to be switched on already, and the source must not be
an optional that is switched off and copied; between calls no link starts at an optional. -/
theorem bound_value_visible_iff (ind last s u : Individual) (calls : List ValueCall)
    (pre post : List Link) (l : Link) (n : Nat) (g g' k k' k'' : γ)
    (hind : ind.LinksFromLinkers γ)
    (hrun : (leaveAll calls ind : Draw γ Individual) g = .ok (last, g'))
    (hlinks : last.links = pre ++ l :: post)
    (hpre : (Revision.applyAll pre : Revision γ Nat).run.run last k = .ok ((.ok n, s), k'))
    (hlink : (Revision.applyLink l : Revision γ Bool).run.run s k' = .ok ((.ok true, u), k'')) :
    ∃ src t t' core, s.sourceValue? l = some src ∧ s.gene l.target.action l.target.param = .ok t ∧
      u.gene l.target.action l.target.param = .ok t' ∧ t.coreNode l.target.node = .ok core ∧
      t'.coreNode l.target.node = .ok core ∧
      (l.origin = .params → src.isSwitchedOff src.root = false) ∧
      (t'.isVisible core = true ↔
        (∀ y ∈ (t.lineage l.target.node).tail, t.isSwitchedOff y = false) ∧
          ¬ (t.variant l.target.node = .ok .optional ∧ src.isSwitchedOff src.root = true)) := by
  have hmoored := Individual.moored_of_linksFromLinkers hind
  obtain ⟨hlast, -, -⟩ := drifts_of_leaveAll ⟨g, g', hrun⟩ hmoored
  have hsub : pre ⊆ last.links := hlinks ▸ List.subset_append_left _ _
  obtain ⟨hs, hkept, -⟩ := (Revision.drifts_applyAll hsub).2 _ _ ⟨k, k', hpre⟩ hlast
  have hmem : l ∈ s.links := hkept (by simp [hlinks])
  exact Revision.visible_of_applyLink (hs.fastened l hmem) ⟨k', k'', hlink⟩

/-- A count is bound to an optional that is switched off. -/
theorem bound_value_visible_iff_of_count :
    let count := GeneTree.integerIn "count" 0 9
    let call (id : Nat) (t : GeneTree) : Action :=
      { Action.rpc "shop" "list" [⟨"count", .query, t⟩] with id := ⟨id⟩ }
    let start := { Individual.new .random 0 with
      main := [call 1 count, call 2 (.optional "count" count false)], nextId := 3 }
    let link : Link := ⟨⟨⟨1⟩, 0, ⟨0⟩⟩, ⟨⟨2⟩, 0, ⟨0⟩⟩, .params⟩
    let calls := [randomizeGene ⟨1⟩ 0 true]
    ∃ (ind last u : Individual) (g g' k : WordSource) (t t' : GeneTree),
      (leave start (linkAll {}) : Draw WordSource Individual) ⟨[], 1⟩ = .ok (ind, g) ∧
      (leaveAll calls ind : Draw WordSource Individual) g = .ok (last, g') ∧
      (Revision.applyLink link : Revision WordSource Bool).run.run last g' = .ok ((.ok true, u), k) ∧
      last.gene ⟨2⟩ 0 = .ok t ∧ t.isVisible ⟨1⟩ = false ∧
      u.gene ⟨2⟩ 0 = .ok t' ∧ t'.isVisible ⟨1⟩ = true := by
  intro count call start link calls
  let linked : Draw WordSource Individual := leave start (linkAll {})
  let bound (ind : Individual) (g : WordSource) :=
    ((Revision.applyLink link : Revision WordSource Bool).run.run ind g).toOption
  let below (ind : Individual) := (ind.gene ⟨2⟩ 0).toOption
  have hruns : ((linked ⟨[], 1⟩).toOption.bind fun r => (leaveAll calls r.1 r.2).toOption.bind fun r' =>
      (bound r'.1 r'.2).bind fun r'' => (below r'.1).map fun t =>
        (r'.1.links, r''.1.1.toOption, t.isVisible ⟨1⟩, t.lineage ⟨0⟩, (t.coreNode ⟨0⟩).toOption)) =
      some ([link], some true, false, [⟨0⟩], some ⟨1⟩) := by decide +kernel
  have htrees : ∀ a ∈ start.actions, ∀ p ∈ a.params, p.gene.WellFormed := by
    have hcount := Built.integerIn "count" 0 9
    simp [start, call, Individual.actions, Individual.new, Action.rpc, Action.template]
    exact ⟨hcount.wellFormed, (Built.optional "count" false hcount).wellFormed⟩
  have hstart : start.LinksFromLinkers WordSource := .unlinked (by decide) htrees rfl
  obtain ⟨⟨ind, g⟩, hind, hrest⟩ := Option.bind_eq_some_iff.mp hruns
  obtain ⟨⟨last, g'⟩, hlast, hrest⟩ := Option.bind_eq_some_iff.mp hrest
  obtain ⟨⟨⟨answer, u⟩, k⟩, hbound, hrest⟩ := Option.bind_eq_some_iff.mp hrest
  obtain ⟨t, hbelow, hends⟩ := Option.map_eq_some_iff.mp hrest
  simp only [Prod.mk.injEq] at hends
  obtain ⟨hlinks, hanswer, hhidden, hlineage, hcore⟩ := hends
  have horigin : link.origin = .params := rfl
  have hparam : link.target.action = ⟨2⟩ ∧ link.target.param = 0 := ⟨rfl, rfl⟩
  have hnode : link.target.node = ⟨0⟩ := rfl
  clear_value calls start link
  have hlinked := eq_ok_of_toOption hind
  have hrun := eq_ok_of_toOption hlast
  have hlink := eq_ok_of_toOption hbound
  have ht : last.gene ⟨2⟩ 0 = .ok t := eq_ok_of_toOption hbelow
  obtain rfl : answer = .ok true := eq_ok_of_toOption hanswer
  obtain ⟨src, t₁, t', core, -, ht₁, ht', hcore₁, -, hsource, hvisible⟩ :=
    bound_value_visible_iff ind last last u calls [] [] link 0 g g' g' g' k
      (.called hstart (linkAll {}) ⟨_, _, hlinked⟩) hrun hlinks rfl hlink
  rw [hparam.1, hparam.2] at ht₁ ht'
  rw [hnode] at hcore₁ hvisible
  obtain rfl : t = t₁ := Except.ok.inj (ht.symm.trans ht₁)
  rw [hcore₁] at hcore
  obtain rfl : core = ⟨1⟩ := Option.some.inj hcore
  rw [hlineage, hsource horigin] at hvisible
  have hseen : t'.isVisible ⟨1⟩ = true := hvisible.mpr ⟨List.forall_mem_nil _, by simp⟩
  exact ⟨ind, last, u, g, g', k, t, t', hlinked, hrun, hlink, ht, hhidden, ht', hseen⟩

end ValueCall

/-- A text is bound to the inner one of two optionals, and to a field of an object that is left out. -/
theorem Revision.sync_binds_hidden_values :
    let find := Action.rpc "shop" "find" [⟨"email", .query, .stringWith "email" "ann"⟩]
    let nested := GeneTree.optional "email" (.optional "email" (.string "email") false) false
    let body := GeneTree.object "body" [.optional "user" (.object "user" [.string "email"]) false]
    let bind (core : NodeId) : Linking WordSource (Nat × Bool × String × String) := do
      let _ ← ({} : Linker).linkAll
      let applied ← Linking.revise Revision.sync
      let text (r : Except GeneError String) := r.toOption.getD ""
      match (← get).gene ⟨2⟩ 0 with
      | .ok t => return (applied, t.isVisible core, text (t.printable core), text (t.printable t.root))
      | .error e => throw (.action e)
    let run (p : Parameter) (core : NodeId) := (bind core).run.run { Individual.new .random 0 with
      main := [{ find with id := ⟨1⟩ }, { Action.rpc "shop" "save" [p] with id := ⟨2⟩ }]
      nextId := 3 } ⟨[], 1⟩
    (run ⟨"email", .query, nested⟩ ⟨2⟩).map (fun r => r.1.1.toOption) =
        .ok (some (1, false, "ann", "null")) ∧
      (run ⟨"body", .body, body⟩ ⟨3⟩).map (fun r => r.1.1.toOption) =
        .ok (some (1, false, "ann", "\x7b\x7d")) := by
  decide +kernel

end CallEvolution
