import CallEvolution.Proofs.NodeLaws

/-! Randomizing refills a term, and a condition on its nodes lasts. The height of a term is enough depth
for the descent, so a collection never keeps members that were released. -/

namespace CallEvolution

open GeneTerm

namespace Gene

/-- Do the bounds of a leaf or of a collection leave it more than one value? -/
def allowsChange : Gene → Bool
  | integer _ min max => min < max
  | long _ min max => min < max
  | float _ min max => min < max
  | double _ min max => min < max
  | string _ _ maxLength => 0 < maxLength
  | choice values _ => 1 < values.length
  | array _ _ maxSize | map _ _ maxSize => 0 < maxSize
  | boolean _ | date _ | time _ | moment _ => true
  | _ => false

/-- Can a gene change exactly if one of its parts can? -/
def changesByParts : Gene → Bool
  | object .. | optional .. | primaryKey .. | base64 _ => true
  | _ => false

end Gene

/-- Can a mutation change a value of the term? -/
def GeneTerm.changeable : GeneTerm → Bool
  | node _ content parts =>
    if content.gene.changesByParts then (parts.map changeable).or else content.gene.allowsChange

namespace GeneTree

variable {t : GeneTree} {v : GeneTerm} {vs : List GeneTerm}

theorem anyM_changeable {f : NodeId → Except GeneError Bool} (h : ∀ v ∈ vs, f v.id = .ok v.changeable) :
    (vs.map GeneTerm.id).anyM f = .ok (vs.map changeable).or := by
  induction vs with
  | nil => rfl
  | cons v vs ih =>
    rw [List.map_cons, List.map_cons, List.anyM, h v List.mem_cons_self, List.or_cons]
    cases v.changeable with
    | true => rfl
    | false => exact ih fun x hx => h x (List.mem_cons_of_mem _ hx)

theorem Holds.isMutableWithin (hv : t.Holds v) {d : Nat} (hd : v.height ≤ d) :
    t.isMutableWithin d v.id = .ok v.changeable := by
  induction v using induct generalizing d with
  | node id content parts ih =>
    cases d with
    | zero => simp [height] at hd
    | succ d =>
      have hshaped := hv.shaped
      rw [Shaped] at hshaped
      have hbelow : ∀ p ∈ parts, t.isMutableWithin d p.id = .ok p.changeable := by
        intro p hp
        have hlt := height_lt_of_part id content hp
        exact ih p hp (hv.parts.each p hp) (by omega)
      obtain ⟨name, gene, parent⟩ := content
      have hgene : t.gene id = .ok gene := gene_of_get? hv.get?_id
      change t.isMutableWithin (d + 1) id = _
      rw [GeneTree.isMutableWithin, hgene, changeable]
      cases gene
      case object fields refType =>
        obtain rfl : parts.map GeneTerm.id = fields := hshaped.1
        exact anyM_changeable hbelow
      case optional | primaryKey | base64 =>
        obtain ⟨p, rfl, rfl⟩ := List.map_eq_singleton_iff.mp hshaped.1
        refine (hbelow p List.mem_cons_self).trans ?_
        simp [Gene.changesByParts]
      all_goals rfl

theorem Holds.isMutable (hv : t.Holds v) : t.isMutable v.id = .ok v.changeable :=
  hv.isMutableWithin hv.height_le_depthBound

end GeneTree

open GeneTree

namespace RandomEdit

variable {γ : Type} {d : Nat} {t : GeneTree} {id : NodeId} {content : GeneNode}
  {P : Gene → List GeneTerm → Prop}

/-- A step that renews every held term of a limited height, and never fails there. -/
def Randomizes (P : Gene → List GeneTerm → Prop) (d : Nat) (step : NodeId → RandomEdit γ Unit) : Prop :=
  ∀ (t : GeneTree) (v : GeneTerm), t.FreeExact → t.Holds v → v.height ≤ d →
    Ensures (step v.id) t fun r u => r = .ok () ∧ ∃ w, Renews P t v u w

variable {step : NodeId → RandomEdit γ Unit} (hP : Lasts P)

include hP

theorem Randomizes.forM_parts (hstep : Randomizes P d step) (pre : List GeneTerm) {rest : List GeneTerm}
    (ht : t.FreeExact) (hv : t.Holds (.node id content (pre ++ rest)))
    (hd : ∀ v ∈ rest, v.height ≤ d) (hc : content.gene.isCollection = false) :
    Ensures ((rest.map GeneTerm.id).forM step) t fun r u => r = .ok () ∧
      ∃ rest', Renews P t (.node id content (pre ++ rest)) u (.node id content (pre ++ rest')) := by
  induction rest generalizing pre t with
  | nil => exact Ensures.pure ⟨rfl, [], .refl ht hv⟩
  | cons p rest ih =>
    refine Ensures.bind_ok (P := fun _ u => ∃ q, Renews P t p u q) ?_ ?_
    · refine (hstep t p ht (hv.parts.each p (by simp)) (hd p (by simp))).mono ?_
      rintro r u ⟨rfl, q, hq⟩
      exact ⟨(), rfl, q, hq⟩
    · rintro - u ⟨q, hq⟩
      have hpart := hq.part hP hv fun h => by simp [hc] at h
      have hu := hpart.holds
      rw [← List.singleton_append, ← List.append_assoc] at hu
      refine (ih _ hq.frame.exact hu fun v hv => hd v (List.mem_cons_of_mem _ hv)).mono ?_
      rintro r s ⟨rfl, rest', hs⟩
      rw [List.append_assoc, List.append_assoc] at hs
      exact ⟨rfl, q :: rest', hpart.trans hs⟩

theorem Randomizes.only_part (hstep : Randomizes P d step) {p : GeneTerm} (ht : t.FreeExact)
    (hv : t.Holds (.node id content [p])) (hd : p.height ≤ d)
    (hc : content.gene.isCollection = false) :
    Ensures (step p.id) t fun r u => r = .ok () ∧
      ∃ q, Renews P t (.node id content [p]) u (.node id content [q]) := by
  refine (hstep t p ht (hv.parts.each p (by simp)) hd).mono ?_
  rintro r u ⟨rfl, q, hq⟩
  rw [← List.nil_append [p]] at hv
  exact ⟨rfl, q, hq.part hP hv fun h => by simp [hc] at h⟩

theorem ensures_freshElement (hstep : Randomizes P d step) {template : GeneTerm} (ht : t.FreeExact)
    (hv : t.Holds template) (hd : template.height ≤ d) (owner : NodeId) :
    Ensures (freshElement step owner template.id) t fun r u =>
      ∃ w, r = .ok w.id ∧ Adds t u owner w ∧ Conserves P template w := by
  obtain ⟨copy, f, hcopy, -⟩ := hv.extract
  refine Ensures.bind_ok (P := fun a u => a = copy ∧ u = t)
    (ensures_lift (Edit.ensures_query ⟨copy, hcopy, rfl, rfl⟩)) ?_
  rintro a u ⟨rfl, rfl⟩
  refine Ensures.bind_ok (P := fun a u' => ∃ w, a = w.id ∧ w.height = template.height ∧
    Adds u u' owner w ∧ Conserves P template w)
    (ensures_lift ((Edit.ensures_graftCopy ht hv hcopy owner).mono ?_)) ?_
  · rintro r u' ⟨w, f, rfl, rfl, hadds⟩
    exact ⟨_, rfl, _, rfl, by rw [height_withParent, height_rename], hadds, .copy hP f _ _⟩
  · rintro a u' ⟨w, rfl, hheight, hadds, hcopy⟩
    refine Ensures.bind_ok (P := fun _ s => ∃ x, Renews P u' w s x) ?_ ?_
    · refine (hstep u' w hadds.frame.exact hadds.holds (by omega)).mono ?_
      rintro r s ⟨rfl, x, hx⟩
      exact ⟨(), rfl, x, hx⟩
    · rintro - s ⟨x, hx⟩
      exact Ensures.pure ⟨x, by rw [hx.same_id], hadds.refills hx.toRefills, hcopy.trans hx.toConserves⟩

theorem ensures_freshElements (hstep : Randomizes P d step) {template : GeneTerm} (ht : t.FreeExact)
    (hv : t.Holds template) (hd : template.height ≤ d) (owner : NodeId) (n : Nat) :
    Ensures (freshElements step owner template.id n) t fun r u =>
      ∃ ws, r = .ok (ws.map GeneTerm.id) ∧ ws.length = n ∧ AddsAll t u owner ws ∧
        ∀ w ∈ ws, Conserves P template w := by
  induction n generalizing t with
  | zero => exact Ensures.pure ⟨[], rfl, rfl, .nil ht owner, by simp⟩
  | succ n ih =>
    refine Ensures.bind_ok (P := fun a u => ∃ w, a = w.id ∧ Adds t u owner w ∧ Conserves P template w)
      ?_ ?_
    · refine (ensures_freshElement hP hstep ht hv hd owner).mono ?_
      rintro r u ⟨w, rfl, hw⟩
      exact ⟨w.id, rfl, w, rfl, hw⟩
    · rintro a u ⟨w, rfl, hw, hcopy⟩
      have hu := hw.frame.holds hv (Set.disjoint_empty _)
      refine Ensures.bind_ok (P := fun as s => ∃ ws, as = ws.map GeneTerm.id ∧ ws.length = n ∧
        AddsAll u s owner ws ∧ ∀ w ∈ ws, Conserves P template w) ?_ ?_
      · refine (ih hw.frame.exact hu).mono ?_
        rintro r s ⟨ws, rfl, hlen, hws⟩
        exact ⟨_, rfl, ws, rfl, hlen, hws⟩
      · rintro as s ⟨ws, rfl, hlen, hws, hcopies⟩
        exact Ensures.pure ⟨w :: ws, rfl, by simp [hlen], hw.cons hws,
          List.forall_mem_cons.mpr ⟨hcopy, hcopies⟩⟩

theorem ensures_setFresh {parts : List GeneTerm} {forceNew : Bool} {fresh : Gene}
    {redraw : Draw γ Gene} (ht : t.FreeExact) (hv : t.Holds (.node id content parts))
    (hc : content.gene.isCollection = false) (hfresh : content.gene.Varies fresh)
    (hredraw : ∀ g, Gives redraw g → content.gene.Varies g) :
    Ensures (do
        let changes ← if forceNew then Edit.query (·.isMutable id) else pure false
        let fresh ← if changes then draw redraw else pure fresh
        Edit.update (·.setGene id fresh) : RandomEdit γ Unit) t fun r u =>
      r = .ok () ∧ ∃ w, Renews P t (.node id content parts) u w := by
  have hput : ∀ g : Gene, content.gene.Varies g →
      Ensures (lift (Edit.update (·.setGene id g)) : RandomEdit γ Unit) t fun r u =>
        r = .ok () ∧ ∃ w, Renews P t (.node id content parts) u w := fun g hg =>
    ensures_lift (Edit.ensures_update ⟨rfl, _, .setGene hP ht hv hg hc⟩)
  have hkeep : Ensures (pure fresh >>= fun g => lift (Edit.update (·.setGene id g)) :
      RandomEdit γ Unit) t fun r u =>
        r = .ok () ∧ ∃ w, Renews P t (.node id content parts) u w := by
    refine Ensures.bind_ok (P := fun g u => g = fresh ∧ u = t) (Ensures.pure ⟨_, rfl, rfl, rfl⟩) ?_
    rintro g u ⟨rfl, rfl⟩
    exact hput g hfresh
  have hrest : ∀ changes : Bool, Ensures (do
      let fresh ← if changes then draw redraw else pure fresh
      Edit.update (·.setGene id fresh) : RandomEdit γ Unit) t fun r u =>
        r = .ok () ∧ ∃ w, Renews P t (.node id content parts) u w := by
    intro changes
    cases changes with
    | false => exact hkeep
    | true =>
      refine Ensures.bind_ok (P := fun g u => Gives redraw g ∧ u = t)
        (ensures_draw fun g hg => ⟨g, rfl, hg, rfl⟩) ?_
      rintro g u ⟨hg, rfl⟩
      exact hput g (hredraw g hg)
  cases forceNew with
  | false =>
    refine Ensures.bind_ok (P := fun b u => b = false ∧ u = t) (Ensures.pure ⟨_, rfl, rfl, rfl⟩) ?_
    rintro b u ⟨rfl, rfl⟩
    exact hrest false
  | true =>
    refine Ensures.bind_ok (P := fun _ u => u = t)
      (ensures_lift (Edit.ensures_query ⟨_, hv.isMutable, rfl⟩)) ?_
    rintro a u rfl
    exact hrest a

variable [RandomSource γ]

omit hP in
theorem ensures_newSize (maxSize : Nat) :
    Ensures (newSize maxSize : RandomEdit γ Nat) t fun r u =>
      ∃ n, r = .ok n ∧ n ≤ maxSize ∧ u = t := by
  refine Ensures.bind_ok (P := fun n u => n ≤ maxSize ∧ u = t)
    (ensures_draw fun n hn => ⟨n, rfl, (Draw.count_mem hn).2, rfl⟩) ?_
  rintro n u ⟨hn, rfl⟩
  by_cases hroom : roomLimit ≤ n
  · rw [if_pos hroom]
    refine Ensures.bind_ok (P := fun _ _ => False) (ensures_fault) ?_
    exact fun _ _ h => h.elim
  · rw [if_neg hroom]
    exact Ensures.pure ⟨n, rfl, hn, rfl⟩

theorem ensures_freshEntry (hstep : Randomizes P d step) {template : GeneTerm} (ht : t.FreeExact)
    (hv : t.Holds template) (hd : template.height ≤ d) (owner : NodeId) (used : List String) :
    Ensures (freshEntry step owner template.id used) t fun r u =>
      ∃ w, r = .ok (w.id, w.content.name :: used) ∧ Adds t u owner w ∧ Conserves P template w ∧
        w.content.name ∉ used := by
  refine Ensures.bind_ok (P := fun a u => ∃ w, a = w.id ∧ Adds t u owner w ∧ Conserves P template w)
    ?_ ?_
  · refine (ensures_freshElement hP hstep ht hv hd owner).mono ?_
    rintro r u ⟨w, rfl, hw⟩
    exact ⟨w.id, rfl, w, rfl, hw⟩
  · rintro a u ⟨w, rfl, hw, hcopy⟩
    refine Ensures.bind_ok (P := fun key s => key ∉ used ∧ s = u)
      (ensures_draw fun key hkey => ⟨key, rfl, Draw.key_notMem hkey, rfl⟩) ?_
    rintro key s ⟨hkey, rfl⟩
    refine Ensures.bind_ok (P := fun _ s' => s' = s.modify w.id fun n => { n with name := key })
      (ensures_lift (Edit.ensures_update ⟨(), rfl, rfl⟩)) ?_
    rintro - s' rfl
    refine Ensures.pure ⟨w.withName key, ?_, hw.named key, hcopy.withName key, ?_⟩
    · rw [id_withName, name_withName]
    · rwa [name_withName]

theorem ensures_freshEntries (hstep : Randomizes P d step) {template : GeneTerm} (ht : t.FreeExact)
    (hv : t.Holds template) (hd : template.height ≤ d) (owner : NodeId) (n : Nat)
    (used : List String) :
    Ensures (freshEntries step owner template.id n used) t fun r u =>
      ∃ ws, r = .ok (ws.map GeneTerm.id) ∧ ws.length = n ∧ AddsAll t u owner ws ∧
        (∀ w ∈ ws, Conserves P template w) ∧ (ws.map (·.content.name)).Nodup ∧
          ∀ w ∈ ws, w.content.name ∉ used := by
  induction n generalizing t used with
  | zero => exact Ensures.pure ⟨[], rfl, rfl, .nil ht owner, by simp, by simp, by simp⟩
  | succ n ih =>
    refine Ensures.bind_ok (P := fun a u => ∃ w, a = (w.id, w.content.name :: used) ∧
      Adds t u owner w ∧ Conserves P template w ∧ w.content.name ∉ used) ?_ ?_
    · refine (ensures_freshEntry hP hstep ht hv hd owner used).mono ?_
      rintro r u ⟨w, rfl, hw⟩
      exact ⟨_, rfl, w, rfl, hw⟩
    · rintro a u ⟨w, rfl, hw, hcopy, hname⟩
      have hu := hw.frame.holds hv (Set.disjoint_empty _)
      refine Ensures.bind_ok (P := fun as s => ∃ ws, as = ws.map GeneTerm.id ∧ ws.length = n ∧
        AddsAll u s owner ws ∧ (∀ x ∈ ws, Conserves P template x) ∧ (ws.map (·.content.name)).Nodup ∧
          ∀ x ∈ ws, x.content.name ∉ w.content.name :: used) ?_ ?_
      · refine (ih hw.frame.exact hu (w.content.name :: used)).mono ?_
        rintro r s ⟨ws, rfl, hlen, hws⟩
        exact ⟨_, rfl, ws, rfl, hlen, hws⟩
      · rintro as s ⟨ws, rfl, hlen, hws, hcopies, hnodup, hnames⟩
        refine Ensures.pure ⟨w :: ws, rfl, by simp [hlen], hw.cons hws,
          List.forall_mem_cons.mpr ⟨hcopy, hcopies⟩, ?_, List.forall_mem_cons.mpr ⟨hname, fun x hx => ?_⟩⟩
        · refine List.nodup_cons.mpr ⟨fun hmem => ?_, hnodup⟩
          obtain ⟨x, hx, he⟩ := List.mem_map.mp hmem
          exact hnames x hx (he ▸ List.mem_cons_self)
        · exact fun hmem => hnames x hx (List.mem_cons_of_mem _ hmem)

/-- A collection whose members are released and replaced by as many new ones as fit. -/
theorem ensures_renew {template : GeneTerm} {old : List GeneTerm}
    {fresh : Nat → RandomEdit γ (List NodeId)} (ht : t.FreeExact)
    (hv : t.Holds (.node id content (template :: old))) (hc : content.gene.isCollection = true)
    (hfresh : ∀ {u : GeneTree} (n : Nat), u.FreeExact → u.Holds template →
      Ensures (fresh n) u fun r s => ∃ ws, r = .ok (ws.map GeneTerm.id) ∧ ws.length = n ∧
        AddsAll u s id ws ∧ (∀ w ∈ ws, Conserves P template w) ∧
          (content.gene.variant = .map → (ws.map (·.content.name)).Nodup)) :
    Ensures (do
        Edit.releaseAll (old.map GeneTerm.id)
        let n ← newSize content.gene.capacity
        Edit.setMembers id (← fresh n) : RandomEdit γ Unit) t fun r u =>
      r = .ok () ∧ ∃ w, Renews P t (.node id content (template :: old)) u w := by
  have hold : id ∉ footprints old := fun hx =>
    id_notMem_allIds hv.distinct (List.mem_append_right _ hx)
  have hshaped := hv.shaped
  rw [Shaped] at hshaped
  refine Ensures.bind_ok (P := fun _ u => Frame t u (footprints old) ∅)
    (ensures_lift ((Edit.ensures_releaseAll ht hv.parts.tail).mono ?_)) ?_
  · rintro r u ⟨rfl, hu⟩
    exact ⟨(), rfl, hu⟩
  rintro - u hu
  refine Ensures.bind_ok (P := fun n s => n ≤ content.gene.capacity ∧ s = u) (ensures_newSize _) ?_
  rintro n s ⟨hn, rfl⟩
  -- the template is no member and so is not released
  have htemplate : s.Holds template := by
    refine hu.holds hv.parts.head ?_
    exact Set.disjoint_left.mpr fun x hx => hv.parts.disjoint hx
  refine Ensures.bind_ok (P := fun items s' => ∃ ws, items = ws.map GeneTerm.id ∧ ws.length = n ∧
    AddsAll s s' id ws ∧ (∀ w ∈ ws, Conserves P template w) ∧
      (content.gene.variant = .map → (ws.map (·.content.name)).Nodup))
    ((hfresh n hu.exact htemplate).mono ?_) ?_
  · rintro r s' ⟨ws, rfl, hws⟩
    exact ⟨_, rfl, ws, rfl, hws⟩
  rintro items s' ⟨ws, rfl, hlen, hws, hcopies, hnames⟩
  have hframe := hu.chain hws.frame
  have hid := hframe.get?_eq hv.get?_id hold
  have hsize : ws.length ≤ content.gene.capacity := by omega
  refine ensures_lift ((Edit.ensures_setMembers_ok hid hc ?_).mono ?_)
  · rwa [List.length_map]
  · rintro r w ⟨rfl, rfl⟩
    have hrefill := Refills.exchange hv hc hframe hws.holds hws.owner
    refine ⟨rfl, _, .of_members hc hrefill (fun h => ?_) fun htemplate _ m hm => ?_⟩
    · exact hP.fill hc hshaped.1 hsize (fun w hw => (hcopies w hw).stencil) hnames h
    · exact (hcopies m hm).every htemplate

/-- A descent of enough depth. -/
theorem randomizes_randomizeWithin (forceNew : Bool) (depth : Nat) :
    Randomizes P depth (randomizeWithin (γ := γ) forceNew depth) := by
  induction depth generalizing forceNew with
  | zero =>
    rintro t ⟨id, content, parts⟩ - - hd
    simp [height] at hd
  | succ depth ih =>
    rintro t ⟨id, content, parts⟩ ht hv hd
    have hshaped := hv.shaped
    rw [Shaped] at hshaped
    have hlow : ∀ p ∈ parts, p.height ≤ depth := by
      intro p hp
      have hlt := height_lt_of_part id content hp
      omega
    obtain ⟨name, gene, parent⟩ := content
    have hgene : t.gene id = .ok gene := gene_of_get? hv.get?_id
    refine Ensures.bind_ok (P := fun a u => a = gene ∧ u = t)
      (ensures_lift (Edit.ensures_query ⟨gene, hgene, rfl, rfl⟩)) ?_
    rintro a u ⟨rfl, rfl⟩
    refine Ensures.bind_ok (P := fun r s => Gives (Draw.leaf? a : Draw γ _) r ∧ s = u)
      (ensures_draw fun r hr => ⟨r, rfl, hr, rfl⟩) ?_
    rintro r s ⟨hr, rfl⟩
    -- a leaf gets the gene that was drawn, any other gene goes on with its parts
    cases r with
    | some fresh =>
      obtain ⟨hvaries, hc⟩ := Draw.varies_of_leaf? hr
      refine ensures_setFresh hP ht hv hc hvaries ?_
      exact fun _ hg => Draw.varies_of_newLeaf hvaries hg
    | none =>
      cases a
      case object fields refType =>
        have hforM := (ih forceNew).forM_parts hP [] ht hv hlow rfl
        rw [hshaped.1] at hforM
        refine hforM.mono ?_
        rintro r u ⟨rfl, rest, hu⟩
        exact ⟨rfl, _, hu⟩
      case optional inner active =>
        obtain ⟨p, rfl, rfl⟩ := List.map_eq_singleton_iff.mp hshaped.1
        refine Ensures.bind_ok (P := fun _ u => u = s)
          (ensures_draw fun on _ => ⟨on, rfl, rfl⟩) ?_
        rintro on u rfl
        refine Ensures.bind_ok (P := fun _ s => s = u.setGene id (.optional p.id on))
          (ensures_lift (Edit.ensures_setActive hv.get?_id rfl ⟨(), rfl, rfl⟩)) ?_
        rintro - s rfl
        have hset := Renews.setGene (P := P) (g := .optional p.id on) hP ht hv
          ⟨rfl, fun h => h, fun h => h⟩ rfl
        refine ((ih forceNew).only_part hP hset.frame.exact hset.holds (hlow p (by simp)) rfl).mono ?_
        rintro r w ⟨rfl, q, hq⟩
        exact ⟨rfl, _, hset.trans hq⟩
      case primaryKey table inner uniqueId =>
        obtain ⟨p, rfl, rfl⟩ := List.map_eq_singleton_iff.mp hshaped.1
        refine ((ih forceNew).only_part hP ht hv (hlow p (by simp)) rfl).mono ?_
        rintro r u ⟨rfl, q, hq⟩
        exact ⟨rfl, _, hq⟩
      case base64 data =>
        obtain ⟨p, rfl, rfl⟩ := List.map_eq_singleton_iff.mp hshaped.1
        refine ((ih forceNew).only_part hP ht hv (hlow p (by simp)) rfl).mono ?_
        rintro r u ⟨rfl, q, hq⟩
        exact ⟨rfl, _, hq⟩
      case array template elements maxSize =>
        obtain ⟨p, old, rfl, rfl, rfl⟩ := List.map_eq_cons_iff.mp hshaped.1
        have hrenew := ensures_renew hP ht hv rfl fun n hu htemplate =>
          (ensures_freshElements hP (ih false) hu htemplate (hlow p (by simp)) id n).mono fun _ _ h =>
            h.imp fun _ hws => ⟨hws.1, hws.2.1, hws.2.2.1, hws.2.2.2, fun hmap => by cases hmap⟩
        exact hrenew
      case map template entries maxSize =>
        obtain ⟨p, old, rfl, rfl, rfl⟩ := List.map_eq_cons_iff.mp hshaped.1
        have hrenew := ensures_renew hP ht hv rfl fun n hu htemplate =>
          (ensures_freshEntries hP (ih false) hu htemplate (hlow p (by simp)) id n []).mono fun _ _ h =>
            h.imp fun _ hws => ⟨hws.1, hws.2.1, hws.2.2.1, hws.2.2.2.1, fun _ => hws.2.2.2.2.1⟩
        exact hrenew
      all_goals exact Ensures.pure ⟨rfl, _, .refl ht hv⟩

/-- Randomizing renews the term at a node, and never fails. -/
theorem renews_randomize {v : GeneTerm} (ht : t.FreeExact) (hv : t.Holds v) (forceNew : Bool) :
    Ensures (randomize v.id forceNew : RandomEdit γ Unit) t fun r u =>
      r = .ok () ∧ ∃ w, Renews P t v u w := by
  refine Ensures.bind_ok (P := fun a u => a = t ∧ u = t)
    (ensures_lift (Ensures.get_bind (Ensures.pure ⟨t, rfl, rfl, rfl⟩))) ?_
  rintro a u ⟨rfl, rfl⟩
  refine randomizes_randomizeWithin hP forceNew _ _ v ht hv ?_
  exact hv.height_le_depthBound.trans (Nat.le_add_right _ _)

omit hP in
/-- Randomizing refills the term at a node, and never fails. -/
theorem ensures_randomize {v : GeneTerm} (ht : t.FreeExact) (hv : t.Holds v) (forceNew : Bool) :
    Ensures (randomize v.id forceNew : RandomEdit γ Unit) t fun r u =>
      r = .ok () ∧ ∃ w, Refills t v u w := by
  refine (renews_randomize lasts_true ht hv forceNew).mono ?_
  rintro r u ⟨rfl, w, hw⟩
  exact ⟨rfl, w, hw.toRefills⟩

end RandomEdit
end CallEvolution
