import CallEvolution.Proofs.Overlay

/-! Copies between trees. What has been assessed can be written, and what is written has the value of the
source. -/

namespace CallEvolution

open GeneTerm

namespace GeneTree

variable {t u src : GeneTree}

theorem checkPairs_congr {f g : NodeId → NodeId → Except GeneError Unit}
    {pairs : List (NodeId × NodeId)} (h : ∀ r ∈ pairs, f r.1 r.2 = g r.1 r.2) :
    checkPairs f pairs = checkPairs g pairs := by
  induction pairs with
  | nil => rfl
  | cons r pairs ih =>
    rw [checkPairs, checkPairs, h r (by simp), ih fun r hr => h r (List.mem_cons_of_mem _ hr)]

theorem ok_of_checkPairs {f : NodeId → NodeId → Except GeneError Unit}
    {pairs : List (NodeId × NodeId)} (h : checkPairs f pairs = .ok ()) :
    ∀ r ∈ pairs, f r.1 r.2 = .ok () := by
  induction pairs with
  | nil => simp
  | cons r pairs ih =>
    rw [checkPairs] at h
    cases hr : f r.1 r.2 with
    | error e =>
      rw [hr] at h
      cases h
    | ok =>
      rw [hr] at h
      intro x hx
      rcases List.mem_cons.mp hx with rfl | hx
      · exact hr
      · exact ih h x hx

theorem assessGenes_congr {f g : NodeId → NodeId → Except GeneError Unit} {name : String}
    {mine theirs : Gene} (h : ∀ x ∈ mine.owned, ∀ y ∈ theirs.owned, f x y = g x y) :
    assessGenes f name mine theirs = assessGenes g name mine theirs := by
  have hmembers : ∀ template maxSize members, template ∈ mine.owned → members ⊆ theirs.owned →
      checkMembers f name template maxSize members = checkMembers g name template maxSize members := by
    intro template maxSize members htemplate hmembers
    unfold checkMembers
    rw [checkPairs_congr (g := g) fun r hr => ?_]
    obtain ⟨y, hy, rfl⟩ := List.mem_map.mp hr
    exact h template htemplate y (hmembers hy)
  have hzip : checkPairs f (mine.owned.zip theirs.owned) = checkPairs g (mine.owned.zip theirs.owned) :=
    checkPairs_congr fun r hr => h r.1 (List.of_mem_zip hr).1 r.2 (List.of_mem_zip hr).2
  unfold assessGenes
  split
  · split
    · rfl
    · exact hzip
  · exact hmembers _ _ _ (by simp [Gene.owned]) (by simp [Gene.owned])
  · exact hmembers _ _ _ (by simp [Gene.owned]) (by simp [Gene.owned])
  all_goals
    first
    | rfl
    | exact h _ (by simp [Gene.owned, Gene.children]) _ (by simp [Gene.owned, Gene.children])

/-- What a term may take over does not depend on the rest of its tree. -/
theorem assessCopyWithin_congr {d : Nat} {v : GeneTerm} (ht : t.Holds v) (hu : u.Holds v)
    (srcId : NodeId) :
    t.assessCopyWithin src d v.id srcId = u.assessCopyWithin src d v.id srcId := by
  induction d generalizing v srcId with
  | zero => rfl
  | succ d ih =>
    obtain ⟨id, content, parts⟩ := v
    have hshaped := ht.shaped
    rw [Shaped] at hshaped
    have hbelow : ∀ x ∈ content.gene.owned, ∀ y,
        t.assessCopyWithin src d x y = u.assessCopyWithin src d x y := by
      intro x hx y
      rw [← hshaped.1] at hx
      obtain ⟨p, hp, rfl⟩ := List.mem_map.mp hx
      exact ih (ht.parts.each p hp) (hu.parts.each p hp) y
    have htn : t.node id = .ok content := node_of_get? ht.get?_node
    have hun : u.node id = .ok content := node_of_get? hu.get?_node
    change t.assessCopyWithin src (d + 1) id srcId = u.assessCopyWithin src (d + 1) id srcId
    rw [assessCopyWithin, assessCopyWithin, htn, hun]
    cases src.node srcId with
    | error e => rfl
    | ok theirs =>
      change (if _ then _ else assessGenes _ _ _ _) = if _ then _ else assessGenes _ _ _ _
      rw [assessGenes_congr fun x hx y _ => hbelow x hx y]

theorem assessed_node {d : Nat} {id sid : NodeId} {content theirs : GeneNode}
    {parts others : List GeneTerm} (hv : t.Holds (.node id content parts))
    (hs : src.Holds (.node sid theirs others))
    (h : t.assessCopyWithin src (d + 1) id sid = .ok ()) :
    content.variant = theirs.variant ∧
      assessGenes (t.assessCopyWithin src d) content.name content.gene theirs.gene = .ok () := by
  have hnode : t.node id = .ok content := node_of_get? hv.get?_node
  have hnode' : src.node sid = .ok theirs := node_of_get? hs.get?_node
  rw [assessCopyWithin, hnode, hnode'] at h
  change (if _ then _ else assessGenes _ _ _ _) = _ at h
  split at h
  · cases h
  · next hvariant => exact ⟨not_not.mp hvariant, h⟩

/-- What follows for the genes of two nodes if one can be copied to the other. -/
structure Fits (check : NodeId → NodeId → Except GeneError Unit) (mine theirs : Gene) : Prop where
  collection : mine.isCollection = true → (theirs.owned.drop 1).length ≤ mine.capacity
  length : mine.isCollection = false → mine.owned.length = theirs.owned.length
  pairs : mine.isCollection = false → copyPairs mine theirs = mine.owned.zip theirs.owned
  below : ∀ r ∈ copyPairs mine theirs, check r.1 r.2 = .ok ()

theorem fits_of_assessGenes {check : NodeId → NodeId → Except GeneError Unit} {name : String}
    {mine theirs : Gene} (hv : mine.variant = theirs.variant)
    (h : assessGenes check name mine theirs = .ok ()) : Fits check mine theirs := by
  -- genes of different variants are out of the question
  cases Gene.kindred_of_variant hv
  case object xs refType ys refType' =>
    rw [assessGenes] at h
    split at h
    · cases h
    · next hlen =>
      exact ⟨nofun, fun _ => not_not.mp hlen, fun _ => rfl, ok_of_checkPairs h⟩
  case array | map =>
    simp only [assessGenes, checkMembers] at h
    split at h
    · cases h
    · next hlen =>
      exact ⟨fun _ => not_lt.mp hlen, nofun, nofun, nofun⟩
  case optional | primaryKey | base64 =>
    refine ⟨nofun, fun _ => rfl, fun _ => rfl, fun r hr => ?_⟩
    rw [List.mem_singleton.mp hr]
    exact h
  all_goals exact ⟨nofun, fun _ => rfl, fun _ => rfl, nofun⟩

end GeneTree

open GeneTree

theorem GeneTree.setGene_self {t : GeneTree} {id : NodeId} {content : GeneNode}
    (hid : t.get? id = some content) : t.setGene id content.gene = t := by
  rw [setGene, modify, hid]
  have hslot : t.slots[id.index]? = some (some content) := by
    rw [get?, Option.join_eq_some_iff] at hid
    exact hid
  have hslots : t.slots.setIfInBounds id.index (some content) = t.slots := by
    refine Array.ext_getElem? fun i => ?_
    rw [Array.getElem?_setIfInBounds]
    by_cases hi : id.index = i
    · subst hi
      rw [if_pos rfl, if_pos (lt_size_of_get? hid), hslot]
    · rw [if_neg hi]
  change { t with slots := t.slots.setIfInBounds id.index (some content) } = t
  rw [hslots]

namespace Edit

variable {t src : GeneTree} {id : NodeId} {content : GeneNode}

theorem ensures_transplants {members : List GeneTerm} (ht : t.FreeExact)
    (hmembers : ∀ v ∈ members, src.Holds v ∧ ∃ p, v.content.parent = some p) (owner : NodeId) :
    Ensures ((members.map GeneTerm.id).mapM fun e => transplant src e (some owner)) t fun r u =>
      ∃ ws, r = .ok (ws.map GeneTerm.id) ∧ ws.map erase = members.map erase ∧
        AddsAll t u owner ws := by
  induction members generalizing t with
  | nil => exact Ensures.pure ⟨[], rfl, rfl, .nil ht owner⟩
  | cons v members ih =>
    obtain ⟨hv, p, hp⟩ := hmembers v (by simp)
    rw [List.map_cons, List.mapM_cons]
    refine Ensures.bind_ok (P := fun a u => ∃ w, a = w.id ∧ w.erase = v.erase ∧ Adds t u owner w)
      ((ensures_transplant ht hv owner).mono ?_) ?_
    · rintro r u ⟨w, f, rfl, he, hw⟩
      refine ⟨w.id, rfl, w, rfl, ?_, hw⟩
      have hparent : (v.rename f).content.parent = some (f p) := by
        rw [content_rename, GeneNode.rename, hp]
        rfl
      rw [he, erase_withParent hparent, erase_rename]
    · rintro a u ⟨w, rfl, herase, hw⟩
      refine Ensures.bind_ok (P := fun as s => ∃ ws, as = ws.map GeneTerm.id ∧
        ws.map erase = members.map erase ∧ AddsAll u s owner ws) ?_ ?_
      · refine (ih hw.frame.exact fun v hv => hmembers v (List.mem_cons_of_mem _ hv)).mono ?_
        rintro r s ⟨ws, rfl, hws⟩
        exact ⟨_, rfl, ws, rfl, hws⟩
      · rintro as s ⟨ws, rfl, herases, hws⟩
        exact Ensures.pure ⟨w :: ws, rfl, by simp [herase, herases], hw.cons hws⟩

theorem ensures_replaceMembers {template : GeneTerm} {old new : List GeneTerm} (ht : t.FreeExact)
    (hv : t.Holds (.node id content (template :: old))) (hc : content.gene.isCollection = true)
    (hnew : ∀ v ∈ new, src.Holds v ∧ ∃ p, v.content.parent = some p)
    (hsize : new.length ≤ content.gene.capacity) :
    Ensures (replaceMembers id (old.map GeneTerm.id) src (new.map GeneTerm.id)) t fun r u =>
      r = .ok () ∧ ∃ ws, ws.map erase = new.map erase ∧
        Refills t (.node id content (template :: old)) u
          (.node id { content with gene := content.gene.withMembers (ws.map GeneTerm.id) }
            (template :: ws)) := by
  have hold : id ∉ footprints old := fun hx =>
    id_notMem_allIds hv.distinct (List.mem_append_right _ hx)
  refine Ensures.bind_ok (P := fun _ u => Frame t u (footprints old) ∅)
    ((ensures_releaseAll ht hv.parts.tail).mono ?_) ?_
  · rintro r u ⟨rfl, hu⟩
    exact ⟨(), rfl, hu⟩
  rintro - u hu
  refine Ensures.bind_ok (P := fun items s => ∃ ws, items = ws.map GeneTerm.id ∧
    ws.map erase = new.map erase ∧ AddsAll u s id ws) ((ensures_transplants hu.exact hnew id).mono ?_) ?_
  · rintro r s ⟨ws, rfl, hws⟩
    exact ⟨_, rfl, ws, rfl, hws⟩
  rintro items s ⟨ws, rfl, herase, hws⟩
  have hframe := hu.chain hws.frame
  have hlen : ws.length = new.length := by simpa using congrArg List.length herase
  refine (ensures_setMembers_ok (hframe.get?_eq hv.get?_node hold) hc ?_).mono ?_
  · rw [List.length_map, hlen]
    exact hsize
  · rintro r w ⟨rfl, rfl⟩
    exact ⟨rfl, ws, herase, Refills.exchange hv hc hframe hws.holds hws.owner⟩

/-- A step that lays the value of a held term over another one, wherever the assessment has allowed it. -/
def Overlays (src : GeneTree) (d : Nat) (step : NodeId → NodeId → Edit Unit) : Prop :=
  ∀ (t : GeneTree) (v s : GeneTerm), t.FreeExact → t.Holds v → src.Holds s →
    t.assessCopyWithin src d v.id s.id = .ok () →
      Ensures (step v.id s.id) t fun r u => r = .ok () ∧
        ∃ w, w.erase = (overlay v s).erase ∧ Refills t v u w

theorem Overlays.copyEach_parts {d : Nat} {step : NodeId → NodeId → Edit Unit}
    (hstep : Overlays src d step) (pre : List GeneTerm) {rest others : List GeneTerm}
    (ht : t.FreeExact) (hv : t.Holds (.node id content (pre ++ rest)))
    (hs : ∀ s ∈ others, src.Holds s) (hlen : rest.length = others.length)
    (hassess : ∀ r ∈ (rest.map GeneTerm.id).zip (others.map GeneTerm.id),
      t.assessCopyWithin src d r.1 r.2 = .ok ())
    (hc : content.gene.isCollection = false) :
    Ensures (copyEach step ((rest.map GeneTerm.id).zip (others.map GeneTerm.id))) t fun r u =>
      r = .ok () ∧ ∃ rest', rest'.map erase = (overlayAll rest others).map erase ∧
        Refills t (.node id content (pre ++ rest)) u (.node id content (pre ++ rest')) := by
  induction rest generalizing pre others t with
  | nil => exact Ensures.pure ⟨rfl, [], rfl, .refl ht hv⟩
  | cons p rest ih =>
    cases others with
    | nil => cases hlen
    | cons s others =>
      have hp := hv.parts.each p (by simp)
      refine Ensures.bind_ok (P := fun _ u => ∃ q, q.erase = (overlay p s).erase ∧ Refills t p u q)
        ((hstep t p s ht hp (hs s (by simp)) (hassess (p.id, s.id) (by simp))).mono ?_) ?_
      · rintro r u ⟨rfl, hq⟩
        exact ⟨(), rfl, hq⟩
      · rintro - u ⟨q, herase, hq⟩
        have hpart := hq.part hv fun h => by simp [hc] at h
        have hu := hpart.holds
        -- what has been assessed before holds in the tree with the part written, too
        have hrest : ∀ r ∈ (rest.map GeneTerm.id).zip (others.map GeneTerm.id),
            u.assessCopyWithin src d r.1 r.2 = .ok () := by
          intro r hr
          obtain ⟨x, hx, hxr⟩ := List.mem_map.mp (List.of_mem_zip hr).1
          have hxt := hv.parts.each x (by simp [hx])
          have hxu := hu.parts.each x (by simp [hx])
          rw [← hxr, assessCopyWithin_congr hxu hxt, hxr]
          exact hassess r (List.mem_cons_of_mem _ hr)
        rw [← List.singleton_append, ← List.append_assoc] at hu
        refine (ih _ hq.frame.exact hu (fun s hs' => hs s (List.mem_cons_of_mem _ hs'))
          (Nat.succ.inj hlen) hrest).mono ?_
        rintro r w ⟨rfl, rest', herases, hw⟩
        rw [List.append_assoc, List.append_assoc] at hw
        refine ⟨rfl, q :: rest', ?_, hpart.trans hw⟩
        rw [overlayAll, List.map_cons, List.map_cons, herase, herases]

theorem erase_overlay_members {sid : NodeId} {theirs : GeneNode} {template q : GeneTerm}
    {old new ws : List GeneTerm} (hc : content.gene.isCollection = true)
    (h : ws.map erase = new.map erase) :
    (GeneTerm.node id { content with gene := content.gene.withMembers (ws.map GeneTerm.id) }
      (template :: ws)).erase =
        (overlay (.node id content (template :: old)) (.node sid theirs (q :: new))).erase := by
  have hlen : (ws.map GeneTerm.id).length = (new.map GeneTerm.id).length := by
    simpa using congrArg List.length h
  rw [overlay, if_pos hc, erase_node, erase_node]
  change _ = GeneTerm.node _ _ ((template :: new).map erase)
  rw [List.map_cons, List.map_cons, h]
  simp only [GeneNode.rename, List.drop_one, List.tail_cons, Gene.rename_withMembers hlen]

theorem overlays_writeCopyWithin (src : GeneTree) (d : Nat) :
    Overlays src d (writeCopyWithin src d) := by
  induction d with
  | zero =>
    intro t v s _ _ _ h
    cases h
  | succ d ih =>
    rintro t ⟨id, content, parts⟩ ⟨sid, theirs, others⟩ ht hv hs h
    have hshaped := hv.shaped
    have hshaped' := hs.shaped
    rw [Shaped] at hshaped hshaped'
    have hgene : t.gene id = .ok content.gene := gene_of_get? hv.get?_node
    have hgene' : src.gene sid = .ok theirs.gene := gene_of_get? hs.get?_node
    obtain ⟨hvariant, hassess⟩ := assessed_node hv hs h
    have hfits := fits_of_assessGenes hvariant hassess
    refine ensures_query_bind hgene' (ensures_query_bind hgene ?_)
    refine Ensures.bind_ok (P := fun _ u => u = t.setGene id (takeValue content.gene theirs.gene))
      (ensures_update ⟨(), rfl, rfl⟩) ?_
    rintro - u rfl
    -- a collection gets copies of all members, any other gene is copied to part by part
    by_cases hc : content.gene.isCollection = true
    · rw [takeValue_collection hc, setGene_self hv.get?_node]
      have hmembers : ∀ template q old new, parts = template :: old → others = q :: new →
          Ensures (replaceMembers id (old.map GeneTerm.id) src (new.map GeneTerm.id)) t fun r u =>
            r = .ok () ∧ ∃ w, w.erase =
              (overlay (.node id content parts) (.node sid theirs others)).erase ∧
                Refills t (.node id content parts) u w := by
        rintro template q old new rfl rfl
        have hnew : new.length ≤ content.gene.capacity := by
          have hsize := hfits.collection hc
          rwa [← hshaped'.1, List.map_cons, List.drop_one, List.tail_cons, List.length_map] at hsize
        refine (ensures_replaceMembers ht hv hc (fun v hv => ?_) hnew).mono ?_
        · have hv' := List.mem_cons_of_mem q hv
          exact ⟨hs.parts.each v hv', sid, (hshaped'.2 v hv').1⟩
        · rintro r u ⟨rfl, ws, herase, hws⟩
          exact ⟨rfl, _, erase_overlay_members hc herase, hws⟩
      obtain ⟨name, gene, parent⟩ := content
      obtain ⟨name', gene', parent'⟩ := theirs
      cases gene
      case array | map =>
        cases gene' <;> simp only [GeneNode.variant, Gene.variant, reduceCtorEq] at hvariant
        obtain ⟨p, old, rfl, rfl, rfl⟩ := List.map_eq_cons_iff.mp hshaped.1
        obtain ⟨q, new, rfl, rfl, rfl⟩ := List.map_eq_cons_iff.mp hshaped'.1
        exact hmembers p q old new rfl rfl
      all_goals cases hc
    · rw [Bool.not_eq_true] at hc
      have hset := Refills.setGene ht hv (blank_takeValue content.gene theirs.gene) hc
      have hpairs : copyPairs content.gene theirs.gene =
          (parts.map GeneTerm.id).zip (others.map GeneTerm.id) := by
        rw [hfits.pairs hc, hshaped.1, hshaped'.1]
      have hlen : parts.length = others.length := by
        have hlen := hfits.length hc
        rwa [← hshaped.1, ← hshaped'.1, List.length_map, List.length_map] at hlen
      have hbelow : ∀ r ∈ (parts.map GeneTerm.id).zip (others.map GeneTerm.id),
          (t.setGene id (takeValue content.gene theirs.gene)).assessCopyWithin src d r.1 r.2 =
            .ok () := by
        intro r hr
        obtain ⟨x, hx, hxr⟩ := List.mem_map.mp (List.of_mem_zip hr).1
        rw [← hxr, assessCopyWithin_congr (hset.holds.parts.each x hx) (hv.parts.each x hx), hxr]
        exact hfits.below r (hpairs ▸ hr)
      have hc' : (takeValue content.gene theirs.gene).isCollection = false := by
        rw [← Gene.isCollection_blank, blank_takeValue, Gene.isCollection_blank, hc]
      have hcopy := ih.copyEach_parts [] hset.frame.exact hset.holds hs.parts.each hlen hbelow hc'
      split
      · next hgene _ => simp [hgene, Gene.isCollection] at hc
      · next hgene _ => simp [hgene, Gene.isCollection] at hc
      rw [hpairs]
      refine hcopy.mono ?_
      rintro r u ⟨rfl, parts', herase, hu⟩
      refine ⟨rfl, _, ?_, hset.trans hu⟩
      rw [overlay, if_neg (by simp [hc]), erase_node, erase_node, List.nil_append, herase]

/-- A copy that is refused changes nothing. -/
theorem ensures_copyFrom_error {srcId : NodeId} {e : GeneError}
    (h : t.assessCopy id src srcId = .error e) :
    Ensures (copyFrom id src srcId) t fun r u => r = .error e ∧ u = t := by
  refine Ensures.bind (P := fun r u => r = .error e ∧ u = t) (ensures_query ⟨h, rfl⟩) ?_ ?_
  · rintro a u ⟨he, -⟩
    cases he
  · rintro e' u ⟨he, hu⟩
    cases he
    exact ⟨rfl, hu⟩

theorem ensures_copyFrom {v s : GeneTerm} (ht : t.FreeExact) (hv : t.Holds v) (hs : src.Holds s)
    (h : t.assessCopy v.id src s.id = .ok ()) :
    Ensures (copyFrom v.id src s.id) t fun r u => r = .ok () ∧
      ∃ w, w.erase = (overlay v s).erase ∧ Refills t v u w :=
  ensures_query_bind h (Ensures.get_bind (overlays_writeCopyWithin src _ t v s ht hv hs h))

end Edit
end CallEvolution
