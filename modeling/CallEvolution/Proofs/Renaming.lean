import CallEvolution.Proofs.Refill

/-! Terms under other ids. A copy in which every node stands under its new id, among neighbours with new
ids, is held as the renamed term. -/

namespace CallEvolution

open GeneTerm

theorem Gene.owned_rename (f : NodeId → NodeId) (g : Gene) :
    (g.rename f).owned = g.owned.map f := by
  cases g <;> simp [Gene.rename, Gene.owned, Gene.children]

theorem Gene.variant_rename (f : NodeId → NodeId) (g : Gene) : (g.rename f).variant = g.variant := by
  cases g <;> rfl

theorem Gene.rename_rename (f h : NodeId → NodeId) (g : Gene) :
    (g.rename f).rename h = g.rename (h ∘ f) := by
  cases g <;> simp [Gene.rename]

theorem GeneNode.rename_rename (f h : NodeId → NodeId) (n : GeneNode) :
    (n.rename f).rename h = n.rename (h ∘ f) := by
  simp [GeneNode.rename, Gene.rename_rename]

namespace GeneTerm

variable {f : NodeId → NodeId}

theorem flatMap_nodes_rename {vs : List GeneTerm}
    (h : ∀ v ∈ vs, (v.rename f).nodes = v.nodes.map fun e => (f e.1, e.2.rename f)) :
    (vs.map (rename f)).flatMap nodes = (vs.flatMap nodes).map fun e => (f e.1, e.2.rename f) := by
  rw [List.flatMap_map, List.map_flatMap]
  exact List.flatMap_congr h

theorem nodes_rename (f : NodeId → NodeId) (v : GeneTerm) :
    (v.rename f).nodes = v.nodes.map fun e => (f e.1, e.2.rename f) := by
  induction v using induct with
  | node id content parts ih =>
    simp only [rename, nodes, List.map_cons]
    rw [flatMap_nodes_rename ih]

theorem ids_rename (f : NodeId → NodeId) (v : GeneTerm) : (v.rename f).ids = v.ids.map f := by
  simp only [ids, nodes_rename, List.map_map]
  rfl

theorem id_rename (f : NodeId → NodeId) (v : GeneTerm) : (v.rename f).id = f v.id := by
  obtain ⟨id, content, parts⟩ := v
  simp [rename, GeneTerm.id]

theorem content_rename (f : NodeId → NodeId) (v : GeneTerm) :
    (v.rename f).content = v.content.rename f := by
  obtain ⟨id, content, parts⟩ := v
  simp only [rename]
  rfl

theorem height_rename (f : NodeId → NodeId) (v : GeneTerm) : (v.rename f).height = v.height := by
  induction v using induct with
  | node id content parts ih =>
    simp only [rename, height, List.map_map]
    have hmap : parts.map (height ∘ rename f) = parts.map height :=
      List.map_congr_left fun v hv => ih v hv
    rw [hmap]

theorem shaped_rename {v : GeneTerm} (h : v.Shaped) : (v.rename f).Shaped := by
  induction v using induct with
  | node id content parts ih =>
    rw [Shaped] at h
    rw [rename, Shaped]
    refine ⟨?_, fun w hw => ?_⟩
    · rw [List.map_map]
      have hmap : parts.map (GeneTerm.id ∘ rename f) = (parts.map GeneTerm.id).map f := by
        rw [List.map_map]
        exact List.map_congr_left fun v _ => id_rename f v
      rw [hmap, h.1, GeneNode.rename, Gene.owned_rename]
    · obtain ⟨v, hv, rfl⟩ := List.mem_map.mp hw
      refine ⟨?_, ih v hv (h.2 v hv).2⟩
      rw [content_rename, GeneNode.rename, (h.2 v hv).1]
      rfl

theorem rename_rename (f h : NodeId → NodeId) (v : GeneTerm) :
    (v.rename f).rename h = v.rename (h ∘ f) := by
  induction v using induct with
  | node id content parts ih =>
    simp only [rename, GeneNode.rename_rename, List.map_map]
    have hmap : parts.map (rename h ∘ rename f) = parts.map (rename (h ∘ f)) :=
      List.map_congr_left fun v hv => ih v hv
    rw [hmap]
    rfl

variable (p : Option NodeId)

theorem id_withParent (v : GeneTerm) : (v.withParent p).id = v.id := by
  obtain ⟨id, content, parts⟩ := v
  rfl

theorem content_withParent (v : GeneTerm) :
    (v.withParent p).content = { v.content with parent := p } := by
  obtain ⟨id, content, parts⟩ := v
  rfl

theorem ids_withParent (v : GeneTerm) : (v.withParent p).ids = v.ids := by
  obtain ⟨id, content, parts⟩ := v
  rw [withParent, ids_node, ids_node]

theorem rename_withParent (f : NodeId → NodeId) (v : GeneTerm) :
    (v.withParent p).rename f = (v.rename f).withParent (p.map f) := by
  obtain ⟨id, content, parts⟩ := v
  simp only [withParent, rename]
  rfl

theorem withParent_withParent (q : Option NodeId) (v : GeneTerm) :
    (v.withParent p).withParent q = v.withParent q := by
  obtain ⟨id, content, parts⟩ := v
  rfl

theorem footprint_withParent (v : GeneTerm) : (v.withParent p).footprint = v.footprint := by
  simp only [footprint, ids_withParent]

theorem height_withParent (v : GeneTerm) : (v.withParent p).height = v.height := by
  obtain ⟨id, content, parts⟩ := v
  rw [withParent, height, height]

theorem shaped_withParent {v : GeneTerm} (h : v.Shaped) : (v.withParent p).Shaped := by
  obtain ⟨id, content, parts⟩ := v
  rw [Shaped] at h
  rw [withParent, Shaped]
  exact h

end GeneTerm

namespace GeneTree

variable {t u : GeneTree} {v : GeneTerm} {f : NodeId → NodeId} {p : Option NodeId}

theorem Holds.rename (hv : t.Holds v) (hinj : ∀ x ∈ v.ids, ∀ y ∈ v.ids, f x = f y → x = y)
    (hroot : u.get? (f v.id) = some { v.content.rename f with parent := p })
    (hrest : ∀ e ∈ v.nodes, e.1 ≠ v.id → u.get? (f e.1) = some (e.2.rename f)) :
    u.Holds ((v.rename f).withParent p) where
  kept {e} he := by
    obtain ⟨id, content, parts⟩ := v
    rw [GeneTerm.rename, withParent, nodes, List.mem_cons,
      flatMap_nodes_rename fun v _ => nodes_rename f v] at he
    rcases he with rfl | he
    · exact hroot
    · obtain ⟨e, hep, rfl⟩ := List.mem_map.mp he
      obtain ⟨w, hw, hew⟩ := List.mem_flatMap.mp hep
      have hne : e.1 ≠ id := by
        intro hid
        have hmem := mem_allIds.mpr ⟨w, hw, mem_ids.mpr ⟨e.2, hew⟩⟩
        exact id_notMem_allIds hv.distinct (hid ▸ hmem)
      exact hrest e (mem_nodes_of_part hw hew) hne
  shaped := shaped_withParent p (shaped_rename hv.shaped)
  distinct := by
    rw [ids_withParent, ids_rename]
    exact List.Nodup.map_on hinj hv.distinct

end GeneTree
end CallEvolution
