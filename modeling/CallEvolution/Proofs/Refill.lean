import CallEvolution.Proofs.Frame

/-! Terms that give way to others. A change of a part is a change of the whole, wherever the part
stands. -/

namespace CallEvolution

namespace Gene

theorem isCollection_blank (g : Gene) : g.blank.isCollection = g.isCollection := by
  cases g <;> rfl

theorem owned_blank {g : Gene} (h : g.isCollection = false) : g.blank.owned = g.owned := by
  cases g <;> first | rfl | cases h

theorem owned_blank_collection {g : Gene} (h : g.isCollection = true) :
    g.blank.owned = g.owned.take 1 := by
  cases g <;> first | rfl | cases h

theorem owned_eq_of_blank_eq {g k : Gene} (h : g.blank = k.blank) (hk : k.isCollection = false) :
    g.owned = k.owned := by
  have hg : g.isCollection = false := by rw [← isCollection_blank, h, isCollection_blank, hk]
  rw [← owned_blank hg, h, owned_blank hk]

end Gene

namespace GeneTerm

/-- The nodes that are neither members nor templates of a collection, nor below one. -/
def fixed : GeneTerm → List NodeId
  | node id content parts => id :: if content.gene.isCollection then [] else parts.flatMap fixed

theorem head_mould (v : GeneTerm) : v.mould.head? = some (v.id, v.content.blank) := by
  obtain ⟨id, content, parts⟩ := v
  simp only [mould, List.head?_cons]
  rfl

theorem id_eq_of_mould_eq {v w : GeneTerm} (h : w.mould = v.mould) : w.id = v.id := by
  have hh := congrArg List.head? h
  rw [head_mould, head_mould, Option.some.injEq, Prod.mk.injEq] at hh
  exact hh.1

theorem blank_eq_of_mould_eq {v w : GeneTerm} (h : w.mould = v.mould) :
    w.content.blank = v.content.blank := by
  have hh := congrArg List.head? h
  rw [head_mould, head_mould, Option.some.injEq, Prod.mk.injEq] at hh
  exact hh.2

theorem parent_eq_of_mould_eq {v w : GeneTerm} (h : w.mould = v.mould) :
    w.content.parent = v.content.parent := by
  have hb := congrArg GeneNode.parent (blank_eq_of_mould_eq h)
  exact hb

theorem id_mem_fixed (v : GeneTerm) : v.id ∈ v.fixed := by
  obtain ⟨id, content, parts⟩ := v
  rw [fixed]
  exact List.mem_cons_self

theorem mem_ids_of_mem_fixed {v : GeneTerm} {x : NodeId} (h : x ∈ v.fixed) : x ∈ v.ids := by
  induction v using induct with
  | node id content parts ih =>
    rw [fixed, List.mem_cons] at h
    rw [ids_node, List.mem_cons, List.mem_flatMap]
    rcases h with h | h
    · exact .inl h
    · split at h
      · cases h
      · obtain ⟨v, hv, hx⟩ := List.mem_flatMap.mp h
        exact .inr ⟨v, hv, ih v hv hx⟩

theorem mem_fixed_node {id : NodeId} {content : GeneNode} {parts : List GeneTerm} {x : NodeId}
    (hx : x ≠ id) : x ∈ (node id content parts).fixed ↔
      content.gene.isCollection = false ∧ ∃ v ∈ parts, x ∈ v.fixed := by
  by_cases hc : content.gene.isCollection = true <;> simp [fixed, hx, hc]

theorem mould_replace {id : NodeId} {content : GeneNode} {pre post : List GeneTerm} {v w : GeneTerm}
    (h : w.mould = v.mould) (hpre : content.gene.isCollection = true → pre ≠ []) :
    (node id content (pre ++ w :: post)).mould = (node id content (pre ++ v :: post)).mould := by
  simp only [mould]
  by_cases hc : content.gene.isCollection = true
  · obtain ⟨p, pre, rfl⟩ := List.exists_cons_of_ne_nil (hpre hc)
    simp [hc]
  · simp [hc, h]

theorem allIds_append (vs ws : List GeneTerm) : allIds (vs ++ ws) = allIds vs ++ allIds ws :=
  List.flatMap_append

theorem allIds_cons (v : GeneTerm) (vs : List GeneTerm) : allIds (v :: vs) = v.ids ++ allIds vs := rfl

end GeneTerm

open GeneTerm

namespace GeneTree

/-- The term `v` of a tree has given way to `w`, and nothing else has changed. -/
structure Becomes (t : GeneTree) (v : GeneTerm) (u : GeneTree) (w : GeneTerm) : Prop where
  frame : Frame t u v.footprint w.footprint
  holds : u.Holds w
  id : w.id = v.id
  parent : w.content.parent = v.content.parent

/-- A term has given way to one of the same mould. -/
structure Refills (t : GeneTree) (v : GeneTerm) (u : GeneTree) (w : GeneTerm) : Prop where
  frame : Frame t u v.footprint w.footprint
  holds : u.Holds w
  mould : w.mould = v.mould

variable {t u s : GeneTree} {v w x : GeneTerm} {id : NodeId} {content : GeneNode}

theorem HoldsAll.replace {pre post : List GeneTerm} (hv : t.HoldsAll (pre ++ v :: post))
    (hframe : Frame t u v.footprint w.footprint) (hw : u.Holds w) :
    u.HoldsAll (pre ++ w :: post) where
  each p hp := by
    have hnd := hv.distinct
    rw [allIds_append, allIds_cons, List.nodup_append] at hnd
    have hdis : ∀ q, q ∈ pre ∨ q ∈ post → Disjoint q.footprint v.footprint := by
      intro q hq
      refine Set.disjoint_left.mpr fun y hy hyv => ?_
      rcases hq with hq | hq
      · exact hnd.2.2 y (mem_allIds.mpr ⟨q, hq, hy⟩) y (List.mem_append_left _ hyv) rfl
      · exact (List.nodup_append.mp hnd.2.1).2.2 y hyv y (mem_allIds.mpr ⟨q, hq, hy⟩) rfl
    rcases List.mem_append.mp hp with hp | hp
    · exact hframe.holds (hv.each p (List.mem_append_left _ hp)) (hdis p (.inl hp))
    · rcases List.mem_cons.mp hp with rfl | hp
      · exact hw
      · refine hframe.holds (hv.each p ?_) (hdis p (.inr hp))
        exact List.mem_append_right _ (List.mem_cons_of_mem _ hp)
  distinct := by
    have hnd := hv.distinct
    rw [allIds_append, allIds_cons] at hnd ⊢
    have hold := List.nodup_append.mp hnd
    have hrest := List.nodup_append.mp hold.2.1
    -- what comes is apart from every node that has been there
    have hnew : ∀ p ∈ pre ++ v :: post, ∀ y ∈ p.ids, y ∉ v.ids → y ∉ w.ids := by
      intro p hp y hy hyv
      obtain ⟨n, -, hn⟩ := (hv.each p hp).get?_of_mem hy
      exact hframe.notMem_new hn hyv
    refine List.nodup_append.mpr ⟨hold.1, List.nodup_append.mpr ⟨hw.distinct, hrest.2.1, ?_⟩, ?_⟩
    · rintro y hy z hz rfl
      obtain ⟨p, hp, hyp⟩ := mem_allIds.mp hz
      refine hnew p ?_ y hyp (fun hyv => hrest.2.2 y hyv y hz rfl) hy
      exact List.mem_append_right _ (List.mem_cons_of_mem _ hp)
    · rintro y hy z hz rfl
      obtain ⟨p, hp, hyp⟩ := mem_allIds.mp hy
      rcases List.mem_append.mp hz with hz | hz
      · refine hnew p (List.mem_append_left _ hp) y hyp ?_ hz
        exact fun hyv => hold.2.2 y hy y (List.mem_append_left _ hyv) rfl
      · exact hold.2.2 y hy y (List.mem_append_right _ hz) rfl

/-- A node none of whose parts but one has changed. -/
theorem Becomes.part {pre post : List GeneTerm} (h : Becomes t v u w)
    (hv : t.Holds (.node id content (pre ++ v :: post))) :
    Becomes t (.node id content (pre ++ v :: post)) u (.node id content (pre ++ w :: post)) := by
  have hid : t.get? id = some content := hv.get?_id
  have hnot := id_notMem_allIds hv.distinct
  have hidv : id ∉ v.footprint := fun hx => hnot (mem_allIds.mpr ⟨v, by simp, hx⟩)
  have hshaped := hv.shaped
  rw [Shaped] at hshaped
  refine ⟨?_, ?_, rfl, rfl⟩
  · have hold : (GeneTerm.node id content (pre ++ v :: post)).footprint =
        v.footprint ∪ ({id} ∪ footprints pre ∪ footprints post) := by
      rw [footprint_node, footprints_append, footprints_cons]
      ac_rfl
    have hnew : (GeneTerm.node id content (pre ++ w :: post)).footprint =
        w.footprint ∪ ({id} ∪ footprints pre ∪ footprints post) := by
      rw [footprint_node, footprints_append, footprints_cons]
      ac_rfl
    rw [hold, hnew]
    exact h.frame.widen _
  · refine Holds.node (h.frame.get?_eq hid hidv) (hv.parts.replace h.frame h.holds) ?_ ?_ ?_
    · simpa [h.id] using hshaped.1
    · intro p hp
      rcases List.mem_append.mp hp with hp | hp
      · exact (hshaped.2 p (List.mem_append_left _ hp)).1
      · rcases List.mem_cons.mp hp with rfl | hp
        · rw [h.parent]
          exact (hshaped.2 v (by simp)).1
        · exact (hshaped.2 p (List.mem_append_right _ (List.mem_cons_of_mem _ hp))).1
    · intro hx
      rw [allIds_append, allIds_cons, List.mem_append, List.mem_append] at hnot hx
      rcases hx with hx | hx | hx
      · exact hnot (.inl hx)
      · exact h.frame.notMem_new hid hidv hx
      · exact hnot (.inr (.inr hx))

/-- A node with another gene that owns the same nodes. -/
theorem Becomes.setGene {parts : List GeneTerm} {g : Gene} (ht : t.FreeExact)
    (hv : t.Holds (.node id content parts)) (hg : g.owned = content.gene.owned) :
    Becomes t (.node id content parts) (t.setGene id g) (.node id { content with gene := g } parts) := by
  have hid : t.get? id = some content := hv.get?_id
  have hnot := id_notMem_allIds hv.distinct
  have hframe := frame_setGene ht hid g
  have hshaped := hv.shaped
  rw [Shaped] at hshaped
  refine ⟨?_, ?_, rfl, rfl⟩
  · rw [footprint_node, footprint_node]
    exact hframe.widen _
  · refine Holds.node (get?_setGene hid g) (hframe.holdsAll hv.parts ?_) ?_ (fun p hp => ?_) hnot
    · rw [Set.disjoint_singleton_right]
      exact hnot
    · rw [hshaped.1, hg]
    · exact (hshaped.2 p hp).1

namespace Refills

theorem becomes (h : Refills t v u w) : Becomes t v u w :=
  ⟨h.frame, h.holds, id_eq_of_mould_eq h.mould, parent_eq_of_mould_eq h.mould⟩

theorem same_id (h : Refills t v u w) : w.id = v.id := id_eq_of_mould_eq h.mould

theorem refl (ht : t.FreeExact) (hv : t.Holds v) : Refills t v t v := ⟨.refl ht _, hv, rfl⟩

theorem trans (h : Refills t v u w) (k : Refills u w s x) : Refills t v s x :=
  ⟨h.frame.chain k.frame, k.holds, k.mould.trans h.mould⟩

/-- A node none of whose parts but one, no template, has changed. -/
theorem part {pre post : List GeneTerm} (h : Refills t v u w)
    (hv : t.Holds (.node id content (pre ++ v :: post)))
    (hpre : content.gene.isCollection = true → pre ≠ []) :
    Refills t (.node id content (pre ++ v :: post)) u (.node id content (pre ++ w :: post)) :=
  have hb := h.becomes.part hv
  ⟨hb.frame, hb.holds, mould_replace h.mould hpre⟩

/-- A node with another value of its own. -/
theorem setGene {parts : List GeneTerm} {g : Gene} (ht : t.FreeExact)
    (hv : t.Holds (.node id content parts)) (hg : g.blank = content.gene.blank)
    (hc : content.gene.isCollection = false) :
    Refills t (.node id content parts) (t.setGene id g) (.node id { content with gene := g } parts) := by
  have hb := Becomes.setGene ht hv (Gene.owned_eq_of_blank_eq hg hc)
  refine ⟨hb.frame, hb.holds, ?_⟩
  have hgc : g.isCollection = false := by
    rw [← Gene.isCollection_blank, hg, Gene.isCollection_blank, hc]
  simp [GeneTerm.mould, GeneNode.blank, hg, hc, hgc]

/-- A collection with other members. -/
theorem members {template : GeneTerm} {old new : List GeneTerm} {g : Gene}
    (hv : t.Holds (.node id content (template :: old)))
    (hframe : Frame t u ({id} ∪ footprints old) ({id} ∪ footprints new))
    (hid : u.get? id = some { content with gene := g }) (hnew : u.HoldsAll new)
    (hparent : ∀ p ∈ new, p.content.parent = some id) (hnot : id ∉ allIds new)
    (howned : g.owned = template.id :: new.map GeneTerm.id) (hg : g.blank = content.gene.blank)
    (hc : content.gene.isCollection = true) :
    Refills t (.node id content (template :: old)) u
      (.node id { content with gene := g } (template :: new)) := by
  have hshaped := hv.shaped
  rw [Shaped] at hshaped
  have hidt : id ∉ template.ids ++ allIds old := id_notMem_allIds hv.distinct
  rw [List.mem_append, not_or] at hidt
  have htemplate : Disjoint template.footprint ({id} ∪ footprints old) := by
    rw [Set.disjoint_union_right, Set.disjoint_singleton_right]
    exact ⟨hidt.1, Set.disjoint_left.mpr fun y hy => hv.parts.disjoint hy⟩
  refine ⟨?_, ?_, ?_⟩
  · have hswap : ∀ A B C : Set NodeId, A ∪ (B ∪ C) = A ∪ C ∪ B := by
      intro A B C
      ac_rfl
    rw [footprint_node, footprint_node, footprints_cons, footprints_cons, hswap, hswap]
    exact hframe.widen _
  · refine Holds.node hid (HoldsAll.cons (hframe.holds hv.parts.head htemplate) hnew ?_) ?_ ?_ ?_
    · intro y hy hyn
      exact Set.disjoint_left.mp (hframe.disjoint_new hv.parts.head htemplate) hy (.inr hyn)
    · rw [howned, List.map_cons]
    · intro p hp
      rcases List.mem_cons.mp hp with rfl | hp
      · exact (hshaped.2 p (by simp)).1
      · exact hparent p hp
    · rw [allIds_cons, List.mem_append, not_or]
      exact ⟨hidt.1, hnot⟩
  · have hgc : g.isCollection = true := by
      rw [← Gene.isCollection_blank, hg, Gene.isCollection_blank, hc]
    simp [GeneTerm.mould, GeneNode.blank, hg, hc, hgc]

end Refills

/-- A node with a hole among its parts. -/
structure Hole where
  id : NodeId
  content : GeneNode
  before : List GeneTerm
  after : List GeneTerm

/-- A term in a row of holes, the outermost one first. -/
def plug : List Hole → GeneTerm → GeneTerm
  | [], v => v
  | h :: hs, v => .node h.id h.content (h.before ++ plug hs v :: h.after)

/-- Every node of a term heads a part of it. -/
theorem exists_plug {y : NodeId} (hy : y ∈ v.ids) :
    ∃ hs p, v = plug hs p ∧ p.id = y ∧
      (y ∈ v.fixed → ∀ h ∈ hs, h.content.gene.isCollection = false) := by
  induction v using induct with
  | node id content parts ih =>
    rw [ids_node, List.mem_cons, List.mem_flatMap] at hy
    by_cases hyid : y = id
    · exact ⟨[], .node id content parts, rfl, hyid.symm, fun _ => List.forall_mem_nil _⟩
    · have hpart : ∃ c ∈ parts, y ∈ c.ids ∧ (y ∈ (GeneTerm.node id content parts).fixed →
          content.gene.isCollection = false ∧ y ∈ c.fixed) := by
        by_cases hfixed : y ∈ (GeneTerm.node id content parts).fixed
        · obtain ⟨hcoll, c, hc, hyc⟩ := (mem_fixed_node hyid).mp hfixed
          exact ⟨c, hc, mem_ids_of_mem_fixed hyc, fun _ => ⟨hcoll, hyc⟩⟩
        · obtain ⟨c, hc, hyc⟩ := hy.resolve_left hyid
          exact ⟨c, hc, hyc, fun h => absurd h hfixed⟩
      obtain ⟨c, hc, hyc, hfix⟩ := hpart
      obtain ⟨hs, p, rfl, hpy, hplain⟩ := ih c hc hyc
      obtain ⟨pre, post, rfl⟩ := List.append_of_mem hc
      refine ⟨⟨id, content, pre, post⟩ :: hs, p, rfl, hpy, fun hfixed => ?_⟩
      obtain ⟨hcoll, hyc⟩ := hfix hfixed
      exact List.forall_mem_cons.mpr ⟨hcoll, hplain hyc⟩

theorem Holds.of_plug {hs : List Hole} (h : t.Holds (plug hs v)) : t.Holds v := by
  induction hs with
  | nil => exact h
  | cons _ hs ih => exact ih (h.parts.each _ (by simp))

theorem Becomes.plug {hs : List Hole} (h : Becomes t v u w) (hv : t.Holds (plug hs v)) :
    Becomes t (plug hs v) u (plug hs w) := by
  induction hs with
  | nil => exact h
  | cons _ hs ih => exact (ih (hv.parts.each _ (by simp))).part hv

theorem Refills.plug {hs : List Hole} (h : Refills t v u w) (hv : t.Holds (plug hs v))
    (hplain : ∀ h ∈ hs, h.content.gene.isCollection = false) :
    Refills t (plug hs v) u (plug hs w) := by
  induction hs with
  | nil => exact h
  | cons hole hs ih =>
    obtain ⟨hcoll, hplain⟩ := List.forall_mem_cons.mp hplain
    exact (ih (hv.parts.each _ (by simp)) hplain).part hv fun h => by simp [hcoll] at h

/-- A tree that consists of a term below its root and of freed slots. -/
structure Unfolds (t : GeneTree) (v : GeneTerm) : Prop where
  holds : t.Holds v
  root : v.id = t.root
  orphan : v.content.parent = none
  full : ∀ x, t.contains x = true → x ∈ v.ids
  exact : t.FreeExact

theorem Unfolds.becomes (h : t.Unfolds v) (hw : Becomes t v u w) : u.Unfolds w where
  holds := hw.holds
  root := by rw [hw.id, hw.frame.root, h.root]
  orphan := by rw [hw.parent, h.orphan]
  full x hx := by
    refine by_contra fun hxw => ?_
    by_cases hxv : x ∈ v.ids
    · simp [contains, hw.frame.gone x hxv hxw] at hx
    · rw [contains, hw.frame.same x hxv hxw] at hx
      exact hxv (h.full x hx)
  exact := hw.frame.exact

end GeneTree
end CallEvolution
