import CallEvolution.Proofs.GeneTerm
import Mathlib.Data.Set.Lattice
import Mathlib.Order.CompletePartialOrder

/-! Changes of a tree that stay inside a footprint. Two changes in a row make one, and a change of some
parts of a term is a change of the term. -/

namespace CallEvolution

open GeneTerm

namespace GeneTerm

/-- The slots that a term takes up. -/
def footprint (v : GeneTerm) : Set NodeId := {x | x ∈ v.ids}

def footprints (vs : List GeneTerm) : Set NodeId := {x | x ∈ allIds vs}

theorem footprint_node (id : NodeId) (content : GeneNode) (parts : List GeneTerm) :
    (node id content parts).footprint = {id} ∪ footprints parts := by
  ext x
  simp [footprint, footprints, ids_node, allIds]

theorem footprints_nil : footprints [] = ∅ := by
  ext x
  simp [footprints, allIds]

theorem footprints_cons (v : GeneTerm) (vs : List GeneTerm) :
    footprints (v :: vs) = v.footprint ∪ footprints vs := by
  ext x
  simp [footprint, footprints, allIds]

theorem footprints_append (vs ws : List GeneTerm) :
    footprints (vs ++ ws) = footprints vs ∪ footprints ws := by
  ext x
  simp [footprints, allIds]

end GeneTerm

namespace GeneTree

/-- The empty slots are those on the list of freed ones, each once, and those that are `taken`. -/
structure FreeExcept (t : GeneTree) (taken : List NodeId) : Prop where
  distinct : (taken ++ t.free).Nodup
  empty : ∀ id, id ∈ taken ++ t.free ↔ id.index < t.slots.size ∧ t.get? id = none

/-- The list of freed slots holds exactly the empty ones, each once. -/
abbrev FreeExact (t : GeneTree) : Prop := t.FreeExcept []

/-- A tree `t` has become `u`: the nodes of `old` are gone, those of `new` have come, and all others stand
where they stood. -/
structure Frame (t u : GeneTree) (old new : Set NodeId) : Prop where
  root : u.root = t.root
  same : ∀ x, x ∉ old → x ∉ new → u.get? x = t.get? x
  gone : ∀ x ∈ old, x ∉ new → u.get? x = none
  fresh : ∀ x ∈ new, x ∉ old → t.get? x = none
  exact : u.FreeExact

namespace Frame

variable {t u w : GeneTree} {A B C D S : Set NodeId}

theorem refl (ht : t.FreeExact) (A : Set NodeId) : Frame t t A A where
  root := rfl
  same _ _ _ := rfl
  gone _ hx hn := absurd hx hn
  fresh _ hx hn := absurd hx hn
  exact := ht

theorem trans (h : Frame t u A B) (k : Frame u w C D) : Frame t w (A ∪ (C \ B)) ((B \ C) ∪ D) where
  root := k.root.trans h.root
  same x hold hnew := by
    simp only [Set.mem_union, Set.mem_sdiff, not_or, not_and, not_not] at hold hnew
    by_cases hC : x ∈ C
    · rw [k.gone x hC hnew.2, h.fresh x (hold.2 hC) hold.1]
    · have hB : x ∉ B := fun hB => hC (hnew.1 hB)
      rw [k.same x hC hnew.2, h.same x hold.1 hB]
  gone x hold hnew := by
    simp only [Set.mem_union, Set.mem_sdiff, not_or, not_and, not_not] at hold hnew
    by_cases hC : x ∈ C
    · exact k.gone x hC hnew.2
    · have hB : x ∉ B := fun hB => hC (hnew.1 hB)
      have hA : x ∈ A := hold.resolve_right fun hx => hC hx.1
      rw [k.same x hC hnew.2, h.gone x hA hB]
  fresh x hnew hold := by
    simp only [Set.mem_union, Set.mem_sdiff, not_or, not_and, not_not] at hold hnew
    by_cases hB : x ∈ B
    · exact h.fresh x hB hold.1
    · have hD : x ∈ D := hnew.resolve_left fun hx => hB hx.1
      have hC : x ∉ C := fun hC => hB (hold.2 hC)
      rw [← h.same x hold.1 hB, k.fresh x hD hC]
  exact := k.exact

/-- Slots that are left alone may be counted in. -/
theorem widen (h : Frame t u A B) (S : Set NodeId) : Frame t u (A ∪ S) (B ∪ S) where
  root := h.root
  same x hold hnew := h.same x (fun hx => hold (.inl hx)) fun hx => hnew (.inl hx)
  gone x hold hnew := h.gone x (hold.resolve_right fun hx => hnew (.inr hx)) fun hx => hnew (.inl hx)
  fresh x hnew hold := h.fresh x (hnew.resolve_right fun hx => hold (.inr hx)) fun hx => hold (.inl hx)
  exact := h.exact

/-- Two changes in a row, the second of what the first has left alone. -/
theorem both (h : Frame t u A B) (k : Frame u w C D) (hCB : Disjoint C B) :
    Frame t w (A ∪ C) (B ∪ D) := by
  have hk := h.trans k
  rwa [sdiff_eq_left.mpr hCB, sdiff_eq_left.mpr hCB.symm] at hk

/-- Two changes in a row, the second of what the first has made. -/
theorem chain (h : Frame t u A B) (k : Frame u w B C) : Frame t w A C := by
  have hk := h.trans k
  rwa [sdiff_self, Set.bot_eq_empty, Set.union_empty, Set.empty_union] at hk

/-- What was there before and is not given up is none of the new nodes. -/
theorem notMem_new (h : Frame t u A B) {x : NodeId} {n : GeneNode} (hx : t.get? x = some n)
    (hA : x ∉ A) : x ∉ B := by
  intro hB
  rw [h.fresh x hB hA] at hx
  cases hx

theorem get?_eq (h : Frame t u A B) {x : NodeId} {n : GeneNode} (hx : t.get? x = some n)
    (hA : x ∉ A) : u.get? x = some n := by
  rw [h.same x hA (h.notMem_new hx hA), hx]

theorem holds {v : GeneTerm} (h : Frame t u A B) (hv : t.Holds v) (hA : Disjoint v.footprint A) :
    u.Holds v := by
  refine hv.congr fun x hx => ?_
  obtain ⟨n, -, hn⟩ := hv.get?_of_mem hx
  rw [h.get?_eq hn (Set.disjoint_left.mp hA hx), hn]

theorem holdsAll {vs : List GeneTerm} (h : Frame t u A B) (hvs : t.HoldsAll vs)
    (hA : Disjoint (footprints vs) A) : u.HoldsAll vs where
  each v hv := h.holds (hvs.each v hv) <| hA.mono_left fun _ hx => mem_allIds.mpr ⟨v, hv, hx⟩
  distinct := hvs.distinct

/-- New nodes share no slot with a term that is held and not given up. -/
theorem disjoint_new {v : GeneTerm} (h : Frame t u A B) (hv : t.Holds v)
    (hA : Disjoint v.footprint A) : Disjoint v.footprint B := by
  refine Set.disjoint_left.mpr fun x hx => ?_
  obtain ⟨n, -, hn⟩ := hv.get?_of_mem hx
  exact h.notMem_new hn (Set.disjoint_left.mp hA hx)

theorem disjoint_news {vs : List GeneTerm} (h : Frame t u A B) (hvs : t.HoldsAll vs)
    (hA : Disjoint (footprints vs) A) : Disjoint (footprints vs) B := by
  refine Set.disjoint_left.mpr fun x hx => ?_
  obtain ⟨v, hv, hxv⟩ := mem_allIds.mp hx
  obtain ⟨n, -, hn⟩ := (hvs.each v hv).get?_of_mem hxv
  exact h.notMem_new hn (Set.disjoint_left.mp hA hx)

end Frame

section Slots

variable {t : GeneTree} {id : NodeId} {n : GeneNode}

theorem frame_modify (ht : t.FreeExact) (hid : t.get? id = some n) (f : GeneNode → GeneNode) :
    Frame t (t.modify id f) {id} {id} where
  root := by
    unfold modify
    split <;> rfl
  same x hx _ := get?_modify_of_ne hx f
  gone x hx hn := absurd hx hn
  fresh x hx hn := absurd hx hn
  exact := by
    have hfree : (t.modify id f).free = t.free := by
      unfold modify
      split <;> rfl
    have hsize : (t.modify id f).slots.size = t.slots.size := by
      unfold modify
      split <;> simp [place]
    refine ⟨hfree ▸ ht.distinct, fun x => ?_⟩
    rw [hfree, hsize, ht.empty x]
    by_cases hx : x = id
    · subst hx
      simp [get?_modify_self, hid]
    · rw [get?_modify_of_ne hx]

theorem frame_setGene (ht : t.FreeExact) (hid : t.get? id = some n) (g : Gene) :
    Frame t (t.setGene id g) {id} {id} := frame_modify ht hid _

theorem get?_setGene (hid : t.get? id = some n) (g : Gene) :
    (t.setGene id g).get? id = some { n with gene := g } := by
  rw [setGene, get?_modify_self, hid]
  rfl

theorem frame_freeSlot (ht : t.FreeExact) (hid : t.get? id = some n) :
    Frame t (t.freeSlot id) {id} ∅ where
  root := rfl
  same x hx _ := get?_freeSlot_of_ne hx
  gone x hx _ := by
    rw [Set.mem_singleton_iff.mp hx]
    exact get?_freeSlot_self t id
  fresh x hx := absurd hx (Set.notMem_empty x)
  exact := by
    have hsize : (t.freeSlot id).slots.size = t.slots.size := by simp [freeSlot]
    have hnot : id ∉ t.free := by
      intro hmem
      have he := ((ht.empty id).mp hmem).2
      rw [hid] at he
      cases he
    refine ⟨List.nodup_cons.mpr ⟨hnot, ht.distinct⟩, fun x => ?_⟩
    rw [hsize]
    by_cases hx : x = id
    · subst hx
      rw [get?_freeSlot_self]
      simp [freeSlot, lt_size_of_get? hid]
    · have he := ht.empty x
      rw [get?_freeSlot_of_ne hx, ← he]
      simp [freeSlot, hx]

end Slots

end GeneTree
end CallEvolution
