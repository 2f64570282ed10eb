import CallEvolution.Proofs.Overlay
import Mathlib.Data.List.Forall2

/-! What a mould determines. Terms can be read off the list of their nodes, so terms of one mould have
parts of one mould; and the value of such a term is told by the values at its fixed nodes. -/

namespace CallEvolution

open GeneTerm

namespace GeneTerm

variable {v w : GeneTerm} {id id' : NodeId} {content content' : GeneNode} {parts parts' : List GeneTerm}

theorem flatMap_append_inj {β : Type} {F : GeneTerm → List β} {R : GeneTerm → GeneTerm → Prop}
    {ps qs : List GeneTerm} {xs ys : List β}
    (hF : ∀ p ∈ ps, ∀ q ∈ qs, ∀ xs ys, F p ++ xs = F q ++ ys → R p q ∧ xs = ys)
    (hlen : ps.length = qs.length) (h : ps.flatMap F ++ xs = qs.flatMap F ++ ys) :
    List.Forall₂ R ps qs ∧ xs = ys := by
  induction ps generalizing qs with
  | nil =>
    rw [List.length_nil, eq_comm, List.length_eq_zero_iff] at hlen
    subst hlen
    exact ⟨.nil, h⟩
  | cons p ps ih =>
    obtain ⟨q, qs, rfl⟩ := List.exists_of_length_succ qs hlen.symm
    rw [List.flatMap_cons, List.flatMap_cons, List.append_assoc, List.append_assoc] at h
    obtain ⟨hpq, h⟩ := hF p (by simp) q (by simp) _ _ h
    obtain ⟨hrest, hxs⟩ := ih (fun p hp q hq => hF p (List.mem_cons_of_mem _ hp) q
      (List.mem_cons_of_mem _ hq)) (Nat.succ.inj hlen) h
    exact ⟨.cons hpq hrest, hxs⟩

theorem flatMap_eq_of_forall₂ {α β : Type} {F : α → List β} {ps qs : List α}
    (h : List.Forall₂ (fun p q => F p = F q) ps qs) : ps.flatMap F = qs.flatMap F := by
  induction h with
  | nil => rfl
  | cons hpq _ ih => rw [List.flatMap_cons, List.flatMap_cons, hpq, ih]

theorem forall₂_of_mem {R S : GeneTerm → GeneTerm → Prop} {ps qs : List GeneTerm}
    (h : List.Forall₂ R ps qs) (hS : ∀ p ∈ ps, ∀ q ∈ qs, R p q → S p q) : List.Forall₂ S ps qs := by
  induction h with
  | nil => exact .nil
  | cons hpq _ ih =>
    refine .cons (hS _ (by simp) _ (by simp) hpq) (ih fun p hp q hq => ?_)
    exact hS p (List.mem_cons_of_mem _ hp) q (List.mem_cons_of_mem _ hq)

theorem forall₂_and_map_eq {β : Type} {R : GeneTerm → GeneTerm → Prop} {F : GeneTerm → β}
    {ps qs : List GeneTerm} (h : List.Forall₂ R ps qs) (he : ps.map F = qs.map F) :
    List.Forall₂ (fun p q => R p q ∧ F p = F q) ps qs := by
  induction h with
  | nil => exact .nil
  | cons hpq _ ih =>
    rw [List.map_cons, List.map_cons, List.cons.injEq] at he
    exact .cons ⟨hpq, he.1⟩ (ih he.2)

theorem exists_of_forall₂ {α β : Type} {R : α → β → Prop} {l : List α} {l' : List β}
    (h : List.Forall₂ R l l') {a : α} (ha : a ∈ l) : ∃ b ∈ l', R a b := by
  induction h with
  | nil => simp at ha
  | cons hab _ ih =>
    rcases List.mem_cons.mp ha with rfl | ha
    · exact ⟨_, by simp, hab⟩
    · obtain ⟨b, hb, hR⟩ := ih ha
      exact ⟨b, List.mem_cons_of_mem _ hb, hR⟩

theorem map_eq_of_forall₂ {β : Type} {F : GeneTerm → β} {ps qs : List GeneTerm}
    (h : List.Forall₂ (fun p q => F p = F q) ps qs) : ps.map F = qs.map F := by
  induction h with
  | nil => rfl
  | cons hpq _ ih => rw [List.map_cons, List.map_cons, hpq, ih]

theorem Shaped.length_parts (h : (node id content parts).Shaped) :
    parts.length = content.gene.owned.length := by
  rw [Shaped] at h
  rw [← h.1, List.length_map]

/-- The list of its nodes tells a term. -/
theorem nodes_append_inj (hv : v.Shaped) (hw : w.Shaped) {xs ys : List (NodeId × GeneNode)}
    (h : v.nodes ++ xs = w.nodes ++ ys) : v = w ∧ xs = ys := by
  induction v using induct generalizing w xs ys with
  | node id content parts ih =>
    obtain ⟨id', content', parts'⟩ := w
    rw [nodes, nodes, List.cons_append, List.cons_append, List.cons.injEq, Prod.mk.injEq] at h
    obtain ⟨⟨rfl, rfl⟩, h⟩ := h
    have hlen : parts.length = parts'.length := by rw [hv.length_parts, hw.length_parts]
    obtain ⟨hparts, hxs⟩ := flatMap_append_inj
      (fun p hp q hq _ _ => ih p hp (hv.part hp) (hw.part hq)) hlen h
    rw [List.forall₂_eq_eq_eq] at hparts
    exact ⟨by rw [hparts], hxs⟩

theorem Shaped.exists_template (h : (node id content parts).Shaped)
    (hc : content.gene.isCollection = true) :
    ∃ template members, parts = template :: members := by
  have hlen := h.length_parts
  cases parts with
  | nil => cases hg : content.gene <;> simp [hg, Gene.isCollection, Gene.owned] at hc hlen
  | cons template members => exact ⟨template, members, rfl⟩

/-- What two nodes of one mould have in common, themselves and below. -/
structure AlikeNodes (id : NodeId) (content : GeneNode) (parts : List GeneTerm) (id' : NodeId)
    (content' : GeneNode) (parts' : List GeneTerm) : Prop where
  id : id = id'
  blank : content.blank = content'.blank
  template : content.gene.isCollection = true → parts.take 1 = parts'.take 1
  parts : content.gene.isCollection = false →
    List.Forall₂ (fun p q => p.mould = q.mould) parts parts'

theorem isCollection_of_blank (h : content.blank = content'.blank) :
    content.gene.isCollection = content'.gene.isCollection := by
  have hg : content.gene.blank = content'.gene.blank := congrArg GeneNode.gene h
  rw [← Gene.isCollection_blank, hg, Gene.isCollection_blank]

theorem AlikeNodes.mould (h : AlikeNodes id content parts id' content' parts') :
    (node id content parts).mould = (node id' content' parts').mould := by
  obtain ⟨rfl, hblank, htemplate, hparts⟩ := h
  rw [GeneTerm.mould, GeneTerm.mould, hblank, ← isCollection_of_blank hblank]
  by_cases hc : content.gene.isCollection = true
  · rw [if_pos hc, if_pos hc, htemplate hc]
  · rw [if_neg hc, if_neg hc]
    rw [Bool.not_eq_true] at hc
    rw [flatMap_eq_of_forall₂ (hparts hc)]

theorem AlikeNodes.exists_parts (h : AlikeNodes id content parts id' content' parts')
    (hv : (node id content parts).Shaped) {x : NodeId} (hx : x ∈ content.gene.blank.owned) :
    ∃ p ∈ parts, ∃ q ∈ parts', p.id = x ∧ q.id = x ∧ p.mould = q.mould := by
  rw [Shaped] at hv
  by_cases hc : content.gene.isCollection = true
  · have htake := h.template hc
    rw [Gene.owned_blank_collection hc, ← hv.1, ← List.map_take] at hx
    obtain ⟨p, hp, rfl⟩ := List.mem_map.mp hx
    exact ⟨p, List.mem_of_mem_take hp, p, List.mem_of_mem_take (htake ▸ hp), rfl, rfl, rfl⟩
  · rw [Bool.not_eq_true] at hc
    rw [Gene.owned_blank hc, ← hv.1] at hx
    obtain ⟨p, hp, rfl⟩ := List.mem_map.mp hx
    obtain ⟨q, hq, hpq⟩ := exists_of_forall₂ (h.parts hc) hp
    exact ⟨p, hp, q, hq, rfl, (id_eq_of_mould_eq hpq).symm, hpq⟩

theorem alikeNodes_of_append {xs ys : List (NodeId × GeneNode)}
    (hv : (node id content parts).Shaped) (hw : (node id' content' parts').Shaped)
    (hbelow : ∀ p ∈ parts, ∀ q ∈ parts', ∀ xs ys, p.mould ++ xs = q.mould ++ ys →
      p.mould = q.mould ∧ xs = ys)
    (h : (node id content parts).mould ++ xs = (node id' content' parts').mould ++ ys) :
    AlikeNodes id content parts id' content' parts' ∧ xs = ys := by
  rw [GeneTerm.mould, GeneTerm.mould, List.cons_append, List.cons_append, List.cons.injEq,
    Prod.mk.injEq] at h
  obtain ⟨⟨hid, hblank⟩, h⟩ := h
  rw [← isCollection_of_blank hblank] at h
  by_cases hc : content.gene.isCollection = true
  · obtain ⟨p, ps, rfl⟩ := hv.exists_template hc
    obtain ⟨q, qs, rfl⟩ := hw.exists_template (isCollection_of_blank hblank ▸ hc)
    rw [if_pos hc, if_pos hc] at h
    simp only [List.take_succ_cons, List.take_zero, List.flatMap_cons, List.flatMap_nil,
      List.append_nil] at h
    obtain ⟨rfl, hxs⟩ := nodes_append_inj (hv.part (by simp)) (hw.part (by simp)) h
    exact ⟨⟨hid, hblank, fun _ => rfl, fun hn => by simp [hc] at hn⟩, hxs⟩
  · rw [if_neg hc, if_neg hc] at h
    rw [Bool.not_eq_true] at hc
    have howned : content.gene.owned = content'.gene.owned :=
      Gene.owned_eq_of_blank_eq (congrArg GeneNode.gene hblank) (isCollection_of_blank hblank ▸ hc)
    have hlen : parts.length = parts'.length := by rw [hv.length_parts, hw.length_parts, howned]
    obtain ⟨hparts, hxs⟩ := flatMap_append_inj hbelow hlen h
    exact ⟨⟨hid, hblank, fun hn => by simp [hc] at hn, fun _ => hparts⟩, hxs⟩

theorem mould_append_inj (hv : v.Shaped) (hw : w.Shaped) {xs ys : List (NodeId × GeneNode)}
    (h : v.mould ++ xs = w.mould ++ ys) : v.mould = w.mould ∧ xs = ys := by
  induction v using induct generalizing w xs ys with
  | node id content parts ih =>
    obtain ⟨id', content', parts'⟩ := w
    obtain ⟨halike, hxs⟩ := alikeNodes_of_append hv hw
      (fun p hp q hq _ _ => ih p hp (hv.part hp) (hw.part hq)) h
    exact ⟨halike.mould, hxs⟩

theorem alikeNodes (hv : (node id content parts).Shaped) (hw : (node id' content' parts').Shaped)
    (h : (node id content parts).mould = (node id' content' parts').mould) :
    AlikeNodes id content parts id' content' parts' := by
  have hbelow : ∀ p ∈ parts, ∀ q ∈ parts', ∀ xs ys, p.mould ++ xs = q.mould ++ ys →
      p.mould = q.mould ∧ xs = ys := fun p hp q hq _ _ => mould_append_inj (hv.part hp) (hw.part hq)
  exact (alikeNodes_of_append hv hw hbelow (congrArg (· ++ []) h)).1

/-- Terms of one mould have the same fixed nodes. -/
theorem fixed_eq_of_mould_eq (hv : v.Shaped) (hw : w.Shaped) (h : v.mould = w.mould) :
    v.fixed = w.fixed := by
  induction v using induct generalizing w with
  | node id content parts ih =>
    obtain ⟨id', content', parts'⟩ := w
    obtain ⟨rfl, hblank, -, hparts⟩ := alikeNodes hv hw h
    rw [fixed, fixed, ← isCollection_of_blank hblank]
    by_cases hc : content.gene.isCollection = true
    · rw [if_pos hc, if_pos hc]
    · rw [if_neg hc, if_neg hc]
      rw [Bool.not_eq_true] at hc
      rw [flatMap_eq_of_forall₂ (forall₂_of_mem (hparts hc) fun p hp q hq => ?_)]
      exact ih p hp (hv.part hp) (hw.part hq)

end GeneTerm
namespace GeneTree

variable {t : GeneTree} {v w : GeneTerm}

/-- A tree holds one term at a node. -/
theorem Holds.eq_of_id (hv : t.Holds v) (hw : t.Holds w) (h : v.id = w.id) : v = w := by
  induction v using induct generalizing w with
  | node id content parts ih =>
    obtain ⟨id', content', parts'⟩ := w
    obtain rfl : id = id' := h
    have hcontent : content = content' := by
      have hid := hv.get?_node
      rwa [hw.get?_node, Option.some.injEq, eq_comm] at hid
    subst hcontent
    have hshaped := hv.shaped
    have hshaped' := hw.shaped
    rw [Shaped] at hshaped hshaped'
    have hids : parts.map GeneTerm.id = parts'.map GeneTerm.id := by rw [hshaped.1, hshaped'.1]
    rw [← List.forall₂_eq_eq_eq, List.forall₂_map_left_iff, List.forall₂_map_right_iff] at hids
    have hparts := forall₂_of_mem hids fun p hp q hq hpq =>
      ih p hp (hv.parts.each p hp) (hw.parts.each q hq) hpq
    rw [List.forall₂_eq_eq_eq] at hparts
    rw [hparts]

theorem Unfolds.unique (hv : t.Unfolds v) (hw : t.Unfolds w) : v = w :=
  hv.holds.eq_of_id hw.holds (hv.root.trans hw.root.symm)

end GeneTree
end CallEvolution
