import CallEvolution.Proofs.Construction

/-! Ownership paths with the types of the objects on them. A part of a composite tree is found in it under
other ids, and a path that enters the copy of a part stays inside. -/

namespace CallEvolution

open GeneTerm

namespace Gene

/-- The object type that a gene was built from. -/
def refType? : Gene → Option String
  | object _ refType => refType
  | _ => none

theorem refType?_rename (f : NodeId → NodeId) (g : Gene) : (g.rename f).refType? = g.refType? := by
  cases g <;> rfl

end Gene

namespace GeneTree

variable {t u : GeneTree} {f : NodeId → NodeId} {v : GeneTerm} {x y z : NodeId} {g : Gene}
  {above types : List String}

/-- A way down from one node to another. Below the objects that came before, it lists the types of the
objects on it, the innermost first and both ends included. -/
inductive Trail (t : GeneTree) : List String → NodeId → List String → NodeId → Prop where
  | here {above : List String} {x : NodeId} {g : Gene} (hg : t.gene x = .ok g) :
    Trail t above x (g.refType?.toList ++ above) x
  | down {above types : List String} {x y z : NodeId} {g : Gene} (hg : t.gene x = .ok g)
    (hy : y ∈ g.owned) (h : Trail t (g.refType?.toList ++ above) y types z) : Trail t above x types z

theorem Trail.live (h : t.Trail above x types y) : ∃ g, t.gene y = .ok g := by
  induction h with
  | here hg => exact ⟨_, hg⟩
  | down _ _ _ ih => exact ih

theorem Trail.owned {k : Gene} (h : t.Trail above x types y) (hg : t.gene y = .ok g) (hz : z ∈ g.owned)
    (hk : t.gene z = .ok k) : t.Trail above x (k.refType?.toList ++ types) z := by
  induction h with
  | here hg' =>
    cases hg.symm.trans hg'
    exact .down hg hz (.here hk)
  | down hg' hy _ ih => exact .down hg' hy (ih hg)

/-- A way down ends where it starts, or goes on from one of the parts. -/
theorem Trail.cases_gene (h : t.Trail above x types y) (hg : t.gene x = .ok g) :
    y = x ∧ types = g.refType?.toList ++ above ∨
      ∃ z ∈ g.owned, t.Trail (g.refType?.toList ++ above) z types y := by
  cases h with
  | here hg' =>
    cases hg.symm.trans hg'
    exact .inl ⟨rfl, rfl⟩
  | down hg' hz h =>
    cases hg.symm.trans hg'
    exact .inr ⟨_, hz, h⟩

/-- Every node of a well-formed tree ends a way down from the root. -/
theorem WellFormed.exists_trail (ht : t.WellFormed) (hg : t.gene x = .ok g) :
    ∃ types, t.Trail [] t.root types x := by
  obtain ⟨n, hn, rfl⟩ := live_of_gene hg
  induction ht.reachable x (contains_of_get? hn) generalizing n with
  | refl => exact ⟨_, .here hg⟩
  | @tail y z _ howns ih =>
    obtain ⟨i, m, hm, hi⟩ := howns
    obtain ⟨types, htrail⟩ := ih m hm (gene_of_get? hm)
    exact ⟨_, htrail.owned (gene_of_get? hm) (List.mem_of_getElem? hi) hg⟩

theorem WellFormed.exists_gene (ht : t.WellFormed) (hg : t.gene x = .ok g) (hy : y ∈ g.owned) :
    ∃ k, t.gene y = .ok k := by
  obtain ⟨n, hn, rfl⟩ := live_of_gene hg
  obtain ⟨i, hi⟩ := List.getElem?_of_mem hy
  obtain ⟨m, hm⟩ := Option.isSome_iff_exists.mp (ht.owned_live x y ⟨i, n, hn, hi⟩)
  exact ⟨m.gene, gene_of_get? hm⟩

/-- Is every node of a tree found in another one, under another id and maybe another owner? -/
def Embeds (t u : GeneTree) (f : NodeId → NodeId) : Prop :=
  ∀ {x : NodeId} {n : GeneNode}, t.get? x = some n →
    ∃ owner, u.get? (f x) = some { n.rename f with parent := owner }

theorem Unfolds.embeds {w : GeneTerm} (hv : t.Unfolds v) (hw : u.Holds w)
    (hcopy : w = (v.rename f).withParent x) : t.Embeds u f := by
  intro y n hn
  obtain ⟨n', hmem, hn'⟩ := hv.holds.get?_of_mem (hv.full y (contains_of_get? hn))
  rw [hn, Option.some.injEq] at hn'
  subst hn'
  have hnodes : (f y, n.rename f) ∈ (v.rename f).nodes := by
    rw [nodes_rename]
    exact List.mem_map_of_mem (f := fun e : NodeId × GeneNode => (f e.1, e.2.rename f)) hmem
  subst hcopy
  generalize v.rename f = r at hw hnodes
  cases r with
  | node id content parts =>
    simp only [nodes, List.mem_cons] at hnodes
    rcases hnodes with he | hpart
    · obtain ⟨hid, hcontent⟩ := Prod.mk.inj he
      refine ⟨x, ?_⟩
      rw [hid, hcontent]
      exact hw.get?_id
    · refine ⟨(n.rename f).parent, hw.kept (e := (f y, n.rename f)) ?_⟩
      simp only [withParent, nodes, List.mem_cons]
      exact .inr hpart

namespace Embeds

theorem gene (h : t.Embeds u f) (hg : t.gene x = .ok g) : u.gene (f x) = .ok (g.rename f) := by
  obtain ⟨n, hn, rfl⟩ := live_of_gene hg
  obtain ⟨owner, hu⟩ := h hn
  exact gene_of_get? hu

theorem name (h : t.Embeds u f) {name : String} (hx : t.name x = .ok name) : u.name (f x) = .ok name := by
  obtain ⟨n, hnode, rfl⟩ := ok_of_map hx
  obtain ⟨owner, hu⟩ := h (get?_of_node hnode)
  rw [GeneTree.name, node_of_get? hu]
  rfl

theorem variant (h : t.Embeds u f) {v : Variant} (hx : t.variant x = .ok v) : u.variant (f x) = .ok v := by
  obtain ⟨n, hnode, rfl⟩ := ok_of_map hx
  obtain ⟨owner, hu⟩ := h (get?_of_node hnode)
  rw [GeneTree.variant, node_of_get? hu]
  exact congrArg Except.ok (Gene.variant_rename f n.gene)

/-- A way down from a node of a copy does not leave the copy. -/
theorem trail (h : t.Embeds u f) (ht : t.WellFormed) (hg : t.gene x = .ok g)
    (htrail : u.Trail above (f x) types z) : ∃ y, f y = z ∧ t.Trail above x types y := by
  generalize hfx : f x = x' at htrail
  induction htrail generalizing x g with
  | here hu =>
    subst hfx
    rw [h.gene hg, Except.ok.injEq] at hu
    rw [← hu, Gene.refType?_rename]
    exact ⟨x, rfl, .here hg⟩
  | down hu hy _ ih =>
    subst hfx
    rw [h.gene hg, Except.ok.injEq] at hu
    subst hu
    rw [Gene.owned_rename] at hy
    obtain ⟨y, hmem, rfl⟩ := List.mem_map.mp hy
    obtain ⟨k, hk⟩ := ht.exists_gene hg hmem
    obtain ⟨z, rfl, hz⟩ := ih hk rfl
    rw [Gene.refType?_rename] at hz
    exact ⟨z, rfl, .down hg hmem hz⟩

end Embeds

/-- A wrapped tree is found below its new root. -/
theorem embeds_wrapper (name : String) {part : GeneTree} {make : NodeId → Gene} (hpart : part.WellFormed)
    (hmake : ∀ id, (make id).owned = [id]) :
    ∃ f, part.Embeds (wrapper name part make) f ∧ (wrapper name part make).WellFormed ∧
      (wrapper name part make).get? (wrapper name part make).root =
        some ⟨name, make (f part.root), none⟩ := by
  obtain ⟨v, hv⟩ := hpart.unfolds
  obtain ⟨w, ⟨f, hcopy⟩, hunfolds⟩ := unfolds_wrapper name hv hmake
  have hid : w.id = f part.root := by rw [hcopy, id_withParent, id_rename, hv.root]
  refine ⟨f, hv.embeds (hunfolds.holds.parts.each w (by simp)) hcopy, hunfolds.wellFormed, ?_⟩
  rw [← hunfolds.root, ← hid]
  exact hunfolds.holds.get?_node

/-- Trees that were joined are found below their new root, in order. -/
theorem embeds_composite (name : String) {parts : List GeneTree} (make : List NodeId → Gene)
    (hparts : ∀ part ∈ parts, part.WellFormed) (hmake : ∀ ids, (make ids).owned = ids) :
    ∃ ids, (composite name parts make).WellFormed ∧
      (composite name parts make).get? (composite name parts make).root =
        some ⟨name, make ids, none⟩ ∧
      List.Forall₂ (fun part id => ∃ f, part.Embeds (composite name parts make) f ∧ f part.root = id)
        parts ids := by
  obtain ⟨vs, hvs, -⟩ := exists_forall₂_unfolds fun part hp => wellFormed_iff_isMade.mp (hparts part hp)
  obtain ⟨ws, hcopies, hunfolds⟩ := unfolds_composite name hvs hmake
  refine ⟨ws.map GeneTerm.id, hunfolds.wellFormed, hunfolds.root ▸ hunfolds.holds.get?_node, ?_⟩
  have hall := hunfolds.holds.parts.each
  generalize composite name parts make = u at hall
  clear hunfolds
  induction hvs generalizing ws with
  | nil =>
    cases hcopies
    exact .nil
  | cons hv _ ih =>
    obtain ⟨w, ws, ⟨f, hcopy⟩, hrest, rfl⟩ := List.forall₂_cons_left_iff.mp hcopies
    obtain ⟨hw, hws⟩ := List.forall_mem_cons.mp hall
    refine .cons ⟨f, hv.embeds hw hcopy, ?_⟩ (ih (fun p hp => hparts p (by simp [hp])) ws hrest hws)
    rw [hcopy, id_withParent, id_rename, hv.root]

end GeneTree
end CallEvolution
