import CallEvolution.Proofs.Mould
import CallEvolution.Proofs.Ownership

/-! Nodes that lie in no member of a collection; those of templates are among them. They keep their ids
while members come and go, so the terms before and after a change can be compared node by node. -/

namespace CallEvolution

open GeneTerm

theorem Gene.children_eq (g : Gene) : g.children = if g.isCollection then g.owned.drop 1 else g.owned := by
  cases g <;> rfl

namespace GeneTerm

variable {Q R : GeneNode → GeneNode → Prop} {v w x : GeneTerm} {id : NodeId} {content content' : GeneNode}
  {parts parts' pre post members : List GeneTerm} {template : GeneTerm}

/-- The nodes in no member of a collection, each before its parts. -/
def outer : GeneTerm → List (NodeId × GeneNode)
  | node id content parts =>
    (id, content) ::
      (if content.gene.isCollection then (parts.map outer).take 1 else parts.map outer).flatten

theorem outer_collection (hc : content.gene.isCollection = true) (template : GeneTerm)
    (members : List GeneTerm) :
    (node id content (template :: members)).outer = (id, content) :: template.outer := by
  simp [outer, hc]

theorem outer_plain (hc : content.gene.isCollection = false) (parts : List GeneTerm) :
    (node id content parts).outer = (id, content) :: parts.flatMap outer := by
  simp [outer, hc, List.flatMap]

theorem mem_nodes_of_mem_outer {e : NodeId × GeneNode} (h : e ∈ v.outer) : e ∈ v.nodes := by
  induction v using induct with
  | node id content parts ih =>
    rw [outer, List.mem_cons] at h
    rw [nodes, List.mem_cons, List.mem_flatMap]
    refine h.imp_right fun h => ?_
    obtain ⟨l, hl, he⟩ := List.mem_flatten.mp h
    have hmem : l ∈ parts.map outer := by
      split at hl
      · exact List.mem_of_mem_take hl
      · exact hl
    obtain ⟨p, hp, rfl⟩ := List.mem_map.mp hmem
    exact ⟨p, hp, ih p hp he⟩

/-- Do two terms have the same nodes outside of members, each in a relation to its counterpart? -/
def Matches (Q : GeneNode → GeneNode → Prop) (v w : GeneTerm) : Prop :=
  List.Forall₂ (fun e k => k.1 = e.1 ∧ Q e.2 k.2) v.outer w.outer

namespace Matches

theorem refl (hQ : ∀ n, Q n n) (v : GeneTerm) : Matches Q v v :=
  List.forall₂_same.mpr fun e _ => ⟨rfl, hQ e.2⟩

theorem trans (hQ : ∀ a b c, Q a b → Q b c → Q a c) (h : Matches Q v w) (k : Matches Q w x) :
    Matches Q v x := by
  rw [Matches] at h k ⊢
  generalize v.outer = l, w.outer = m, x.outer = n at h k
  induction h generalizing n with
  | nil =>
    cases k
    exact .nil
  | cons hab _ ih =>
    cases k with
    | cons hbc k => exact .cons ⟨hbc.1.trans hab.1, hQ _ _ _ hab.2 hbc.2⟩ (ih _ k)

theorem mono (hQR : ∀ e ∈ v.outer, ∀ k, Q e.2 k → R e.2 k) (h : Matches Q v w) : Matches R v w := by
  rw [Matches] at h ⊢
  generalize v.outer = l, w.outer = m at h hQR
  induction h with
  | nil => exact .nil
  | cons hek _ ih =>
    have htail := fun e he => hQR e (List.mem_cons_of_mem _ he)
    exact .cons ⟨hek.1, hQR _ List.mem_cons_self _ hek.2⟩ (ih htail)

theorem exists_of_mem (h : Matches Q v w) {y : NodeId} {n : GeneNode} (hy : (y, n) ∈ v.outer) :
    ∃ k, (y, k) ∈ w.outer ∧ Q n k := by
  obtain ⟨⟨z, k⟩, hk, hz, hQ⟩ := exists_of_forall₂ h hy
  obtain rfl : z = y := hz
  exact ⟨k, hk, hQ⟩

/-- A node that is no collection, with parts that are matched. -/
theorem plain (hc : content.gene.isCollection = false) (hc' : content'.gene.isCollection = false)
    (hnode : Q content content') (hparts : List.Forall₂ (Matches Q) parts parts') :
    Matches Q (node id content parts) (node id content' parts') := by
  rw [Matches, outer_plain hc, outer_plain hc']
  refine .cons ⟨rfl, hnode⟩ ?_
  induction hparts with
  | nil => exact .nil
  | cons hpq _ ih =>
    rw [List.flatMap_cons, List.flatMap_cons]
    exact List.rel_append hpq ih

/-- A collection with the same template. -/
theorem collection {members' : List GeneTerm} (hQ : ∀ n, Q n n) (hc : content.gene.isCollection = true)
    (hc' : content'.gene.isCollection = true) (hnode : Q content content') :
    Matches Q (node id content (template :: members)) (node id content' (template :: members')) := by
  rw [Matches, outer_collection hc, outer_collection hc']
  exact .cons ⟨rfl, hnode⟩ (refl hQ template)

/-- A node none of whose parts but one has changed, be that a template or a member. -/
theorem part (hQ : ∀ n, Q n n) (h : Matches Q v w) :
    Matches Q (node id content (pre ++ v :: post)) (node id content (pre ++ w :: post)) := by
  cases hc : content.gene.isCollection with
  | true =>
    cases pre with
    | nil =>
      rw [Matches, List.nil_append, List.nil_append, outer_collection hc, outer_collection hc]
      exact .cons ⟨rfl, hQ content⟩ h
    | cons template pre => exact collection hQ hc hc (hQ content)
  | false =>
    refine plain hc hc (hQ content) ?_
    have hsame : ∀ l : List GeneTerm, List.Forall₂ (Matches Q) l l := fun l =>
      List.forall₂_same.mpr fun p _ => refl hQ p
    exact List.rel_append (hsame pre) (.cons h (hsame post))

/-- Terms of one mould match up to the values of their nodes. -/
theorem of_mould (hv : v.Shaped) (hw : w.Shaped) (h : v.mould = w.mould) :
    Matches (fun n k => k.blank = n.blank) v w := by
  induction v using induct generalizing w with
  | node id content parts ih =>
    obtain ⟨id', content', parts'⟩ := w
    obtain ⟨rfl, hblank, htemplate, hparts⟩ := alikeNodes hv hw h
    have hcoll := isCollection_of_blank hblank
    cases hc : content.gene.isCollection with
    | true =>
      obtain ⟨p, ps, rfl⟩ := hv.exists_template hc
      obtain ⟨q, qs, rfl⟩ := hw.exists_template (hcoll ▸ hc)
      obtain rfl : p = q := by simpa using htemplate hc
      exact collection (fun _ => rfl) hc (hcoll ▸ hc) hblank.symm
    | false =>
      refine plain hc (hcoll ▸ hc) hblank.symm (forall₂_of_mem (hparts hc) fun p hp q hq hpq => ?_)
      exact ih p hp (hv.part hp) (hw.part hq) hpq

/-- A collection of one mould with another one has its template. -/
theorem of_mould_collection (hQ : ∀ n, Q n n) (hv : (node id content parts).Shaped) (hw : w.Shaped)
    (hc : content.gene.isCollection = true)
    (hnode : ∀ k : GeneNode, k.blank = content.blank → Q content k)
    (h : (node id content parts).mould = w.mould) : Matches Q (node id content parts) w := by
  obtain ⟨id', content', parts'⟩ := w
  obtain ⟨rfl, hblank, htemplate, -⟩ := alikeNodes hv hw h
  have hc' : content'.gene.isCollection = true := isCollection_of_blank hblank ▸ hc
  obtain ⟨p, ps, rfl⟩ := hv.exists_template hc
  obtain ⟨q, qs, rfl⟩ := hw.exists_template hc'
  obtain rfl : p = q := by simpa using htemplate hc
  exact collection hQ hc hc' (hnode _ hblank.symm)

end Matches

end GeneTerm

namespace GeneTree

variable {t u : GeneTree} {v w : GeneTerm} {x y : NodeId}

/-- Does a node lie in a member of a collection that stands at or below another one? Templates are no
members. -/
def InMember (t : GeneTree) (top x : NodeId) : Prop :=
  ∃ owner n member, Relation.ReflTransGen t.Owns top owner ∧ t.get? owner = some n ∧
    n.gene.isCollection = true ∧ member ∈ n.gene.children ∧ Relation.ReflTransGen t.Owns member x

theorem InMember.head {z : NodeId} (h : t.Owns y z) (k : t.InMember z x) : t.InMember y x := by
  obtain ⟨owner, n, member, hreach, hrest⟩ := k
  exact ⟨owner, n, member, .head h hreach, hrest⟩

theorem Holds.owns_part {id : NodeId} {content : GeneNode} {parts : List GeneTerm} {p : GeneTerm}
    (hv : t.Holds (.node id content parts)) (hp : p ∈ parts) : t.Owns id p.id := by
  have hshaped := hv.shaped
  rw [Shaped] at hshaped
  obtain ⟨i, hi⟩ := List.getElem?_of_mem (hshaped.1 ▸ List.mem_map_of_mem hp : p.id ∈ content.gene.owned)
  exact ⟨i, content, hv.get?_node, hi⟩

/-- A node of a term that lies in no member stands outside. -/
theorem Holds.exists_outer (hv : t.Holds v) (hx : x ∈ v.ids) (h : ¬ t.InMember v.id x) :
    ∃ n, (x, n) ∈ v.outer := by
  induction v using induct with
  | node id content parts ih =>
    rw [ids_node, List.mem_cons, List.mem_flatMap] at hx
    rcases hx with rfl | ⟨p, hp, hx⟩
    · exact ⟨content, by simp [outer]⟩
    have hshaped := hv.shaped
    rw [Shaped] at hshaped
    obtain ⟨n, hn⟩ := ih p hp (hv.parts.each p hp) hx fun hin => h (hin.head (hv.owns_part hp))
    cases hc : content.gene.isCollection with
    | false =>
      rw [outer_plain hc]
      exact ⟨n, List.mem_cons_of_mem _ (List.mem_flatMap.mpr ⟨p, hp, hn⟩)⟩
    | true =>
      obtain ⟨template, members, rfl⟩ := hv.shaped.exists_template hc
      rw [outer_collection hc]
      rcases List.mem_cons.mp hp with rfl | hp
      · exact ⟨n, List.mem_cons_of_mem _ hn⟩
      · refine absurd ⟨id, content, p.id, .refl, hv.get?_node, hc, ?_, ?_⟩ h
        · rw [Gene.children_eq, if_pos hc, ← hshaped.1]
          exact List.mem_map_of_mem hp
        · exact (hv.parts.each p (List.mem_cons_of_mem _ hp)).reaches hx

end GeneTree
end CallEvolution
