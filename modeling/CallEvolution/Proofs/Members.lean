import CallEvolution.Proofs.Graft

/-! Members of a collection that come and go. Members are added below the collection before it lists them,
and may be released while it still lists them; it is a term again once the list is set. -/

namespace CallEvolution

open GeneTerm

namespace Gene

/-- A collection with other members. -/
def withMembers (items : List NodeId) : Gene → Gene
  | array template _ maxSize => array template items maxSize
  | map template _ maxSize => map template items maxSize
  | g => g

/-- How many members a collection may have. -/
def capacity : Gene → Nat
  | array _ _ maxSize => maxSize
  | map _ _ maxSize => maxSize
  | _ => 0

theorem blank_withMembers (g : Gene) (items : List NodeId) : (g.withMembers items).blank = g.blank := by
  cases g <;> rfl

theorem owned_withMembers {g : Gene} {template : NodeId} {old : List NodeId}
    (hc : g.isCollection = true) (h : g.owned = template :: old) (items : List NodeId) :
    (g.withMembers items).owned = template :: items := by
  cases g
  case array | map =>
    cases h
    rfl
  all_goals cases hc

end Gene

/-- The term under another name. -/
def GeneTerm.withName (name : String) : GeneTerm → GeneTerm
  | node id content parts => node id { content with name } parts

namespace GeneTree

variable {t u s : GeneTree} {w x : GeneTerm} {ws : List GeneTerm} {owner : NodeId}

/-- A term has come into a tree below an owner that does not list it yet. -/
structure Adds (t u : GeneTree) (owner : NodeId) (w : GeneTerm) : Prop where
  frame : Frame t u ∅ w.footprint
  holds : u.Holds w
  owner : w.content.parent = some owner

structure AddsAll (t u : GeneTree) (owner : NodeId) (ws : List GeneTerm) : Prop where
  frame : Frame t u ∅ (footprints ws)
  holds : u.HoldsAll ws
  owner : ∀ w ∈ ws, w.content.parent = some owner

theorem Adds.refills (h : Adds t u owner w) (k : Refills u w s x) : Adds t s owner x :=
  ⟨h.frame.chain k.frame, k.holds, by rw [parent_eq_of_mould_eq k.mould, h.owner]⟩

/-- Its name is of no account. -/
theorem Adds.named (h : Adds t u owner w) (name : String) :
    Adds t (u.modify w.id fun n => { n with name }) owner (w.withName name) := by
  obtain ⟨id, content, parts⟩ := w
  have hid : u.get? id = some content := h.holds.get?_id
  have hshaped := h.holds.shaped
  rw [Shaped] at hshaped
  have hnot := id_notMem_allIds h.holds.distinct
  have hname := frame_modify h.frame.exact hid fun n => { n with name }
  refine ⟨?_, ?_, h.owner⟩
  · have hwhole := hname.widen (footprints parts)
    rw [← footprint_node id content] at hwhole
    rw [withName, footprint_node, ← footprint_node id content]
    exact h.frame.chain hwhole
  · refine Holds.node ?_ (hname.holdsAll h.holds.parts ?_) hshaped.1 (fun p hp => ?_) hnot
    · change (u.modify id _).get? id = _
      rw [get?_modify_self, hid]
      rfl
    · exact Set.disjoint_singleton_right.mpr hnot
    · exact (hshaped.2 p hp).1

theorem AddsAll.nil (ht : t.FreeExact) (owner : NodeId) : AddsAll t t owner [] :=
  ⟨by rw [footprints_nil]; exact .refl ht _, .nil t, by simp⟩

theorem Adds.cons (h : Adds t u owner w) (k : AddsAll u s owner ws) : AddsAll t s owner (w :: ws) := by
  have hdis : Disjoint w.footprint (footprints ws) :=
    k.frame.disjoint_new h.holds (Set.disjoint_empty _)
  refine ⟨?_, ?_, ?_⟩
  · have hboth := h.frame.both k.frame (Set.empty_disjoint _)
    rwa [Set.union_empty, ← footprints_cons] at hboth
  · refine .cons (k.frame.holds h.holds (Set.disjoint_empty _)) k.holds ?_
    exact fun x hx => Set.disjoint_left.mp hdis hx
  · intro p hp
    rcases List.mem_cons.mp hp with rfl | hp
    · exact h.owner
    · exact k.owner p hp

/-- A collection that lists the members that have come in place of its own. -/
theorem Refills.exchange {id : NodeId} {content : GeneNode} {template : GeneTerm}
    {old new : List GeneTerm} (hv : t.Holds (.node id content (template :: old)))
    (hc : content.gene.isCollection = true) (hframe : Frame t u (footprints old) (footprints new))
    (hnew : u.HoldsAll new) (howner : ∀ p ∈ new, p.content.parent = some id) :
    Refills t (.node id content (template :: old))
      (u.setGene id (content.gene.withMembers (new.map GeneTerm.id)))
      (.node id { content with gene := content.gene.withMembers (new.map GeneTerm.id) }
        (template :: new)) := by
  have hshaped := hv.shaped
  rw [Shaped] at hshaped
  have hold : id ∉ footprints old := fun hx =>
    id_notMem_allIds hv.distinct (List.mem_append_right _ hx)
  have hid : u.get? id = some content := hframe.get?_eq hv.get?_id hold
  have hnot : id ∉ footprints new := hframe.notMem_new hv.get?_id hold
  have hset := frame_setGene hframe.exact hid (content.gene.withMembers (new.map GeneTerm.id))
  refine Refills.members hv ?_ (get?_setGene hid _) (hset.holdsAll hnew ?_) howner hnot ?_ ?_ hc
  · rw [Set.union_comm, Set.union_comm {id}]
    exact hframe.both hset (Set.disjoint_singleton_left.mpr hnot)
  · exact Set.disjoint_singleton_right.mpr hnot
  · exact Gene.owned_withMembers hc hshaped.1.symm _
  · exact Gene.blank_withMembers _ _

end GeneTree

namespace Edit

open GeneTree

variable {t src : GeneTree} {id : NodeId} {n : GeneNode}

/-- Too many members are refused, and nothing is changed then. -/
theorem ensures_setMembers (hid : t.get? id = some n) (hc : n.gene.isCollection = true)
    (items : List NodeId) :
    Ensures (setMembers id items) t fun r u =>
      (n.gene.capacity < items.length ∧ (∃ e, r = .error e) ∧ u = t) ∨
        (r = .ok () ∧ u = t.setGene id (n.gene.withMembers items)) := by
  obtain ⟨name, gene, parent⟩ := n
  refine ensures_query_bind (node_of_get? hid) ?_
  cases gene
  case array template members maxSize | map template members maxSize =>
    dsimp only
    by_cases hsize : maxSize < items.length
    · rw [if_pos hsize]
      refine Ensures.bind (P := fun r u => (∃ e, r = .error e) ∧ u = t)
        (Ensures.throw ⟨⟨_, rfl⟩, rfl⟩) ?_ ?_
      · rintro a u ⟨⟨e, he⟩, -⟩
        cases he
      · rintro e u ⟨-, rfl⟩
        exact .inl ⟨hsize, ⟨e, rfl⟩, rfl⟩
    · rw [if_neg hsize]
      exact ensures_update (.inr ⟨rfl, rfl⟩)
  all_goals cases hc

theorem ensures_setMembers_ok (hid : t.get? id = some n) (hc : n.gene.isCollection = true)
    {items : List NodeId} (hsize : items.length ≤ n.gene.capacity) :
    Ensures (setMembers id items) t fun r u =>
      r = .ok () ∧ u = t.setGene id (n.gene.withMembers items) := by
  refine (ensures_setMembers hid hc items).mono ?_
  rintro r u (⟨hlt, -⟩ | h)
  · omega
  · exact h

/-- A copy of a term that is grafted below an owner is the term under other ids. -/
theorem ensures_graftCopy {v : GeneTerm} {copy : GeneTree} (ht : t.FreeExact) (hv : src.Holds v)
    (hcopy : src.extract v.id = .ok copy) (owner : NodeId) :
    Ensures (graft copy (some owner)) t fun r u => ∃ w f, r = .ok w.id ∧
      w = (v.rename f).withParent (some owner) ∧ Adds t u owner w := by
  obtain ⟨copy', f, hcopy', hunfolds⟩ := hv.extract
  rw [hcopy', Except.ok.injEq] at hcopy
  subst hcopy
  refine (ensures_graft ht hunfolds _).mono ?_
  rintro r u ⟨g, rfl, hframe, hholds⟩
  rw [rename_withParent, withParent_withParent, rename_rename] at hframe hholds
  refine ⟨_, g ∘ f, ?_, rfl, hframe, hholds, ?_⟩
  · simp only [id_withParent, id_rename, Function.comp_apply]
  · rw [content_withParent]

theorem ensures_transplant {v : GeneTerm} (ht : t.FreeExact) (hv : src.Holds v) (owner : NodeId) :
    Ensures (transplant src v.id (some owner)) t fun r u => ∃ w f, r = .ok w.id ∧
      w = (v.rename f).withParent (some owner) ∧ Adds t u owner w := by
  obtain ⟨copy, f, hcopy, -⟩ := hv.extract
  exact ensures_query_bind hcopy (ensures_graftCopy ht hv hcopy owner)

end Edit
end CallEvolution
