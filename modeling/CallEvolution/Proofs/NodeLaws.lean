import CallEvolution.Proofs.Members
import CallEvolution.Proofs.Variations
import Mathlib.Data.List.Induction

/-! Conditions on every node of a term that last while values change. A condition sees the gene of a node,
and of the parts no more than their names and stencils. -/

namespace CallEvolution

namespace Gene

theorem isCollection_rename (f : NodeId → NodeId) (g : Gene) :
    (g.rename f).isCollection = g.isCollection := by
  cases g <;> rfl

theorem isCollection_of_blank_eq {g k : Gene} (h : g.blank = k.blank) :
    g.isCollection = k.isCollection := by
  rw [← isCollection_blank, h, isCollection_blank]

theorem blank_rename (f : NodeId → NodeId) (g : Gene) : (g.rename f).blank = g.blank.rename f := by
  cases g <;> rfl

theorem isCollection_withMembers (g : Gene) (items : List NodeId) :
    (g.withMembers items).isCollection = g.isCollection := by
  cases g <;> rfl

theorem withMembers_withMembers (g : Gene) (xs ys : List NodeId) :
    (g.withMembers xs).withMembers ys = g.withMembers ys := by
  cases g <;> rfl

theorem capacity_withMembers (g : Gene) (items : List NodeId) :
    (g.withMembers items).capacity = g.capacity := by
  cases g <;> rfl

theorem variant_withMembers (g : Gene) (items : List NodeId) :
    (g.withMembers items).variant = g.variant := by
  cases g <;> rfl

theorem length_le_capacity {g : Gene} {template : NodeId} {members : List NodeId}
    (hc : g.isCollection = true) (hg : template :: members = g.owned) (h : g.InDomain) :
    members.length ≤ g.capacity := by
  cases g
  case array | map =>
    cases hg
    exact h
  all_goals cases hc

end Gene

namespace GeneTerm

/-- The bounds of a term: its nodes without ids, names, values and members. Templates stay. -/
def stencil : GeneTerm → GeneTerm
  | node _ content parts =>
    node ⟨0⟩ ⟨"", content.gene.blank.rename fun _ => ⟨0⟩, none⟩
      (if content.gene.isCollection then (parts.map stencil).take 1 else parts.map stencil)

/-- What a condition on its owner may see of a term. -/
def face (v : GeneTerm) : String × GeneTerm := (v.content.name, v.stencil)

/-- Does a condition hold of every gene and its parts? -/
def Every (P : Gene → List GeneTerm → Prop) : GeneTerm → Prop
  | node _ content parts => P content.gene parts ∧ ∀ v ∈ parts, v.Every P

variable {id : NodeId} {content : GeneNode} {parts pre post members : List GeneTerm}
  {template v w x : GeneTerm} {P : Gene → List GeneTerm → Prop}

theorem Every.of_part (h : (node id content parts).Every P) (hv : v ∈ parts) : v.Every P := by
  rw [Every] at h
  exact h.2 v hv

theorem Every.of_plug {hs : List GeneTree.Hole} (h : (GeneTree.plug hs v).Every P) : v.Every P := by
  induction hs with
  | nil => exact h
  | cons hole hs ih => exact ih (h.of_part (List.mem_append_right _ List.mem_cons_self))

theorem stencil_rename (f : NodeId → NodeId) (v : GeneTerm) : (v.rename f).stencil = v.stencil := by
  induction v using induct with
  | node id content parts ih =>
    have hparts : (parts.map (rename f)).map stencil = parts.map stencil := by
      rw [List.map_map]
      exact List.map_congr_left ih
    rw [rename, stencil, stencil, hparts]
    simp only [GeneNode.rename, Gene.blank_rename, Gene.isCollection_rename, Gene.rename_rename]
    rfl

theorem face_rename (f : NodeId → NodeId) (v : GeneTerm) : (v.rename f).face = v.face := by
  rw [face, face, stencil_rename, content_rename]
  rfl

theorem every_true (v : GeneTerm) : v.Every fun _ _ => True := by
  induction v using induct with
  | node id content parts ih =>
    rw [Every]
    exact ⟨trivial, ih⟩

theorem every_and {Q : Gene → List GeneTerm → Prop} :
    (v.Every fun g parts => P g parts ∧ Q g parts) ↔ v.Every P ∧ v.Every Q := by
  induction v using induct with
  | node id content parts ih =>
    rw [Every, Every, Every]
    constructor
    · rintro ⟨⟨hP, hQ⟩, h⟩
      exact ⟨⟨hP, fun v hv => ((ih v hv).mp (h v hv)).1⟩, hQ, fun v hv => ((ih v hv).mp (h v hv)).2⟩
    · rintro ⟨⟨hP, hp⟩, hQ, hq⟩
      exact ⟨⟨hP, hQ⟩, fun v hv => (ih v hv).mpr ⟨hp v hv, hq v hv⟩⟩

theorem stencil_withParent (v : GeneTerm) (p : Option NodeId) : (v.withParent p).stencil = v.stencil := by
  obtain ⟨id, content, parts⟩ := v
  rw [withParent, stencil, stencil]

theorem every_withParent (p : Option NodeId) : (v.withParent p).Every P ↔ v.Every P := by
  obtain ⟨id, content, parts⟩ := v
  rw [withParent, Every, Every]

theorem id_withName (name : String) (v : GeneTerm) : (v.withName name).id = v.id := by
  obtain ⟨id, content, parts⟩ := v
  rfl

theorem name_withName (name : String) (v : GeneTerm) : (v.withName name).content.name = name := by
  obtain ⟨id, content, parts⟩ := v
  rfl

theorem stencil_withName (name : String) (v : GeneTerm) : (v.withName name).stencil = v.stencil := by
  obtain ⟨id, content, parts⟩ := v
  rw [withName, stencil, stencil]

theorem every_withName (name : String) : (v.withName name).Every P ↔ v.Every P := by
  obtain ⟨id, content, parts⟩ := v
  rw [withName, Every, Every]

theorem stencil_part (h : w.stencil = v.stencil) :
    (node id content (pre ++ w :: post)).stencil = (node id content (pre ++ v :: post)).stencil := by
  rw [stencil, stencil, List.map_append, List.map_append, List.map_cons, List.map_cons, h]

theorem stencil_setGene {g : Gene} (h : g.blank = content.gene.blank) :
    (node id { content with gene := g } parts).stencil = (node id content parts).stencil := by
  rw [stencil, stencil, h, Gene.isCollection_of_blank_eq h]

theorem stencil_members (hc : content.gene.isCollection = true) (xs : List NodeId)
    (old new : List GeneTerm) :
    (node id { content with gene := content.gene.withMembers xs } (template :: new)).stencil =
      (node id content (template :: old)).stencil := by
  rw [stencil, stencil]
  simp [Gene.blank_withMembers, Gene.isCollection_withMembers, hc]

end GeneTerm

open GeneTerm

/-- A condition on genes and their parts that lasts while values change. A collection may lose members
and gain those that are made from its template. -/
structure Lasts (P : Gene → List GeneTerm → Prop) : Prop where
  rename : ∀ (f : NodeId → NodeId) (g : Gene) (parts : List GeneTerm), P (g.rename f) parts ↔ P g parts
  faces : ∀ {g : Gene} {parts parts' : List GeneTerm}, parts'.map face = parts.map face →
    P g parts → P g parts'
  varies : ∀ {g k : Gene} {parts : List GeneTerm}, g.isCollection = false → g.Varies k →
    P g parts → P k parts
  fewer : ∀ {g : Gene} {template : GeneTerm} {old new : List GeneTerm}, g.isCollection = true →
    (template :: old).map GeneTerm.id = g.owned → new.Sublist old → P g (template :: old) →
      P (g.withMembers (new.map GeneTerm.id)) (template :: new)
  more : ∀ {g : Gene} {template w : GeneTerm} {members : List GeneTerm}, g.isCollection = true →
    members.length < g.capacity → w.stencil = template.stencil →
    (g.variant = .map → w.content.name ∉ members.map (·.content.name)) → P g (template :: members) →
      P (g.withMembers ((members ++ [w]).map GeneTerm.id)) (template :: (members ++ [w]))

theorem lasts_true : Lasts fun _ _ => True :=
  ⟨fun _ _ _ => Iff.rfl, fun _ h => h, fun _ _ h => h, fun _ _ _ h => h, fun _ _ _ _ h => h⟩

theorem Lasts.and {P Q : Gene → List GeneTerm → Prop} (hP : Lasts P) (hQ : Lasts Q) :
    Lasts fun g parts => P g parts ∧ Q g parts where
  rename f g parts := and_congr (hP.rename f g parts) (hQ.rename f g parts)
  faces he h := ⟨hP.faces he h.1, hQ.faces he h.2⟩
  varies hc hg h := ⟨hP.varies hc hg h.1, hQ.varies hc hg h.2⟩
  fewer hc hs hsub h := ⟨hP.fewer hc hs hsub h.1, hQ.fewer hc hs hsub h.2⟩
  more hc hlt hw hname h := ⟨hP.more hc hlt hw hname h.1, hQ.more hc hlt hw hname h.2⟩

namespace Lasts

variable {P : Gene → List GeneTerm → Prop} {g : Gene} {template v : GeneTerm} {old new : List GeneTerm}

theorem every_rename (hP : Lasts P) (f : NodeId → NodeId) : (v.rename f).Every P ↔ v.Every P := by
  induction v using induct with
  | node id content parts ih =>
    have hfaces : (parts.map (GeneTerm.rename f)).map face = parts.map face := by
      rw [List.map_map]
      exact List.map_congr_left fun p _ => face_rename f p
    have hnode : P (content.gene.rename f) (parts.map (GeneTerm.rename f)) ↔ P content.gene parts := by
      rw [hP.rename]
      exact ⟨hP.faces hfaces.symm, hP.faces hfaces⟩
    rw [GeneTerm.rename, Every, Every]
    refine and_congr hnode ?_
    rw [List.forall_mem_map]
    exact forall₂_congr ih

/-- A collection is filled member by member. -/
theorem fill (hP : Lasts P) (hc : g.isCollection = true)
    (hshape : (template :: old).map GeneTerm.id = g.owned) (hsize : new.length ≤ g.capacity)
    (hstencil : ∀ w ∈ new, w.stencil = template.stencil)
    (hnames : g.variant = .map → (new.map (·.content.name)).Nodup) (h : P g (template :: old)) :
    P (g.withMembers (new.map GeneTerm.id)) (template :: new) := by
  -- the collection is emptied first, and then gets one member after the other
  induction new using List.reverseRecOn with
  | nil => exact hP.fewer hc hshape old.nil_sublist h
  | append_singleton members w ih =>
    rw [List.length_append, List.length_singleton] at hsize
    rw [List.map_append, List.map_singleton] at hnames
    have hfilled := ih (by omega) (fun x hx => hstencil x (List.mem_append_left _ hx))
      fun hmap => (List.nodup_append.mp (hnames hmap)).1
    have hmore := hP.more (w := w) (by rwa [Gene.isCollection_withMembers])
      (by rw [Gene.capacity_withMembers]; omega) (hstencil w (by simp)) (fun hmap hmem => ?_) hfilled
    · rwa [Gene.withMembers_withMembers] at hmore
    · rw [Gene.variant_withMembers] at hmap
      exact (List.nodup_append.mp (hnames hmap)).2.2 _ hmem _ (by simp) rfl

end Lasts

/-- A term with the bounds of another one that satisfies a condition if the other one does. -/
structure GeneTerm.Conserves (P : Gene → List GeneTerm → Prop) (v w : GeneTerm) : Prop where
  stencil : w.stencil = v.stencil
  every : v.Every P → w.Every P

namespace GeneTerm.Conserves

variable {P : Gene → List GeneTerm → Prop} {v w x : GeneTerm}

theorem trans (h : Conserves P v w) (k : Conserves P w x) : Conserves P v x :=
  ⟨k.stencil.trans h.stencil, k.every ∘ h.every⟩

/-- A copy under other ids and another owner. -/
theorem copy (hP : Lasts P) (f : NodeId → NodeId) (owner : Option NodeId) (v : GeneTerm) :
    Conserves P v ((v.rename f).withParent owner) := by
  refine ⟨by rw [stencil_withParent, stencil_rename], fun h => ?_⟩
  rwa [every_withParent, hP.every_rename]

theorem withName (h : Conserves P v w) (name : String) : Conserves P v (w.withName name) := by
  refine ⟨by rw [stencil_withName, h.stencil], fun hv => ?_⟩
  rw [every_withName]
  exact h.every hv

end GeneTerm.Conserves

namespace GeneTree

/-- A term has given way to one of the same mould, and a condition lasts. -/
structure Renews (P : Gene → List GeneTerm → Prop) (t : GeneTree) (v : GeneTerm) (u : GeneTree)
    (w : GeneTerm) : Prop extends Refills t v u w, Conserves P v w

variable {P : Gene → List GeneTerm → Prop} {t u s : GeneTree} {v w x template : GeneTerm} {id : NodeId}
  {content : GeneNode} {pre post parts old new : List GeneTerm}

namespace Renews

theorem refl (ht : t.FreeExact) (hv : t.Holds v) : Renews P t v t v := ⟨.refl ht hv, rfl, fun h => h⟩

theorem trans (h : Renews P t v u w) (k : Renews P u w s x) : Renews P t v s x :=
  ⟨h.toRefills.trans k.toRefills, k.stencil.trans h.stencil, k.every ∘ h.every⟩

theorem face_eq (h : Renews P t v u w) : w.face = v.face := by
  have hname := congrArg GeneNode.name (blank_eq_of_mould_eq h.mould)
  change w.content.name = v.content.name at hname
  rw [face, face, hname, h.stencil]

theorem part (hP : Lasts P) (h : Renews P t v u w) (hv : t.Holds (.node id content (pre ++ v :: post)))
    (hpre : content.gene.isCollection = true → pre ≠ []) :
    Renews P t (.node id content (pre ++ v :: post)) u (.node id content (pre ++ w :: post)) := by
  refine ⟨h.toRefills.part hv hpre, stencil_part h.stencil, fun hold => ?_⟩
  rw [Every] at hold ⊢
  refine ⟨hP.faces ?_ hold.1, fun p hp => ?_⟩
  · rw [List.map_append, List.map_append, List.map_cons, List.map_cons, h.face_eq]
  · rcases List.mem_append.mp hp with hp | hp
    · exact hold.2 p (List.mem_append_left _ hp)
    · rcases List.mem_cons.mp hp with rfl | hp
      · exact h.every (hold.2 v (by simp))
      · exact hold.2 p (List.mem_append_right _ (List.mem_cons_of_mem _ hp))

theorem setGene {g : Gene} (hP : Lasts P) (ht : t.FreeExact) (hv : t.Holds (.node id content parts))
    (hg : content.gene.Varies g) (hc : content.gene.isCollection = false) :
    Renews P t (.node id content parts) (t.setGene id g) (.node id { content with gene := g } parts) := by
  refine ⟨.setGene ht hv hg.blank hc, stencil_setGene hg.blank, fun hold => ?_⟩
  rw [Every] at hold ⊢
  exact ⟨hP.varies hc hg hold.1, hold.2⟩

/-- A collection whose members have changed. -/
theorem of_members (hc : content.gene.isCollection = true)
    (h : Refills t (.node id content (template :: old)) u
      (.node id { content with gene := content.gene.withMembers (new.map GeneTerm.id) } (template :: new)))
    (hnode : P content.gene (template :: old) →
      P (content.gene.withMembers (new.map GeneTerm.id)) (template :: new))
    (hmembers : template.Every P → (∀ m ∈ old, m.Every P) → ∀ m ∈ new, m.Every P) :
    Renews P t (.node id content (template :: old)) u
      (.node id { content with gene := content.gene.withMembers (new.map GeneTerm.id) }
        (template :: new)) := by
  refine ⟨h, stencil_members hc _ _ _, fun hold => ?_⟩
  rw [Every] at hold ⊢
  have htemplate := hold.2 template (by simp)
  refine ⟨hnode hold.1, List.forall_mem_cons.mpr ⟨htemplate, ?_⟩⟩
  exact hmembers htemplate fun m hm => hold.2 m (List.mem_cons_of_mem _ hm)

theorem plug {hs : List Hole} (hP : Lasts P) (h : Renews P t v u w) (hv : t.Holds (plug hs v))
    (hplain : ∀ h ∈ hs, h.content.gene.isCollection = false) :
    Renews P t (GeneTree.plug hs v) u (GeneTree.plug hs w) := by
  induction hs with
  | nil => exact h
  | cons hole hs ih =>
    obtain ⟨hcoll, hplain⟩ := List.forall_mem_cons.mp hplain
    exact (ih (hv.parts.each _ (by simp)) hplain).part hP hv fun h => by simp [hcoll] at h

end Renews

end GeneTree
end CallEvolution
