import CallEvolution.Proofs.Agreement
import CallEvolution.Proofs.Conditions

/-! What a template has in common with the members of its collection. A template encloses a term if it
admits whatever that term admits; this is all that the bounds of a member have to fulfil. -/

namespace CallEvolution

open GeneTerm GeneTree

namespace Gene

/-- Is there a value to choose? -/
def HasChoice : Gene → Prop
  | choice values _ => values ≠ []
  | _ => True

theorem bounded_rename (f : NodeId → NodeId) (g : Gene) : (g.rename f).Bounded ↔ g.Bounded := by
  cases g <;> rfl

theorem hasChoice_rename (f : NodeId → NodeId) (g : Gene) : (g.rename f).HasChoice ↔ g.HasChoice := by
  cases g <;> rfl

theorem hasChoice_blank (g : Gene) : g.blank.HasChoice ↔ g.HasChoice := by
  cases g <;> rfl

theorem bounded_of_isCollection {g : Gene} (h : g.isCollection = true) : g.Bounded := by
  cases g
  case array | map => trivial
  all_goals cases h

theorem hasChoice_of_isCollection {g : Gene} (h : g.isCollection = true) : g.HasChoice := by
  cases g
  case array | map => trivial
  all_goals cases h

end Gene

namespace GeneTree

/-- A gene with a value within its bounds can take over that value. -/
theorem assessGenes_self {g : Gene} (name : String) (hdomain : g.InDomain) (hbounded : g.Bounded)
    (hchoice : g.HasChoice) : assessGenes (fun _ _ => .ok ()) name g g = .ok () := by
  cases g
  case integer | long | string => simp [assessGenes, requireBounds, within, hdomain.1, hdomain.2]
  case float | double => simp [assessGenes, requireBounds, within, hbounded.1, hbounded.2]
  case choice values index => simp [assessGenes, hdomain hchoice]; rfl
  case array | map => exact checkMembers_iff.mpr ⟨hdomain, fun _ _ => rfl⟩
  case object => simp [assessGenes, checkPairs_iff]
  all_goals rfl

/-- Whether a gene can take over a value depends on its bounds only. -/
theorem assessGenes_of_stencil {f : NodeId → NodeId} {name name' : String} {mine other theirs : Gene}
    (h : other.blank.rename f = mine.blank.rename f) (hvariant : mine.variant = theirs.variant)
    (hok : assessGenes (fun _ _ => .ok ()) name mine theirs = .ok ()) :
    assessGenes (fun _ _ => .ok ()) name' other theirs = .ok () := by
  have hrename : ∀ {g : Gene} (name name' : String), g.variant = theirs.variant →
      (assessGenes (fun _ _ => .ok ()) name (g.rename f) theirs = .ok () ↔
        assessGenes (fun _ _ => .ok ()) name' g theirs = .ok ()) := by
    intro g name name' hg
    cases Gene.kindred_of_variant hg
    case choice values _ others index =>
      simp only [assessGenes, Gene.rename]
      cases others[index]? with
      | none => exact ⟨(fun h => by cases h), fun h => by cases h⟩
      | some value =>
        by_cases hmem : values.contains value = true
        · simp only [if_pos hmem]
        · simp only [if_neg hmem]
          exact ⟨(fun h => by cases h), fun h => by cases h⟩
    case object xs _ ys _ =>
      by_cases hlength : xs.length = ys.length
      · simp [assessGenes, Gene.rename, hlength, checkPairs_iff]
      · simp only [assessGenes, Gene.rename, List.length_map, ne_eq, if_pos hlength]
        exact ⟨(fun h => by cases h), fun h => by cases h⟩
    case array | map => simp [assessGenes, Gene.rename, checkMembers_iff]
    case integer | long | float | double | string => simp [assessGenes, Gene.rename, requireBounds]
    all_goals rfl
  have hother : other.blank.variant = theirs.variant := by
    rw [← Gene.variant_rename f other.blank, h, Gene.variant_rename, Gene.variant_blank, hvariant]
  rw [← assessGenes_blank, ← hrename name' _ hother, h, hrename _ name, assessGenes_blank]
  · exact hok
  · rw [Gene.variant_blank, hvariant]

end GeneTree

namespace GeneTerm

variable {v w s x y : GeneTerm} {id wid : NodeId} {content other : GeneNode}
  {parts wparts others : List GeneTerm}

theorem blank_eq_of_stencil (h : (node wid other wparts).stencil = (node id content parts).stencil) :
    other.gene.blank.rename (fun _ => ⟨0⟩) = content.gene.blank.rename fun _ => ⟨0⟩ := by
  rw [stencil, stencil, node.injEq] at h
  exact congrArg GeneNode.gene h.2.1

theorem variant_eq_of_stencil (h : (node wid other wparts).stencil = (node id content parts).stencil) :
    other.variant = content.variant := by
  have hvariant := congrArg Gene.variant (blank_eq_of_stencil h)
  rwa [Gene.variant_rename, Gene.variant_rename, Gene.variant_blank, Gene.variant_blank] at hvariant

/-- Where a term is paired with another one, so is every term with the same bounds. -/
theorem exists_pairing (h : (node wid other wparts).stencil = (node id content parts).stencil)
    {r : GeneTerm × GeneTerm} (hr : r ∈ pairings other.gene.isCollection wparts others) :
    ∃ p, (p, r.2) ∈ pairings content.gene.isCollection parts others ∧ r.1.stencil = p.stencil := by
  have hc := Gene.isCollection_of_variant (variant_eq_of_stencil h)
  -- of a collection the bounds only show the template, and that is all that the pairs need
  have hpairs : (pairings content.gene.isCollection wparts others).map (Prod.map stencil fun q => q) =
      (pairings content.gene.isCollection parts others).map (Prod.map stencil fun q => q) := by
    rw [stencil, stencil, hc, node.injEq] at h
    rw [← pairings_map, ← pairings_map]
    have hparts := h.2.2
    cases hcoll : content.gene.isCollection with
    | false =>
      simp only [hcoll, Bool.false_eq_true, if_false] at hparts
      rw [hparts]
    | true =>
      rw [hcoll, if_pos rfl, if_pos rfl] at hparts
      rw [pairings, pairings, if_pos rfl, if_pos rfl, hparts]
  rw [hc] at hr
  have hmem := List.mem_map_of_mem (f := Prod.map stencil fun q => q) hr
  rw [hpairs] at hmem
  obtain ⟨⟨p, q⟩, hpq, he⟩ := List.mem_map.mp hmem
  obtain ⟨hp, rfl⟩ := Prod.mk.inj he
  exact ⟨p, hpq, hp.symm⟩

/-- What a term admits depends on its bounds only. -/
theorem Admits.of_stencil (h : v.Admits x) (hw : w.stencil = v.stencil) : w.Admits x := by
  induction h generalizing w with
  | node variant value below ih =>
    obtain ⟨wid, wcontent, wparts⟩ := w
    refine .node ((variant_eq_of_stencil hw).trans variant)
      (assessGenes_of_stencil (blank_eq_of_stencil hw) variant value) fun r hr => ?_
    obtain ⟨p, hp, hstencil⟩ := exists_pairing hw hr
    exact ih (p, r.2) hp hstencil

/-- Can the one term take over whatever the other one can? -/
def Encloses (v w : GeneTerm) : Prop := ∀ x, w.Admits x → v.Admits x

theorem Encloses.of_stencil (h : v.Encloses w) (hx : x.stencil = v.stencil) (hy : y.stencil = w.stencil) :
    x.Encloses y :=
  fun z hz => (h z (hz.of_stencil hy.symm)).of_stencil hx

theorem encloses_of_stencil (h : v.stencil = w.stencil) : v.Encloses w := fun _ hx => hx.of_stencil h

theorem encloses_leaf (hvariant : content.variant = other.variant) (hc : content.gene.isCollection = false)
    (h : ∀ g, assessGenes (fun _ _ => .ok ()) other.name other.gene g = .ok () →
      assessGenes (fun _ _ => .ok ()) content.name content.gene g = .ok ()) :
    (node id content []).Encloses (node wid other wparts) := by
  rintro x (⟨variant, value, -⟩)
  refine .node (hvariant.trans variant) (h _ value) fun r hr => ?_
  rw [hc] at hr
  cases hr

/-- Wider bounds enclose narrower ones. -/
theorem encloses_integer {name wname : String} {owner wowner : Option NodeId} {a b min max low high : Int32}
    (hlow : min ≤ low) (hhigh : high ≤ max) :
    (node id ⟨name, .integer a min max, owner⟩ []).Encloses
      (node wid ⟨wname, .integer b low high, wowner⟩ wparts) := by
  refine encloses_leaf rfl rfl fun g h => ?_
  cases g
  case integer value _ _ =>
    simp only [assessGenes, requireBounds, within, Bool.and_eq_true, decide_eq_true_eq] at h ⊢
    split at h
    · next hwithin => rw [if_pos ⟨Int32.le_trans hlow hwithin.1, Int32.le_trans hwithin.2 hhigh⟩]
    · cases h
  all_goals rfl

/-- Does a term enclose the members that would come below it if it took over the value of another one? -/
inductive EnclosesMembers : GeneTerm → GeneTerm → Prop where
  | unlike {id sid : NodeId} {content theirs : GeneNode} {parts others : List GeneTerm}
    (hvariant : content.variant ≠ theirs.variant) :
    EnclosesMembers (node id content parts) (node sid theirs others)
  | collection {id sid : NodeId} {content theirs : GeneNode} {parts others : List GeneTerm}
    (hc : content.gene.isCollection = true)
    (hencloses : ∀ r ∈ pairings content.gene.isCollection parts others, r.1.Encloses r.2) :
    EnclosesMembers (node id content parts) (node sid theirs others)
  | plain {id sid : NodeId} {content theirs : GeneNode} {parts others : List GeneTerm}
    (hc : content.gene.isCollection = false)
    (below : ∀ r ∈ pairings content.gene.isCollection parts others, EnclosesMembers r.1 r.2) :
    EnclosesMembers (node id content parts) (node sid theirs others)

theorem EnclosesMembers.of_stencil (h : v.EnclosesMembers s) (hw : w.stencil = v.stencil) :
    w.EnclosesMembers s := by
  induction h generalizing w with
  | unlike hvariant =>
    obtain ⟨wid, wcontent, wparts⟩ := w
    refine .unlike ?_
    rwa [variant_eq_of_stencil hw]
  | collection hc hencloses =>
    obtain ⟨wid, wcontent, wparts⟩ := w
    refine .collection ((Gene.isCollection_of_variant (variant_eq_of_stencil hw)).trans hc) fun r hr => ?_
    obtain ⟨p, hp, hstencil⟩ := exists_pairing hw hr
    exact (hencloses (p, r.2) hp).of_stencil hstencil rfl
  | plain hc below ih =>
    obtain ⟨wid, wcontent, wparts⟩ := w
    refine .plain ((Gene.isCollection_of_variant (variant_eq_of_stencil hw)).trans hc) fun r hr => ?_
    obtain ⟨p, hp, hstencil⟩ := exists_pairing hw hr
    exact ih (p, r.2) hp hstencil

end GeneTerm

/-- Does a binary number lie within its bounds, and does a template enclose the members? -/
def PatternAt (g : Gene) (parts : List GeneTerm) : Prop :=
  g.Bounded ∧ (g.isCollection = true → ∀ p ∈ parts.take 1, ∀ m ∈ parts.drop 1, p.Encloses m)

/-- Does a node have a value that it can take over itself, and members that their template encloses? -/
def ConformsAt (g : Gene) (parts : List GeneTerm) : Prop :=
  (DomainAt g parts ∧ PatternAt g parts) ∧ g.HasChoice

theorem lasts_patternAt : Lasts PatternAt where
  rename f g parts := by
    rw [PatternAt, PatternAt, Gene.bounded_rename, Gene.isCollection_rename]
  faces {g parts parts'} he h := by
    refine ⟨h.1, fun hc p hp m hm => ?_⟩
    have hstencil := map_stencil_of_face he
    have hp' := List.mem_map_of_mem (f := stencil) hp
    have hm' := List.mem_map_of_mem (f := stencil) hm
    rw [List.map_take, hstencil, ← List.map_take] at hp'
    rw [List.map_drop, hstencil, ← List.map_drop] at hm'
    obtain ⟨p₀, hp₀, hpe⟩ := List.mem_map.mp hp'
    obtain ⟨m₀, hm₀, hme⟩ := List.mem_map.mp hm'
    exact (h.2 hc p₀ hp₀ m₀ hm₀).of_stencil hpe.symm hme.symm
  varies {g k parts} hc hg h := by
    have hck := (Gene.isCollection_of_blank_eq hg.blank).trans hc
    exact ⟨hg.bounded h.1, fun hck' => by simp [hck] at hck'⟩
  fewer {g template old new} hc hshape hsub h := by
    refine ⟨Gene.bounded_of_isCollection (by rwa [Gene.isCollection_withMembers]), fun _ p hp m hm => ?_⟩
    exact h.2 hc p hp m (hsub.subset hm)
  more {g template w members} hc hlt hw hname h := by
    refine ⟨Gene.bounded_of_isCollection (by rwa [Gene.isCollection_withMembers]), fun _ p hp m hm => ?_⟩
    rcases List.mem_append.mp hm with hm | hm
    · exact h.2 hc p hp m hm
    · obtain rfl := List.mem_singleton.mp hm
      obtain rfl := List.mem_singleton.mp hp
      exact encloses_of_stencil hw.symm

theorem lasts_hasChoice : Lasts fun g _ => g.HasChoice where
  rename f g _ := Gene.hasChoice_rename f g
  faces _ h := h
  varies {g k _} _ hg h := by
    rwa [← Gene.hasChoice_blank, hg.blank, Gene.hasChoice_blank]
  fewer hc _ _ _ := Gene.hasChoice_of_isCollection (by rwa [Gene.isCollection_withMembers])
  more hc _ _ _ _ := Gene.hasChoice_of_isCollection (by rwa [Gene.isCollection_withMembers])

theorem lasts_conformsAt : Lasts ConformsAt := (lasts_domainAt.and lasts_patternAt).and lasts_hasChoice

namespace GeneTerm

variable {v s : GeneTerm}

/-- A term that conforms admits its own value, and its templates admit those of the members. -/
theorem admits_self (h : s.Every ConformsAt) : s.Admits s := by
  induction s using induct with
  | node id content parts ih =>
    have hparts : ∀ p ∈ parts, p.Admits p := fun p hp => ih p hp (h.of_part hp)
    rw [Every] at h
    obtain ⟨⟨⟨hdomain, -⟩, hbounded, hpattern⟩, hchoice⟩ := h.1
    refine .node rfl (assessGenes_self _ hdomain hbounded hchoice) fun r hr => ?_
    cases hc : content.gene.isCollection with
    | true =>
      -- the template encloses the member, which admits itself
      rw [hc] at hr
      obtain ⟨p, hp, hr⟩ := List.mem_flatMap.mp hr
      obtain ⟨m, hm, rfl⟩ := List.mem_map.mp hr
      exact hpattern hc p hp m hm m (hparts m (List.mem_of_mem_drop hm))
    | false =>
      rw [hc, pairings, if_neg Bool.false_ne_true, List.zip, List.zipWith_self] at hr
      obtain ⟨p, hp, rfl⟩ := List.mem_map.mp hr
      exact hparts p hp

theorem imports_conformsAt : Imports ConformsAt fun v s => s.Every ConformsAt ∧ v.EnclosesMembers s where
  parts {id sid content theirs parts others} hc hvariant h r hr := by
    refine ⟨h.1.of_part (List.of_mem_zip hr).2, ?_⟩
    cases h.2 with
    | unlike hne => exact absurd hvariant hne
    | collection hc' => simp [hc] at hc'
    | plain _ below =>
      rw [hc] at below
      exact below r hr
  members {id sid content theirs template q old new} hc hvariant hshape hsize h hold := by
    have hnode := h.1
    rw [Every] at hnode
    have hc' : (content.gene.withMembers (new.map GeneTerm.id)).isCollection = true := by
      rwa [Gene.isCollection_withMembers]
    refine ⟨⟨⟨hnode.1.1.1.withMembers hc hvariant hsize, Gene.bounded_of_isCollection hc',
      fun _ p hp m hm => ?_⟩, Gene.hasChoice_of_isCollection hc'⟩,
      fun m hm => h.1.of_part (List.mem_cons_of_mem _ hm)⟩
    obtain rfl := List.mem_singleton.mp hp
    cases h.2 with
    | unlike hne => exact absurd hvariant hne
    | collection _ hencloses =>
      rw [hc] at hencloses
      exact hencloses (p, m) (by simpa [pairings] using hm)
    | plain hc' => simp [hc] at hc'

theorem accepts_conformsAt (hv : v.Shaped) (hs : s.Shaped) (hconforms : s.Every ConformsAt)
    (hencloses : v.EnclosesMembers s) : v.Accepts ConformsAt s :=
  fun h hadmits => imports_conformsAt.every_overlay lasts_conformsAt hv hs ⟨hconforms, hencloses⟩ h hadmits

end GeneTerm
end CallEvolution
