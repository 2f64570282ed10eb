import CallEvolution.Proofs.Domains
import CallEvolution.Proofs.Patterns

/-! Members of collections stay legal for their templates, as long as the templates enclose those that come
from elsewhere. A value alone does not tell: the bounds of a member go along and steer what is drawn later. -/

namespace CallEvolution

open GeneTerm GeneTree

namespace GeneTerm

/-- The bounds of the core are the core of the bounds. -/
theorem core_stencil (v : GeneTerm) : v.stencil.core = v.core.stencil := by
  induction v using induct with
  | node id content parts ih =>
    by_cases hw : content.gene.isWrapper = true
    · have hc := Gene.not_isCollection_of_isWrapper hw
      cases parts with
      | nil => simp [stencil, core, hw, hc, Gene.isWrapper_rename, Gene.isWrapper_blank]
      | cons p parts =>
        have hp := ih p (by simp)
        simp [stencil, core, hw, hc, Gene.isWrapper_rename, Gene.isWrapper_blank, hp]
    · simp [stencil, core, hw, Gene.isWrapper_rename, Gene.isWrapper_blank]

theorem core_stencil_eq {v w : GeneTerm} (h : w.stencil = v.stencil) : w.core.stencil = v.core.stencil := by
  rw [← core_stencil, h, core_stencil]

end GeneTerm

namespace GeneTree

/-- Can the template of every collection take over the members? -/
def FollowsTemplates (t : GeneTree) : Prop :=
  ∀ id g template members, t.gene id = .ok g → g.isCollection = true → g.owned = template :: members →
    ∀ m ∈ members, t.assessCopy template t m = .ok ()

variable {t : GeneTree} {v : GeneTerm} {P : Gene → List GeneTerm → Prop}

theorem Unfolds.followsTemplates (hv : t.Unfolds v) (h : v.Every ConformsAt) : t.FollowsTemplates := by
  intro id g template members hg hc howned m hm
  obtain ⟨content, parts, hp, rfl, hnode⟩ := hv.every_at h hg
  have hshaped := hp.shaped
  rw [Shaped, howned] at hshaped
  obtain ⟨p, ps, rfl, rfl, rfl⟩ := List.map_eq_cons_iff.mp hshaped.1
  obtain ⟨q, hq, rfl⟩ := List.mem_map.mp hm
  have hmem : q ∈ p :: ps := List.mem_cons_of_mem _ hq
  have hself := admits_self (hnode.of_part hmem)
  rw [Every] at hnode
  rw [assessCopy_iff (hp.parts.each p (by simp)) (hp.parts.each q hmem)]
  exact hnode.1.1.2.2 hc p (by simp) q hq q hself

/-- A condition on genes alone holds throughout a term. -/
theorem Holds.every_gene {R : Gene → Prop} (hv : t.Holds v) (h : ∀ id g, t.gene id = .ok g → R g) :
    v.Every fun g _ => R g := by
  induction v using GeneTerm.induct with
  | node id content parts ih =>
    rw [Every]
    exact ⟨h id _ (gene_of_get? hv.get?_node), fun p hp => ih p hp (hv.parts.each p hp)⟩

theorem begins_patternAt : Begins PatternAt where
  leaf _ hbounded := ⟨hbounded, fun _ p hp => by simp at hp⟩
  inner _ hbounded hc := ⟨hbounded, fun hc' => by simp [hc] at hc'⟩
  collection _ hbounded := ⟨hbounded, fun _ p _ m hm => by simp at hm⟩

theorem Built.conforms (h : Built t) (hchoices : ∀ id g, t.gene id = .ok g → g.HasChoice) :
    t.IsMade ConformsAt := by
  obtain ⟨v, hv, hmade⟩ := h.isMade (lasts_domainAt.and lasts_patternAt)
    (begins_domainAt.and begins_patternAt)
  exact ⟨v, hv, every_and.mpr ⟨hmade, hv.holds.every_gene hchoices⟩⟩

/-- What a tree holds at a node is seen in the arena. -/
theorem Holds.exists_parts {n : GeneNode} (hv : t.Holds v) (hn : t.get? v.id = some n) :
    ∃ parts, v = .node v.id n parts ∧ parts.map GeneTerm.id = n.gene.owned ∧ ∀ p ∈ parts, t.Holds p := by
  obtain ⟨id, content, parts⟩ := v
  have hshaped := hv.shaped
  rw [Shaped] at hshaped
  obtain rfl := Option.some.inj (hv.get?_node.symm.trans hn)
  exact ⟨parts, rfl, hshaped.1, hv.parts.each⟩

theorem IsMade.every (h : t.IsMade P) (hv : t.Holds v) : v.Every P := by
  obtain ⟨w, hw, hmade⟩ := h
  obtain ⟨hs, p, rfl, hp, -⟩ := exists_plug (hw.full v.id (contains_of_get? hv.get?_id))
  rw [← hw.holds.of_plug.eq_of_id hv hp]
  exact hmade.of_plug

end GeneTree

namespace TreeCall

/-- Does a call put no leaf in place by hand, and take values over at the root of `t` only, whose templates
enclose the members that come with them? -/
def EnclosedBy (t : GeneTree) : TreeCall → Prop
  | copyFrom x src y | adopt x src y =>
    x = t.root ∧ src.IsMade ConformsAt ∧ ∀ v s : GeneTerm, t.Unfolds v → src.Holds s → s.id = y →
      v.EnclosesMembers s ∧ v.core.EnclosesMembers s
  | setLeaf .. => False
  | _ => True

theorem EnclosedBy.upholds {call : TreeCall} {t u : GeneTree} {v : GeneTerm} (h : call.EnclosedBy t)
    (hv : t.Unfolds v) (hu : u.Sustains ConformsAt v) : call.Upholds ConformsAt u := by
  cases call with
  | copyFrom id src srcId | adopt id src srcId =>
    obtain ⟨rfl, hsrc, hencloses⟩ := h
    refine ⟨wellFormed_iff.mpr (hsrc.imp fun s hs => hs.1), fun w s hw hs hwu hssrc => ?_⟩
    obtain ⟨x, hx, hroot, hstencil, -⟩ := hu
    -- the only term at the root is the one with the bounds that were there first
    obtain rfl := hx.holds.eq_of_id hwu ((hroot.trans hv.root).trans hw.symm)
    obtain ⟨hmembers, hcore⟩ := hencloses v s hv hssrc hs
    have hconforms := hsrc.every hssrc
    exact ⟨accepts_conformsAt hwu.shaped hssrc.shaped hconforms (hmembers.of_stencil hstencil),
      accepts_conformsAt hwu.core.shaped hssrc.shaped hconforms
        (hcore.of_stencil (core_stencil_eq hstencil))⟩
  | setLeaf id g => exact h.elim
  | randomize id forceNew | mutate c steering id | setActive id on => trivial

variable {γ : Type} [RandomSource γ]

theorem sustains_conformsAt {calls : List TreeCall} {t u : GeneTree} {s s' : γ} (ht : Built t)
    (hchoices : ∀ id g, t.gene id = .ok g → g.HasChoice) (hcalls : ∀ call ∈ calls, call.EnclosedBy t)
    (h : leaveAll calls t s = .ok (u, s')) : ∃ v, t.Unfolds v ∧ u.Sustains ConformsAt v := by
  obtain ⟨v, hv, hconforms⟩ := ht.conforms hchoices
  exact ⟨v, hv, sustains_of_leaveAll lasts_conformsAt ⟨v, hv, rfl, rfl, hconforms⟩
    (fun call hcall _ hu => (hcalls call hcall).upholds hv hu) ⟨s, s', h⟩⟩

/-- The members of all collections stay legal for their templates over runs of calls, whatever is drawn, and
the tree that was there first takes over the value of the one that is left. -/
theorem members_follow_templates {calls : List TreeCall} {t u : GeneTree} {s s' : γ} (ht : Built t)
    (hchoices : ∀ id g, t.gene id = .ok g → g.HasChoice) (hcalls : ∀ call ∈ calls, call.EnclosedBy t)
    (h : leaveAll calls t s = .ok (u, s')) :
    u.FollowsTemplates ∧ ∃ w, (Edit.copyFrom t.root u u.root).run.run t = .ok (.ok (), w) := by
  obtain ⟨v, hv, w, hw, -, hstencil, hevery⟩ := sustains_conformsAt ht hchoices hcalls h
  refine ⟨hw.followsTemplates hevery, ?_⟩
  -- the bounds are still those of the first tree, which therefore admits what the last one admits
  have hadmits : v.Admits w := (admits_self hevery).of_stencil hstencil.symm
  have hassess := (assessCopy_iff hv.holds hw.holds).mpr hadmits
  have hcopy := Edit.ensures_copyFrom hv.exact hv.holds hw.holds hassess
  rw [hv.root, hw.root] at hcopy
  obtain ⟨⟨r, x⟩, hr⟩ := hcopy.1
  obtain ⟨rfl, -⟩ := hcopy.2 r x hr
  exact ⟨x, hr⟩

/-- An array of numbers that has one member. -/
def oneNumber (low high : Int32) : GeneTree where
  slots := #[some ⟨"xs", .array ⟨1⟩ [⟨2⟩] 5, none⟩, some ⟨"x", .integer low low high, some ⟨0⟩⟩,
    some ⟨"x", .integer 5 low high, some ⟨0⟩⟩]
  free := []
  root := ⟨0⟩

/-- No number is a choice without values. -/
theorem hasChoice_of_numbers {low high : Int32} {id : NodeId} {g : Gene}
    (h : (array "xs" (integerIn "x" low high) 5).gene id = .ok g) : g.HasChoice := by
  have hpart : (integerIn "x" low high).IsMade fun g _ => g.HasChoice := by
    simp only [integerIn]
    exact isMade_leaf "x" rfl trivial
  have hmade : (array "xs" (integerIn "x" low high) 5).IsMade fun g _ => g.HasChoice :=
    isMade_wrapper lasts_hasChoice "xs" hpart (fun _ => rfl) fun _ _ => trivial
  obtain ⟨v, hv, hevery⟩ := hmade
  obtain ⟨content, parts, -, rfl, hnode⟩ := hv.every_at hevery h
  rw [Every] at hnode
  exact hnode.1

theorem conforms_oneNumber {low high : Int32} (seed : UInt64)
    (h : (leaveAll [.randomize ⟨0⟩ true] (array "xs" (integerIn "x" low high) 5)
      (⟨[], seed⟩ : WordSource)).map Prod.fst = .ok (oneNumber low high)) :
    (oneNumber low high).IsMade ConformsAt := by
  obtain ⟨⟨u, s⟩, hu, rfl⟩ := ok_of_map h
  have hcalls : ∀ call ∈ [TreeCall.randomize ⟨0⟩ true],
      call.EnclosedBy (array "xs" (integerIn "x" low high) 5) := List.forall_mem_singleton.mpr trivial
  obtain ⟨v, -, w, hw, -, -, hevery⟩ := sustains_conformsAt (.array "xs" 5 (.integerIn "x" low high))
    (fun _ _ hg => hasChoice_of_numbers hg) hcalls hu
  exact ⟨w, hw, hevery⟩

theorem enclosesMembers_oneNumber {v s : GeneTerm} (hv : (array "xs" (integerIn "x" 0 9) 5).Unfolds v)
    (hs : (oneNumber 2 7).Holds s) (hid : s.id = ⟨0⟩) : v.EnclosesMembers s ∧ v.core.EnclosesMembers s := by
  obtain ⟨parts, hnode, hids, hparts⟩ := hv.holds.exists_parts (n := ⟨"xs", .array ⟨1⟩ [] 5, none⟩) (by
    rw [hv.root]
    decide +kernel)
  obtain ⟨p, rfl, hp⟩ := List.map_eq_singleton_iff.mp hids
  obtain ⟨below, htemplate, hbelow, -⟩ := (hparts p (by simp)).exists_parts
    (n := ⟨"x", .integer 0 0 9, some ⟨0⟩⟩) (by
      rw [hp]
      decide +kernel)
  obtain rfl := List.map_eq_nil_iff.mp hbelow
  obtain ⟨others, hsource, hothers, hmembers⟩ := hs.exists_parts
    (n := ⟨"xs", .array ⟨1⟩ [⟨2⟩] 5, none⟩) (by
      rw [hid]
      decide +kernel)
  obtain ⟨q, rest, rfl, -, hrest⟩ := List.map_eq_cons_iff.mp hothers
  obtain ⟨m, rfl, hm⟩ := List.map_eq_singleton_iff.mp hrest
  obtain ⟨rest, hmember, -, -⟩ := (hmembers m (by simp)).exists_parts
    (n := ⟨"x", .integer 5 2 7, some ⟨0⟩⟩) (by
      rw [hm]
      decide +kernel)
  have hencloses : p.Encloses m := by
    rw [htemplate, hmember]
    exact encloses_integer (by decide) (by decide)
  rw [hnode, core_self rfl, and_self, hsource]
  refine .collection rfl fun r hr => ?_
  obtain rfl := List.mem_singleton.mp hr
  exact hencloses

/-- A member with narrower bounds than the template comes from elsewhere and is mutated within them. -/
theorem members_follow_templates_of_numbers :
    ∃ (u : GeneTree) (s : WordSource), leaveAll
      [.copyFrom ⟨0⟩ (oneNumber 2 7) ⟨0⟩, .mutate {} .uniform ⟨0⟩]
      (array "xs" (integerIn "x" 0 9) 5) ⟨[], 3⟩ = .ok (u, s) ∧
      u.gene ⟨2⟩ = .ok (.integer 3 2 7) ∧ u.FollowsTemplates ∧
        ∃ w, (Edit.copyFrom ⟨0⟩ u u.root).run.run (array "xs" (integerIn "x" 0 9) 5) = .ok (.ok (), w) := by
  have hrun : (leaveAll [.copyFrom ⟨0⟩ (oneNumber 2 7) ⟨0⟩, .mutate {} .uniform ⟨0⟩]
      (array "xs" (integerIn "x" 0 9) 5) (⟨[], 3⟩ : WordSource)).map
      (fun r => r.1.gene ⟨2⟩) = .ok (.ok (.integer 3 2 7)) := by decide +kernel
  obtain ⟨⟨u, s⟩, hleave, hu⟩ := ok_of_map hrun
  have hsource : (oneNumber 2 7).IsMade ConformsAt := conforms_oneNumber 11 (by decide +kernel)
  have hcalls : ∀ call ∈ [TreeCall.copyFrom ⟨0⟩ (oneNumber 2 7) ⟨0⟩, .mutate {} .uniform ⟨0⟩],
      call.EnclosedBy (array "xs" (integerIn "x" 0 9) 5) :=
    List.forall_mem_cons.mpr ⟨⟨by decide +kernel, hsource, fun _ _ => enclosesMembers_oneNumber⟩,
      List.forall_mem_singleton.mpr trivial⟩
  obtain ⟨hfollows, hcopy⟩ := members_follow_templates (.array "xs" 5 (.integerIn "x" 0 9))
    (fun _ _ hg => hasChoice_of_numbers hg) hcalls hleave
  exact ⟨u, s, hleave, hu, hfollows, hcopy⟩

/-- The value of a member is legal when it is taken over, but its bounds are those of another template. It
leaves the bounds of the template at the next change, and cannot be taken back. -/
theorem members_leave_template :
    (oneNumber 0 100).WellFormed ∧ (oneNumber 0 100).InDomain ∧
      ∃ (u : GeneTree) (s : WordSource), leaveAll
        [.copyFrom ⟨0⟩ (oneNumber 0 100) ⟨0⟩, .mutate {} .uniform ⟨0⟩]
        (array "xs" (integerIn "x" 0 9) 5) ⟨[], 3⟩ = .ok (u, s) ∧
        u.gene ⟨2⟩ = .ok (.integer 64 0 100) ∧ u.assessCopy ⟨1⟩ u ⟨2⟩ = .error (.outOfBounds "x") ∧
          (Edit.copyFrom ⟨0⟩ u u.root).run.run (array "xs" (integerIn "x" 0 9) 5) =
            .ok (.error (.outOfBounds "x"), array "xs" (integerIn "x" 0 9) 5) := by
  obtain ⟨v, hv, hevery⟩ : (oneNumber 0 100).IsMade ConformsAt := conforms_oneNumber 852 (by decide +kernel)
  refine ⟨hv.wellFormed, hv.inDomain_iff.mpr (every_and.mp (every_and.mp hevery).1).1, ?_⟩
  have hrun : (leaveAll [.copyFrom ⟨0⟩ (oneNumber 0 100) ⟨0⟩, .mutate {} .uniform ⟨0⟩]
      (array "xs" (integerIn "x" 0 9) 5) (⟨[], 3⟩ : WordSource)).map
      (fun r => (r.1.gene ⟨2⟩, r.1.assessCopy ⟨1⟩ r.1 ⟨2⟩,
        (Edit.copyFrom ⟨0⟩ r.1 r.1.root).run.run (array "xs" (integerIn "x" 0 9) 5))) =
      .ok (.ok (.integer 64 0 100), .error (.outOfBounds "x"),
        .ok (.error (.outOfBounds "x"), array "xs" (integerIn "x" 0 9) 5)) := by decide +kernel
  obtain ⟨⟨u, s⟩, hleave, hu⟩ := ok_of_map hrun
  obtain ⟨hgene, hu⟩ := Prod.mk.inj hu
  obtain ⟨hmember, hcopy⟩ := Prod.mk.inj hu
  exact ⟨u, s, hleave, hgene, hmember, hcopy⟩

end TreeCall
end CallEvolution
