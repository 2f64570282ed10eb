import CallEvolution.Proofs.Admission

/-! A condition on nodes that lasts: the values lie in their domains. -/

namespace CallEvolution

open GeneTerm

/-- Is the value of a node in its domain? The members of a map are told apart by their names. -/
def DomainAt (g : Gene) (parts : List GeneTerm) : Prop :=
  g.InDomain ∧ (g.variant = .map → ((parts.drop 1).map (·.content.name)).Nodup)

namespace Gene

theorem inDomain_rename (f : NodeId → NodeId) (g : Gene) : (g.rename f).InDomain ↔ g.InDomain := by
  cases g <;> simp [rename, InDomain]

theorem variant_ne_map {g : Gene} (h : g.isCollection = false) : g.variant ≠ .map := by
  cases g <;> simp_all [variant, isCollection]

theorem inDomain_withMembers {g : Gene} (h : g.isCollection = true) (items : List NodeId) :
    (g.withMembers items).InDomain ↔ items.length ≤ g.capacity := by
  cases g
  case array | map => rfl
  all_goals cases h

end Gene

theorem map_name_of_face {vs ws : List GeneTerm} (h : vs.map face = ws.map face) :
    vs.map (·.content.name) = ws.map (·.content.name) := by
  have hfst := congrArg (List.map Prod.fst) h
  rwa [List.map_map, List.map_map] at hfst

theorem lasts_domainAt : Lasts DomainAt where
  rename f g parts := by
    rw [DomainAt, DomainAt, Gene.inDomain_rename, Gene.variant_rename]
  faces {g parts parts'} he h := by
    refine ⟨h.1, fun hmap => ?_⟩
    rw [List.map_drop, map_name_of_face he, ← List.map_drop]
    exact h.2 hmap
  varies {g k parts} hc hg h := by
    have hck := (Gene.isCollection_of_blank_eq hg.blank).trans hc
    exact ⟨hg.inDomain h.1, fun hmap => absurd hmap (Gene.variant_ne_map hck)⟩
  fewer {g template old new} hc hshape hsub h := by
    refine ⟨(Gene.inDomain_withMembers hc _).mpr ?_, fun hmap => ?_⟩
    · have hold := Gene.length_le_capacity hc hshape h.1
      have hle := hsub.length_le
      rw [List.length_map] at hold ⊢
      omega
    · rw [Gene.variant_withMembers] at hmap
      exact (h.2 hmap).sublist (hsub.map _)
  more {g template w members} hc hlt hw hname h := by
    refine ⟨(Gene.inDomain_withMembers hc _).mpr ?_, fun hmap => ?_⟩
    · rw [List.length_map, List.length_append, List.length_singleton]
      omega
    · rw [Gene.variant_withMembers] at hmap
      rw [List.drop_one, List.tail_cons, List.map_append, List.map_singleton]
      refine List.nodup_append.mpr ⟨h.2 hmap, List.nodup_singleton _, fun x hx y hy he => ?_⟩
      rw [List.mem_singleton.mp hy] at he
      exact hname hmap (he ▸ hx)

/-- The members of a collection may be those of another one. -/
theorem DomainAt.withMembers {g k : Gene} {template q : GeneTerm} {new : List GeneTerm}
    (h : DomainAt k (q :: new)) (hc : g.isCollection = true) (hvariant : g.variant = k.variant)
    (hsize : new.length ≤ g.capacity) : DomainAt (g.withMembers (new.map GeneTerm.id)) (template :: new) := by
  refine ⟨(Gene.inDomain_withMembers hc _).mpr ?_, fun hmap => ?_⟩
  · rwa [List.length_map]
  · rw [Gene.variant_withMembers] at hmap
    exact h.2 (hvariant.symm.trans hmap)

/-- A value that lies in its domain may be taken over from any source. -/
theorem imports_domainAt : Imports DomainAt fun _ s => s.Every DomainAt where
  parts _ _ hs r hr := hs.of_part (List.of_mem_zip hr).2
  members hc hvariant _ hsize hs _ := by
    refine ⟨?_, fun m hm => hs.of_part (List.mem_cons_of_mem _ hm)⟩
    rw [Every] at hs
    exact hs.1.withMembers hc hvariant hsize

theorem GeneTerm.accepts_domainAt {v s : GeneTerm} (hv : v.Shaped) (hs : s.Shaped)
    (hold : s.Every DomainAt) : v.Accepts DomainAt s :=
  fun h hadmits => imports_domainAt.every_overlay lasts_domainAt hv hs hold h hadmits

end CallEvolution
