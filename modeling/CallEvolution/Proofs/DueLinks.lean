import CallEvolution.Proofs.Relinking

/-! Linking all actions, and linking one action anew. The first registers the links that an individual
should have, the second those of them that involve the action. -/

namespace CallEvolution

open Attempt

theorem idxOf_le_iff_mem {α : Type} [DecidableEq α] {pre post : List α} {x y : α}
    (h : (pre ++ y :: post).Nodup) (hne : x ≠ y) :
    (pre ++ y :: post).idxOf x ≤ (pre ++ y :: post).idxOf y ↔ x ∈ pre := by
  have hy : y ∉ pre := fun hy => (List.nodup_append.mp h).2.2 y hy y (by simp) rfl
  have hlast : (pre ++ y :: post).idxOf y = pre.length := by
    rw [List.idxOf_append_of_notMem hy, List.idxOf_cons_self, Nat.add_zero]
  rw [hlast]
  by_cases hmem : x ∈ pre
  · have hlt := List.idxOf_lt_length_of_mem hmem
    rw [List.idxOf_append_of_mem hmem]
    exact ⟨fun _ => hmem, fun _ => by omega⟩
  · rw [List.idxOf_append_of_notMem hmem, List.idxOf_cons_ne _ (Ne.symm hne)]
    constructor
    · intro hle
      omega
    · exact fun hpre => absurd hpre hmem

theorem mem_of_split {α : Type} {pre post pre' post' : List α} {x y : α}
    (h : pre ++ x :: post = pre' ++ y :: post') (hnodup : (pre ++ x :: post).Nodup) (hx : x ∈ pre') :
    y ∈ post := by
  have hpre : x ∉ pre := fun hmem => (List.nodup_append.mp hnodup).2.2 x hmem x (by simp) rfl
  rcases List.append_eq_append_iff.mp h with ⟨as, hpre', hpost⟩ | ⟨as, hpre', -⟩
  · cases as with
    | nil =>
      rw [List.append_nil] at hpre'
      exact absurd (hpre' ▸ hx) hpre
    | cons z as =>
      rw [List.cons_append] at hpost
      rw [(List.cons.inj hpost).2]
      simp
  · exact absurd (hpre' ▸ List.mem_append_left as hx) hpre

namespace Individual

variable {ind : Individual} {a b : Action} {l : Link} {pre post : List Action}

theorem mainIds_nodup (hids : ind.ids.Nodup) : ind.mainIds.Nodup := by
  rw [ids_eq, List.nodup_append] at hids
  exact hids.2.1

theorem eq_of_id_eq (hids : ind.ids.Nodup) (ha : a ∈ ind.main) (hb : b ∈ ind.main)
    (h : a.id = b.id) : a = b := List.inj_on_of_nodup_map (mainIds_nodup hids) ha hb h

/-- A link between two main actions is allowed if the source comes first. -/
theorem allows_iff_mem (hids : ind.ids.Nodup) (hmain : ind.main = pre ++ b :: post) (ha : a ∈ ind.main)
    (hne : a.id ≠ b.id) (horigin : l.origin = .params) (hsource : l.source.action = a.id)
    (htarget : l.target.action = b.id) : ind.allows l = true ↔ a ∈ pre := by
  have hb : b ∈ ind.main := by simp [hmain]
  have hmem : ∀ c ∈ ind.main, c.id ∈ ind.ids := fun c hc => by
    rw [ids_eq]
    exact List.mem_append_right _ (List.mem_map_of_mem hc)
  have hsplit : ind.ids = (ind.initIds ++ pre.map Action.id) ++ b.id :: post.map Action.id := by
    rw [ids_eq, mainIds, hmain]
    simp
  have hnodup := hids
  have hain := hmem a ha
  rw [hsplit] at hnodup hain
  rw [allows_iff, horigin, hsource, htarget, hsplit]
  have hle := idxOf_le_iff_mem hnodup hne
  have hpre : a.id ∈ ind.initIds ++ pre.map Action.id ↔ a ∈ pre := by
    rw [List.mem_append]
    constructor
    · rintro (hinit | hmap)
      · rw [ids_eq, List.nodup_append] at hids
        exact absurd rfl (hids.2.2 a.id hinit a.id (List.mem_map_of_mem ha))
      · obtain ⟨c, hc, heq⟩ := List.mem_map.mp hmap
        have hcmain : c ∈ ind.main := by simp [hmain, hc]
        rwa [← eq_of_id_eq hids hcmain ha heq]
    · exact fun hmap => .inr (List.mem_map_of_mem hmap)
  have hbin : b.id ∈ (ind.initIds ++ pre.map Action.id) ++ b.id :: post.map Action.id := by simp
  simp only [hain, hbin, hle, hpre, and_self, true_and, reduceCtorEq, false_implies, forall_const,
    and_true]

/-- What a parameter offers is a gene of the individual. -/
theorem checkAddress_of_leads (hids : ind.ids.Nodup)
    (htrees : ∀ a ∈ ind.main, ∀ p ∈ a.params, p.gene.WellFormed) (ha : a ∈ ind.main)
    (hb : b ∈ ind.main) (h : l.Leads [a] [b]) :
    ind.checkAddress l.source = .ok () ∧ ind.checkAddress l.target = .ok () := by
  have hoffered : ∀ c ∈ ind.main, ∀ v ∈ ParamSite.ofAction c, ∀ address, v.Offers address →
      ind.checkAddress address = .ok () := by
    intro c hc v hv address hoffers
    obtain ⟨hgene, hp⟩ := gene_of_mem hids (List.mem_append_right _ hc) hv
    obtain ⟨haction, hparam, hfix⟩ := hoffers
    obtain ⟨n, hn⟩ := (htrees c hc v.param hp).exists_get? hfix
    have hget : v.tree.get? address.node = some n := hn
    have hnode := GeneTree.node_of_get? hget
    rw [checkAddress, haction, hparam, hgene]
    simp only [bind, Except.bind, hnode]
    rfl
  obtain ⟨⟨c, hc, v, hv, hsource⟩, d, hd, w, hw, htarget⟩ := h
  rw [List.mem_singleton] at hc hd
  subst hc hd
  exact ⟨hoffered c ha v hv _ hsource.1, hoffered d hb w hw _ htarget.1⟩

end Individual

namespace Linking

variable {γ α β : Type} {ind u v : Individual} {a : α} {b : β}

/-- A step that ends with one result and one individual, whatever words are drawn. -/
def Ends (x : Linking γ α) (ind : Individual) (a : α) (u : Individual) : Prop :=
  ∀ g, ∃ g', x.run.run ind g = .ok ((.ok a, u), g')

theorem Ends.bind {x : Linking γ α} {f : α → Linking γ β} (hx : Ends x ind a u)
    (hf : Ends (f a) u b v) : Ends (x >>= f) ind b v := by
  intro g
  obtain ⟨g', hg⟩ := hx g
  obtain ⟨g'', hg'⟩ := hf g'
  refine ⟨g'', ?_⟩
  change (x.run.run ind g >>= _) = _
  rw [hg]
  exact hg'

theorem ends_get (ind : Individual) : Ends (get : Linking γ Individual) ind ind ind := fun g => ⟨g, rfl⟩

theorem ends_search {s : Matching.Proposal γ α} (h : Settles s a) : Ends (search s) ind a ind := by
  intro g
  obtain ⟨g', hg⟩ := h g
  refine ⟨g', ?_⟩
  change (s.run g >>= fun r => Except.ok ((r.1, ind), r.2)) = _
  rw [hg]
  rfl

theorem ends_revise {m : Revision γ α} (h : Revision.Yields m ind (.ok a) u) :
    Ends (revise m) ind a u := by
  intro g
  refine ⟨g, ?_⟩
  change (m.run.run ind g >>= fun r => Except.ok ((r.1.1.mapError LinkError.action, r.1.2), r.2)) = _
  rw [h g]
  rfl

end Linking

namespace Linker

variable {γ : Type} [RandomSource γ] [Nonempty γ] {r : Linker} {ind : Individual} {a b : Action} {l : Link}
  {ls : List Link}

omit [RandomSource γ] in
/-- What is registered of some proposals, which name genes of the individual. -/
theorem exists_addLinks
    (h : ∀ l ∈ ls, ind.checkAddress l.source = .ok () ∧ ind.checkAddress l.target = .ok ()) :
    ∃ added, Revision.Yields (Revision.addLinks ls : Revision γ Nat) ind (.ok added.length)
        { ind with links := ind.links ++ added } ∧
      added.Nodup ∧ ∀ k, k ∈ added ↔ k ∉ ind.links ∧ k ∈ ls ∧ ind.admits k = true := by
  obtain ⟨n, u, hu⟩ := Revision.yields_addLinks (γ := γ) h
  obtain ⟨g⟩ := ‹Nonempty γ›
  obtain ⟨added, -, rfl, rfl, hnodup, hmem⟩ := Revision.added_of_addLinks ⟨g, g, hu g⟩
  exact ⟨added, hu, hnodup, hmem⟩

theorem admits_of_finds (hne : a.id ≠ b.id) (h : r.Finds γ a b l) :
    ind.admits l = true ↔ ind.allows l = true := by
  obtain ⟨hsource, htarget⟩ := ends_of_finds hne h
  have hdiffer : l.source ≠ l.target := fun he => hne (by rw [← hsource, ← htarget, he])
  simp [Individual.admits, hdiffer]

/-- The links that are due, by the place of the target. -/
theorem due_iff (hids : ind.ids.Nodup) :
    r.Due γ ind l ↔ ∃ pre b post, ind.main = pre ++ b :: post ∧ ∃ a ∈ pre, r.Finds γ a b l := by
  constructor
  · rintro ⟨a, ha, b, hb, hne, hfinds, hallows⟩
    obtain ⟨pre, post, hmain⟩ := List.append_of_mem hb
    obtain ⟨hsource, htarget⟩ := ends_of_finds hne hfinds
    have horigin := (leads_of_finds hne hfinds).1
    rw [Individual.allows_iff_mem hids hmain ha hne horigin hsource htarget] at hallows
    exact ⟨pre, b, post, hmain, a, hallows, hfinds⟩
  · rintro ⟨pre, b, post, hmain, a, ha, hfinds⟩
    have hnodup := Individual.mainIds_nodup hids
    rw [Individual.mainIds, hmain, List.map_append, List.map_cons, List.nodup_append] at hnodup
    have hne : a.id ≠ b.id := hnodup.2.2 a.id (List.mem_map_of_mem ha) b.id (by simp)
    have hamain : a ∈ ind.main := by simp [hmain, ha]
    obtain ⟨hsource, htarget⟩ := ends_of_finds hne hfinds
    have horigin := (leads_of_finds hne hfinds).1
    exact ⟨a, hamain, b, by simp [hmain], hne, hfinds,
      (Individual.allows_iff_mem hids hmain hamain hne horigin hsource htarget).mpr ha⟩

/-- Linking all actions of an individual without links registers the links that are due. -/
theorem exists_linkAll (hr : r.IsDefinite) (hids : ind.ids.Nodup)
    (htrees : ∀ a ∈ ind.main, ∀ p ∈ a.params, p.gene.WellFormed) :
    ∃ n u, Linking.Ends (r.linkAll : Linking γ Nat) ind.withoutLinks n u ∧
      ∀ l, l ∈ u.links ↔ r.Due γ ind l := by
  obtain ⟨ls, hls, hmem⟩ := settled_allProposals (γ := γ) [] ind.main hr htrees
  have hdue : ∀ l, l ∈ ls ↔ r.Due γ ind l := by
    intro l
    rw [hmem, due_iff hids]
    simp
  have hcheck : ∀ l ∈ ls, ind.withoutLinks.checkAddress l.source = .ok () ∧
      ind.withoutLinks.checkAddress l.target = .ok () := by
    intro l hl
    obtain ⟨a, ha, b, hb, hne, hfinds, -⟩ := (hdue l).mp hl
    exact Individual.checkAddress_of_leads hids htrees ha hb
      (leads_of_finds hne hfinds).2
  obtain ⟨added, hu, -, hadded⟩ := exists_addLinks (γ := γ) hcheck
  refine ⟨_, _, (Linking.ends_get _).bind ((Linking.ends_search hls).bind (Linking.ends_revise hu)), ?_⟩
  intro l
  rw [show ind.withoutLinks.links ++ added = added from rfl, hadded, hdue]
  refine ⟨fun hl => hl.2.1, fun hl => ?_⟩
  obtain ⟨a, ha, b, hb, hne, hfinds, hallows⟩ := id hl
  exact ⟨List.not_mem_nil, hl, (admits_of_finds hne hfinds).mpr hallows⟩

theorem takeWhile_of_split (hids : ind.ids.Nodup) {pre post : List Action}
    (hmain : ind.main = pre ++ a :: post) :
    ind.main.takeWhile (·.id ≠ a.id) = pre ∧ ind.main.dropWhile (·.id ≠ a.id) = a :: post := by
  have hnodup := Individual.mainIds_nodup hids
  rw [Individual.mainIds, hmain, List.map_append, List.map_cons, List.nodup_append] at hnodup
  have hpre : ∀ b ∈ pre, decide (b.id ≠ a.id) = true := fun b hb =>
    decide_eq_true (hnodup.2.2 b.id (List.mem_map_of_mem hb) a.id (by simp))
  rw [hmain, List.takeWhile_append_of_pos hpre, List.dropWhile_append_of_pos hpre]
  simp

theorem due_and_involves_iff (hids : ind.ids.Nodup) {pre post : List Action}
    (hmain : ind.main = pre ++ a :: post) :
    r.Due γ ind l ∧ l.involves a.id = true ↔
      (∃ b ∈ pre, r.Finds γ b a l) ∨ ∃ b ∈ post, r.Finds γ a b l := by
  have hnodup : ind.main.Nodup := (Individual.mainIds_nodup hids).of_map
  have ha : a ∈ ind.main := by simp [hmain]
  constructor
  · rintro ⟨⟨b, hb, c, hc, hne, hfinds, hallows⟩, hinvolves⟩
    obtain ⟨hsource, htarget⟩ := ends_of_finds hne hfinds
    have horigin := (leads_of_finds hne hfinds).1
    obtain ⟨pre', post', hmain'⟩ := List.append_of_mem hc
    rw [Individual.allows_iff_mem hids hmain' hb hne horigin hsource htarget] at hallows
    simp only [Link.involves, hsource, htarget, Bool.or_eq_true, decide_eq_true_eq] at hinvolves
    -- either end of the link may be the action
    rcases hinvolves with hba | hca
    · cases Individual.eq_of_id_eq hids hb ha hba
      rw [hmain] at hmain' hnodup
      exact .inr ⟨c, mem_of_split hmain' hnodup hallows, hfinds⟩
    · cases Individual.eq_of_id_eq hids hc ha hca
      have hle := idxOf_le_iff_mem (x := b) (hmain ▸ hnodup) (fun he => hne (congrArg Action.id he))
      have hle' := idxOf_le_iff_mem (x := b) (hmain' ▸ hnodup) (fun he => hne (congrArg Action.id he))
      rw [← hmain] at hle
      rw [← hmain'] at hle'
      exact .inl ⟨b, hle.mp (hle'.mpr hallows), hfinds⟩
  · rintro (⟨b, hb, hfinds⟩ | ⟨b, hb, hfinds⟩)
    · have hdue := (due_iff hids).mpr ⟨pre, a, post, hmain, b, hb, hfinds⟩
      refine ⟨hdue, ?_⟩
      have hne := (List.nodup_append.mp (hmain ▸ hnodup)).2.2 b hb a (by simp)
      have hbmain : b ∈ ind.main := by simp [hmain, hb]
      have hid : b.id ≠ a.id := fun he => hne (Individual.eq_of_id_eq hids hbmain ha he)
      simp [Link.involves, (ends_of_finds hid hfinds).2]
    · obtain ⟨mid, last, rfl⟩ := List.append_of_mem hb
      have hsplit : ind.main = (pre ++ a :: mid) ++ b :: last := by simp [hmain]
      have hdue := (due_iff hids).mpr ⟨_, b, last, hsplit, a, by simp, hfinds⟩
      refine ⟨hdue, ?_⟩
      have hne := (List.nodup_append.mp (hsplit ▸ hnodup)).2.2 a (by simp) b (by simp)
      have hbmain : b ∈ ind.main := by simp [hmain]
      have hid : a.id ≠ b.id := fun he => hne (Individual.eq_of_id_eq hids ha hbmain he)
      simp [Link.involves, (ends_of_finds hid hfinds).1]

/-- Linking an action anew registers those of the due links that involve it and are not there, each once. -/
theorem exists_relink_added (hr : r.IsDefinite) (hids : ind.ids.Nodup)
    (htrees : ∀ a ∈ ind.main, ∀ p ∈ a.params, p.gene.WellFormed) (ha : a ∈ ind.main) :
    ∃ added, Linking.Ends (r.relink a.id : Linking γ Nat) ind added.length
        { ind with links := ind.links ++ added } ∧
      added.Nodup ∧ ∀ l, l ∈ added ↔ l ∉ ind.links ∧ r.Due γ ind l ∧ l.involves a.id = true := by
  obtain ⟨pre, post, hmain⟩ := List.append_of_mem ha
  obtain ⟨htake, hdrop⟩ := takeWhile_of_split hids hmain
  obtain ⟨ls, hls, hmem⟩ := settled_proposalsAround (γ := γ) hr (hmain ▸ htrees)
  have hdue : ∀ l, l ∈ ls ↔ r.Due γ ind l ∧ l.involves a.id = true := fun l => by
    rw [hmem, due_and_involves_iff hids hmain]
  obtain ⟨added, hu, hnodup, hadded⟩ := exists_addLinks (γ := γ) fun l hl => by
    obtain ⟨⟨b, hb, c, hc, hne, hfinds, -⟩, -⟩ := (hdue l).mp hl
    exact Individual.checkAddress_of_leads hids htrees hb hc (leads_of_finds hne hfinds).2
  refine ⟨added, (Linking.ends_get ind).bind ?_, hnodup, fun l => ?_⟩
  · simp only [hdrop, htake]
    exact (Linking.ends_search hls).bind (Linking.ends_revise hu)
  · rw [hadded, hdue]
    refine and_congr_right fun _ => ⟨And.left, fun hl => ⟨hl, ?_⟩⟩
    obtain ⟨b, hb, c, hc, hne, hfinds, hallows⟩ := hl.1
    exact (admits_of_finds hne hfinds).mpr hallows

/-- Behind that, the links are the old ones and the due ones that involve the action. -/
theorem exists_relink (hr : r.IsDefinite) (hids : ind.ids.Nodup)
    (htrees : ∀ a ∈ ind.main, ∀ p ∈ a.params, p.gene.WellFormed) (ha : a ∈ ind.main) :
    ∃ n u, Linking.Ends (r.relink a.id : Linking γ Nat) ind n u ∧ u = { ind with links := u.links } ∧
      ∀ l, l ∈ u.links ↔ l ∈ ind.links ∨ (r.Due γ ind l ∧ l.involves a.id = true) := by
  obtain ⟨added, hends, -, hadded⟩ := exists_relink_added (γ := γ) hr hids htrees ha
  refine ⟨_, _, hends, rfl, fun l => ?_⟩
  rw [List.mem_append, hadded]
  tauto

end Linker
end CallEvolution
