import CallEvolution.Proofs.ActionOrder
import CallEvolution.Proofs.Attempts
import CallEvolution.Proofs.Transfer
import CallEvolution.Variation.Mutator
import Mathlib.Data.List.Perm.Basic

/-! Ids and links of individuals. Ids are handed out once, links join actions that are there, and the
order of actions is never against a link, whatever happens to an individual in a row. -/

namespace CallEvolution

namespace Individual

/-- Ids and links are in order. -/
structure Coherent (ind : Individual) : Prop where
  ids_distinct : ind.ids.Nodup
  ids_used : ∀ id ∈ ind.ids, id.number < ind.nextId
  links_distinct : ind.links.Nodup
  ends_differ : ∀ l ∈ ind.links, l.source ≠ l.target
  ends_present : ∀ l ∈ ind.links, l.source.action ∈ ind.ids ∧ l.target.action ∈ ind.ids
  source_first : ∀ l ∈ ind.links, l.origin = .params →
    ind.ids.idxOf l.source.action ≤ ind.ids.idxOf l.target.action
  one_row : ∀ l ∈ ind.links, l.origin = .database →
    ¬ (l.source.action ∈ ind.mainIds ∧ l.target.action ∈ ind.mainIds)

/-- What becomes of an individual: order stays, and ids that were used up do not come back. -/
structure Evolves (ind other : Individual) : Prop where
  coherent : ind.Coherent → other.Coherent
  nextId_le : ind.nextId ≤ other.nextId
  not_reused : ∀ id ∈ other.ids, id.number < ind.nextId → id ∈ ind.ids

variable {ind other third : Individual} {id : ActionId} {l : Link}

theorem Coherent.not_main_of_init (h : ind.Coherent) (hid : id ∈ ind.initIds) : id ∉ ind.mainIds := by
  have hdistinct := h.ids_distinct
  rw [ids_eq] at hdistinct
  exact fun hmain => List.disjoint_of_nodup_append hdistinct hid hmain

theorem Coherent.allows (h : ind.Coherent) (hl : l ∈ ind.links) : ind.allows l = true := by
  obtain ⟨hs, ht⟩ := h.ends_present l hl
  refine (allows_iff ind l).mpr ⟨⟨hs, ht⟩, h.source_first l hl, fun hdb => ?_⟩
  have hone := h.one_row l hl hdb
  rw [ids_eq, List.mem_append] at hs ht
  by_cases hsi : l.source.action ∈ ind.initIds
  · exact .inl hsi
  · refine .inr (ht.resolve_right fun htm => hone ⟨hs.resolve_left hsi, htm⟩)

theorem coherent_of_allows (hids : ind.ids.Nodup) (hused : ∀ id ∈ ind.ids, id.number < ind.nextId)
    (hlinks : ind.links.Nodup)
    (hall : ∀ l ∈ ind.links, l.source ≠ l.target ∧ ind.allows l = true) : ind.Coherent where
  ids_distinct := hids
  ids_used := hused
  links_distinct := hlinks
  ends_differ l hl := (hall l hl).1
  ends_present l hl := ((allows_iff ind l).mp (hall l hl).2).1
  source_first l hl := ((allows_iff ind l).mp (hall l hl).2).2.1
  one_row l hl hdb := by
    rintro ⟨hs, ht⟩
    rw [ids_eq] at hids
    have hdisjoint := List.disjoint_of_nodup_append hids
    rcases ((allows_iff ind l).mp (hall l hl).2).2.2 hdb with h | h
    · exact hdisjoint h hs
    · exact hdisjoint h ht

theorem coherent_new (provenance : Provenance) (identity : Nat) :
    (Individual.new provenance identity).Coherent :=
  coherent_of_allows List.nodup_nil nofun List.nodup_nil nofun

namespace Evolves

theorem refl (ind : Individual) : Evolves ind ind := ⟨id, le_refl _, fun _ h _ => h⟩

theorem trans (h : Evolves ind other) (h' : Evolves other third) : Evolves ind third where
  coherent hind := h'.coherent (h.coherent hind)
  nextId_le := h.nextId_le.trans h'.nextId_le
  not_reused id hid hlt :=
    h.not_reused id (h'.not_reused id hid (lt_of_lt_of_le hlt h.nextId_le)) hlt

/-- What makes no link, and keeps only links that the new order allows. -/
theorem of_actions (hnext : ind.nextId ≤ other.nextId)
    (hids : ∀ id ∈ other.ids, id ∈ ind.ids ∨ (ind.nextId ≤ id.number ∧ id.number < other.nextId))
    (hlinks : other.links.Sublist ind.links)
    (hnew : ind.Coherent → other.ids.Nodup ∧ ∀ l ∈ other.links, other.allows l = true) :
    Evolves ind other where
  coherent h := by
    obtain ⟨hnodup, hallows⟩ := hnew h
    refine coherent_of_allows hnodup ?_ (hlinks.nodup h.links_distinct) fun l hl =>
      ⟨h.ends_differ l (hlinks.subset hl), hallows l hl⟩
    intro id hid
    rcases hids id hid with hold | ⟨-, hlt⟩
    · exact lt_of_lt_of_le (h.ids_used id hold) hnext
    · exact hlt
  nextId_le := hnext
  not_reused id hid hlt := by
    rcases hids id hid with hold | ⟨hge, -⟩
    · exact hold
    · omega

theorem of_same_ids (hinit : other.initIds = ind.initIds) (hmain : other.mainIds = ind.mainIds)
    (hnext : other.nextId = ind.nextId) (hlinks : other.links.Sublist ind.links) :
    Evolves ind other := by
  have hids : other.ids = ind.ids := by rw [ids_eq, ids_eq, hinit, hmain]
  refine of_actions hnext.ge (fun id hid => .inl (hids ▸ hid)) hlinks fun h => ⟨?_, ?_⟩
  · exact hids ▸ h.ids_distinct
  · intro l hl
    exact (allows_congr hinit hmain l).trans (h.allows (hlinks.subset hl))

/-- A new action with a fresh id. -/
theorem of_fresh (hids : other.ids.Perm (⟨ind.nextId⟩ :: ind.ids))
    (hnext : other.nextId = ind.nextId + 1) (hlinks : other.links.Sublist ind.links)
    (hallows : ind.Coherent → other.ids.Nodup → ∀ l ∈ other.links, other.allows l = true) :
    Evolves ind other := by
  refine of_actions (by omega) ?_ hlinks fun h => ?_
  · intro id hid
    rcases List.mem_cons.mp (hids.mem_iff.mp hid) with rfl | hid
    · rw [hnext]
      exact .inr ⟨le_refl _, Nat.lt_succ_self _⟩
    · exact .inl hid
  · have hfresh : ⟨ind.nextId⟩ ∉ ind.ids := fun hmem => lt_irrefl _ (h.ids_used _ hmem)
    have hnodup : other.ids.Nodup := hids.nodup_iff.mpr (List.nodup_cons.mpr ⟨hfresh, h.ids_distinct⟩)
    exact ⟨hnodup, hallows h hnodup⟩

end Evolves

theorem allows_of_more (hids : ind.ids.Sublist other.ids) (hnodup : other.ids.Nodup)
    (hinit : ind.initIds ⊆ other.initIds) (h : ind.allows l = true) : other.allows l = true := by
  obtain ⟨⟨hs, ht⟩, hparams, hdb⟩ := (allows_iff ind l).mp h
  refine (allows_iff other l).mpr ⟨⟨hids.subset hs, hids.subset ht⟩, fun ho => ?_, fun ho => ?_⟩
  · exact (idxOf_le_iff_of_sublist hids hnodup hs ht).mp (hparams ho)
  · exact (hdb ho).imp (fun hi => hinit hi) fun hi => hinit hi

theorem allows_of_fewer (hinit : other.initIds.Sublist ind.initIds)
    (hmain : other.mainIds.Sublist ind.mainIds) (h : ind.Coherent)
    (hs : l.source.action ∈ other.ids) (ht : l.target.action ∈ other.ids)
    (hl : ind.allows l = true) : other.allows l = true := by
  have hids : other.ids.Sublist ind.ids := by
    rw [ids_eq, ids_eq]
    exact hinit.append hmain
  have hstay : ∀ x, x ∈ other.ids → x ∈ ind.initIds → x ∈ other.initIds := by
    intro x hx hxi
    rw [ids_eq, List.mem_append] at hx
    exact hx.resolve_right fun hxm => h.not_main_of_init hxi (hmain.subset hxm)
  obtain ⟨-, hparams, hdb⟩ := (allows_iff ind l).mp hl
  refine (allows_iff other l).mpr ⟨⟨hs, ht⟩, fun ho => ?_, fun ho => ?_⟩
  · exact (idxOf_le_iff_of_sublist hids h.ids_distinct hs ht).mpr (hparams ho)
  · exact (hdb ho).imp (hstay _ hs) (hstay _ ht)

/-- Links that the order allows are those that are kept. -/
theorem allows_of_keepOrdered (h : l ∈ ind.keepOrdered.links) : ind.keepOrdered.allows l = true :=
  (List.mem_filter.mp h).2

theorem evolves_addInit (ind : Individual) (a : Action) : Evolves ind (ind.addInit a).2 := by
  have hinit : (ind.addInit a).2.initIds = ind.initIds ++ [⟨ind.nextId⟩] := List.map_append
  have hids : (ind.addInit a).2.ids = ind.initIds ++ ⟨ind.nextId⟩ :: ind.mainIds := by
    rw [ids_eq, hinit, List.append_assoc]
    rfl
  refine Evolves.of_fresh ?_ rfl (.refl _) fun h hnodup l hl => ?_
  · rw [hids, ids_eq]
    exact List.perm_middle
  · refine allows_of_more ?_ hnodup ?_ (h.allows hl)
    · rw [hids, ids_eq]
      exact (List.Sublist.refl _).append (List.sublist_cons_self _ _)
    · rw [hinit]
      exact List.subset_append_left _ _

theorem evolves_addMain (ind : Individual) (a : Action) : Evolves ind (ind.addMain a).2 := by
  have hids : (ind.addMain a).2.ids = ind.ids ++ [⟨ind.nextId⟩] := by
    rw [ids_eq, ids_eq, List.append_assoc]
    exact congrArg (ind.initIds ++ ·) List.map_append
  refine Evolves.of_fresh ?_ rfl (.refl _) fun h hnodup l hl => ?_
  · rw [hids]
    exact List.perm_append_singleton _ _
  · have hinit : ind.initIds ⊆ (ind.addMain a).2.initIds := fun _ hid => hid
    refine allows_of_more ?_ hnodup hinit (h.allows hl)
    rw [hids]
    exact List.sublist_append_left _ _

theorem evolves_insertMain (ind : Individual) (index : Nat) (a : Action) :
    Evolves ind (ind.insertMain index a).2 := by
  refine Evolves.of_fresh ?_ rfl List.filter_sublist fun _ _ _ hl => allows_of_keepOrdered hl
  have hmain : (ind.insertMain index a).2.mainIds =
      ind.mainIds.take index ++ ⟨ind.nextId⟩ :: ind.mainIds.drop index := by
    rw [mainIds, mainIds, ← List.map_take, ← List.map_drop]
    exact List.map_append
  rw [ids_eq, ids_eq, hmain, ← List.append_assoc]
  refine List.perm_middle.trans ?_
  rw [List.append_assoc, List.take_append_drop]
  rfl

theorem evolves_swapMain {a b : Nat} (h : ind.swapMain a b = .ok other) : Evolves ind other := by
  rw [swapMain] at h
  split at h
  · next x y hx hy =>
    cases h
    obtain ⟨ha, rfl⟩ := List.getElem?_eq_some_iff.mp hx
    obtain ⟨hb, rfl⟩ := List.getElem?_eq_some_iff.mp hy
    have hmain : ((ind.main.set a ind.main[b]).set b ind.main[a]).Perm ind.main :=
      List.set_set_perm ha hb
    have hperm : ({ ind with main := (ind.main.set a ind.main[b]).set b ind.main[a] } :
        Individual).keepOrdered.ids.Perm ind.ids := by
      rw [ids_eq, ids_eq]
      exact (hmain.map Action.id).append_left _
    refine Evolves.of_actions (le_refl _) (fun id hid => .inl (hperm.mem_iff.mp hid))
      List.filter_sublist fun h => ⟨hperm.nodup_iff.mpr h.ids_distinct, fun l hl => ?_⟩
    exact allows_of_keepOrdered hl
  · cases h

theorem evolves_detach (ind : Individual) (id : ActionId) : Evolves ind (ind.detach id) :=
  Evolves.of_same_ids rfl rfl rfl List.filter_sublist

theorem evolves_withoutLinks (ind : Individual) : Evolves ind ind.withoutLinks :=
  Evolves.of_same_ids rfl rfl rfl (List.nil_sublist _)

theorem evolves_setGene (ind : Individual) (id : ActionId) (param : Nat) (t : GeneTree) :
    Evolves ind (ind.setGene id param t) := by
  have hid : ∀ a : Action, (a.setGene param t).id = a.id := fun _ => rfl
  rw [setGene, modifyAction]
  split
  · exact Evolves.of_same_ids (map_id_modifyFirst hid ind.init) rfl rfl (.refl _)
  · exact Evolves.of_same_ids rfl (map_id_modifyFirst hid ind.main) rfl (.refl _)

/-- What takes actions away together with their links. -/
theorem Evolves.of_removed (hinit : other.initIds.Sublist ind.initIds)
    (hmain : other.mainIds.Sublist ind.mainIds) (hnext : other.nextId = ind.nextId)
    (hlinks : other.links.Sublist ind.links)
    (hgone : ∀ l ∈ other.links, ∀ id ∈ ind.ids, l.involves id = true → id ∈ other.ids) :
    Evolves ind other := by
  have hids : other.ids.Sublist ind.ids := by
    rw [ids_eq, ids_eq]
    exact hinit.append hmain
  refine Evolves.of_actions hnext.ge (fun id hid => .inl (hids.subset hid)) hlinks fun h =>
    ⟨hids.nodup h.ids_distinct, fun l hl => ?_⟩
  have hl' := hlinks.subset hl
  obtain ⟨hs, ht⟩ := h.ends_present l hl'
  have hs' := hgone l hl _ hs (by simp [Link.involves])
  have ht' := hgone l hl _ ht (by simp [Link.involves])
  exact allows_of_fewer hinit hmain h hs' ht' (h.allows hl')

theorem evolves_removeMain {index : Nat} {a : Action} (h : ind.removeMain index = some (a, other)) :
    Evolves ind other := by
  rw [removeMain] at h
  split at h
  · next b hb =>
    cases h
    refine Evolves.of_removed (.refl _) ((List.eraseIdx_sublist _ _).map _) rfl List.filter_sublist ?_
    intro l hl id hid hinvolves
    have hnot : id ≠ a.id := by
      rintro rfl
      have hfree := (List.mem_filter.mp hl).2
      rw [hinvolves] at hfree
      cases hfree
    rw [ids_eq, List.mem_append] at hid ⊢
    refine hid.imp_right fun hmain => ?_
    obtain ⟨c, hc, rfl⟩ := List.mem_map.mp hmain
    refine List.mem_map.mpr ⟨c, List.mem_eraseIdx_iff_getElem?.mpr ?_, rfl⟩
    obtain ⟨j, hj⟩ := List.mem_iff_getElem?.mp hc
    refine ⟨j, ?_, hj⟩
    rintro rfl
    rw [hb, Option.some.injEq] at hj
    exact hnot (congrArg Action.id hj.symm)
  · cases h

theorem evolves_addLink {taken : Bool} (h : ind.addLink l = .ok (taken, other)) :
    Evolves ind other := by
  obtain ⟨_, _, h⟩ := ok_of_bind h
  obtain ⟨_, _, h⟩ := ok_of_bind h
  split at h
  · cases h
    exact .refl ind
  · next hfree =>
    cases h
    simp only [Bool.or_eq_true, decide_eq_true_eq, List.contains_iff_mem, Bool.not_eq_true',
      not_or, Bool.not_eq_false] at hfree
    obtain ⟨⟨hdiffer, hnew⟩, hallows⟩ := hfree
    refine ⟨fun h => ?_, le_refl _, fun _ hid _ => hid⟩
    refine coherent_of_allows h.ids_distinct h.ids_used ?_ ?_
    · exact List.nodup_append.mpr ⟨h.links_distinct, List.nodup_singleton l, by
        rintro a ha b hb rfl
        rw [List.mem_singleton] at hb
        exact hnew (hb ▸ ha)⟩
    · intro k hk
      rcases List.mem_append.mp hk with hk | hk
      · exact ⟨h.ends_differ k hk, h.allows hk⟩
      · rw [List.mem_singleton] at hk
        rw [hk]
        exact ⟨hdiffer, hallows⟩

end Individual
end CallEvolution
