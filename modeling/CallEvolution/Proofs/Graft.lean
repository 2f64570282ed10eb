import CallEvolution.Proofs.Transfer

/-! A graft first takes an empty slot for every node, then fills the slots taken. Between the two the
slots taken are empty without being on the list of freed ones. -/

namespace CallEvolution

open GeneTerm

namespace GeneTree

variable {t other : GeneTree} {taken : List NodeId}

theorem FreeExcept.takeSlot (ht : t.FreeExcept taken) :
    t.takeSlot.2.FreeExcept (taken ++ [t.takeSlot.1]) := by
  have hdistinct := ht.distinct
  have hempty := ht.empty
  unfold GeneTree.takeSlot
  cases hfree : t.free with
  | cons id free =>
    rw [hfree] at hdistinct hempty
    refine ⟨by simpa using hdistinct, fun x => ?_⟩
    rw [List.append_assoc]
    exact hempty x
  | nil =>
    rw [hfree] at hdistinct hempty
    simp only [List.append_nil] at hdistinct hempty
    have hget : ∀ x, GeneTree.get? ⟨t.slots.push none, [], t.root⟩ x = t.get? x := by
      intro x
      have hx := t.get?_takeSlot x
      rwa [GeneTree.takeSlot, hfree] at hx
    have hnew : ∀ x ∈ taken, x ∉ [(⟨t.slots.size⟩ : NodeId)] := by
      intro x hx he
      have hlt := ((hempty x).mp hx).1
      rw [List.mem_singleton.mp he] at hlt
      simp at hlt
    refine ⟨?_, fun x => ?_⟩
    · rw [List.append_nil]
      exact List.nodup_append.mpr ⟨hdistinct, List.nodup_singleton _, fun x hx y hy he =>
        hnew x hx (he ▸ hy)⟩
    · rw [List.append_nil, List.mem_append, hempty x, hget x, List.mem_singleton, Array.size_push]
      constructor
      · rintro (⟨hlt, hnone⟩ | rfl)
        · exact ⟨by omega, hnone⟩
        · exact ⟨by simp, by simp [GeneTree.get?]⟩
      · rintro ⟨hlt, hnone⟩
        by_cases hx : x.index < t.slots.size
        · exact .inl ⟨hx, hnone⟩
        · obtain ⟨i⟩ := x
          have hi : i = t.slots.size :=
            Nat.le_antisymm (Nat.lt_succ_iff.mp hlt) (Nat.le_of_not_lt hx)
          exact .inr (congrArg NodeId.mk hi)

theorem root_takeSlot (t : GeneTree) : t.takeSlot.2.root = t.root := by
  unfold takeSlot
  split <;> rfl

theorem takeSlots_cons (old : NodeId) (olds : List NodeId) (t : GeneTree) :
    takeSlots (old :: olds) t =
      ((old, t.takeSlot.1) :: (takeSlots olds t.takeSlot.2).1, (takeSlots olds t.takeSlot.2).2) := rfl

theorem FreeExcept.takeSlots (ht : t.FreeExcept taken) (olds : List NodeId) :
    (takeSlots olds t).2.FreeExcept (taken ++ (takeSlots olds t).1.map Prod.snd) := by
  induction olds generalizing t taken with
  | nil => simpa [GeneTree.takeSlots] using ht
  | cons old olds ih =>
    have hrest := ih ht.takeSlot
    rw [takeSlots_cons]
    rwa [List.append_assoc] at hrest

theorem fst_takeSlots (olds : List NodeId) (t : GeneTree) :
    (takeSlots olds t).1.map Prod.fst = olds := by
  induction olds generalizing t with
  | nil => rfl
  | cons old olds ih => rw [takeSlots_cons, List.map_cons, ih]

theorem get?_takeSlots (olds : List NodeId) (t : GeneTree) (x : NodeId) :
    (takeSlots olds t).2.get? x = t.get? x := by
  induction olds generalizing t with
  | nil => rfl
  | cons old olds ih => rw [takeSlots_cons, ih, get?_takeSlot]

theorem root_takeSlots (olds : List NodeId) (t : GeneTree) :
    (takeSlots olds t).2.root = t.root := by
  induction olds generalizing t with
  | nil => rfl
  | cons old olds ih => rw [takeSlots_cons, ih, root_takeSlot]

theorem FreeExcept.place {id : NodeId} (ht : t.FreeExcept (id :: taken)) (n : GeneNode) :
    (t.place id n).FreeExcept taken := by
  have hid := (ht.empty id).mp (by simp)
  obtain ⟨hnot, hrest⟩ := List.nodup_cons.mp ht.distinct
  refine ⟨hrest, fun x => ?_⟩
  have hsize : (t.place id n).slots.size = t.slots.size := by simp [GeneTree.place]
  rw [hsize]
  by_cases hx : x = id
  · subst hx
    rw [get?_place_self hid.1]
    simpa [GeneTree.place] using hnot
  · have he := ht.empty x
    rw [get?_place_of_ne hx, ← he]
    simp [GeneTree.place, hx]

/-- Fills slots with nodes of another tree, each changed by `k`. -/
def fill (other : GeneTree) (k : GeneNode → GeneNode) (pairs : List (NodeId × NodeId))
    (t : GeneTree) : GeneTree :=
  pairs.foldl
    (fun t (old, new) =>
      match other.get? old with
      | some n => t.place new (k n)
      | none => t)
    t

theorem placeAll_eq_fill (other : GeneTree) (newIds : List (NodeId × NodeId)) (t : GeneTree) :
    placeAll other newIds t = fill other (carryOver newIds) newIds t := rfl

theorem fill_spec (other : GeneTree) {k : GeneNode → GeneNode} {pairs : List (NodeId × NodeId)}
    (ht : t.FreeExcept (pairs.map Prod.snd)) (hlive : ∀ r ∈ pairs, ∃ n, other.get? r.1 = some n) :
    (fill other k pairs t).FreeExact ∧ (fill other k pairs t).root = t.root ∧
      (∀ x ∉ pairs.map Prod.snd, (fill other k pairs t).get? x = t.get? x) ∧
      ∀ r ∈ pairs, (fill other k pairs t).get? r.2 = (other.get? r.1).map k := by
  induction pairs generalizing t with
  | nil => exact ⟨ht, rfl, fun _ _ => rfl, by simp⟩
  | cons r pairs ih =>
    obtain ⟨old, new⟩ := r
    obtain ⟨n, hn⟩ := hlive (old, new) (by simp)
    have hstep : fill other k ((old, new) :: pairs) t = fill other k pairs (t.place new (k n)) := by
      rw [fill, List.foldl_cons]
      change fill other k pairs (match other.get? old with | some n => _ | none => t) = _
      rw [hn]
    have hnew : new ∉ pairs.map Prod.snd := by
      have hnot := (List.nodup_cons.mp ht.distinct).1
      exact fun h => hnot (List.mem_append_left _ h)
    have hlt := ((ht.empty new).mp (by simp)).1
    obtain ⟨hexact, hroot, hsame, hfilled⟩ :=
      ih (ht.place (k n)) fun r hr => hlive r (List.mem_cons_of_mem _ hr)
    rw [hstep]
    refine ⟨hexact, hroot, fun x hx => ?_, fun r hr => ?_⟩
    · rw [List.map_cons, List.mem_cons, not_or] at hx
      rw [hsame x hx.2, get?_place_of_ne hx.1]
    · rcases List.mem_cons.mp hr with rfl | hr
      · rw [hsame new hnew, get?_place_self hlt, hn, Option.map_some]
      · exact hfilled r hr

theorem renamed_mem {newIds : List (NodeId × NodeId)} {x : NodeId}
    (hx : x ∈ newIds.map Prod.fst) : (x, renamed newIds x) ∈ newIds := by
  induction newIds with
  | nil => cases hx
  | cons r newIds ih =>
    obtain ⟨old, new⟩ := r
    by_cases he : x = old
    · simp [renamed, he]
    · have hrest := (List.mem_cons.mp hx).resolve_left he
      have hne : (x == old) = false := by simpa using he
      have hsame : renamed ((old, new) :: newIds) x = renamed newIds x := by
        rw [renamed, List.lookup_cons, hne]
        rfl
      rw [hsame]
      exact List.mem_cons_of_mem _ (ih hrest)

theorem renamed_eq {newIds : List (NodeId × NodeId)} (hnd : (newIds.map Prod.fst).Nodup)
    {r : NodeId × NodeId} (hr : r ∈ newIds) : renamed newIds r.1 = r.2 := by
  have hmem := renamed_mem (List.mem_map_of_mem (f := Prod.fst) hr)
  have he := List.inj_on_of_nodup_map hnd hmem hr rfl
  exact congrArg Prod.snd he

theorem mem_liveIds {x : NodeId} : x ∈ t.liveIds ↔ t.contains x = true := by
  simp only [liveIds, List.mem_filter, List.mem_map, List.mem_range]
  constructor
  · exact fun h => h.2
  · intro h
    obtain ⟨n, hn⟩ := Option.isSome_iff_exists.mp h
    exact ⟨⟨x.index, lt_size_of_get? hn, rfl⟩, h⟩

theorem nodup_liveIds (t : GeneTree) : t.liveIds.Nodup := by
  refine List.Nodup.filter _ (List.Nodup.map ?_ List.nodup_range)
  exact fun i j h => congrArg NodeId.index h

/-- A graft is possible, and adds the other tree's term, renamed, below the new owner. -/
theorem graft_holds {w : GeneTerm} (ht : t.FreeExact) (hw : other.Unfolds w)
    (parent : Option NodeId) :
    t.canGraft other = true ∧ ∃ f u, t.graft other parent = (f w.id, u) ∧
      Frame t u ∅ ((w.rename f).withParent parent).footprint ∧
      u.Holds ((w.rename f).withParent parent) := by
  obtain ⟨newIds, t', htake⟩ : ∃ newIds t', takeSlots other.liveIds t = (newIds, t') := ⟨_, _, rfl⟩
  have hfst : newIds.map Prod.fst = other.liveIds := by
    rw [← fst_takeSlots other.liveIds t, htake]
  have hexcept : t'.FreeExcept (newIds.map Prod.snd) := by
    have h := ht.takeSlots other.liveIds
    rwa [htake] at h
  have hget : ∀ x, t'.get? x = t.get? x := by
    intro x
    rw [← get?_takeSlots other.liveIds t x, htake]
  have hroot : t'.root = t.root := by rw [← root_takeSlots other.liveIds t, htake]
  have hmem : ∀ x, x ∈ newIds.map Prod.fst ↔ x ∈ w.ids := by
    intro x
    rw [hfst, mem_liveIds]
    refine ⟨hw.full x, fun hx => ?_⟩
    obtain ⟨n, -, hn⟩ := hw.holds.get?_of_mem hx
    simp [contains, hn]
  have hpair : ∀ x ∈ w.ids, (x, renamed newIds x) ∈ newIds := fun x hx =>
    renamed_mem ((hmem x).mpr hx)
  have hinj : ∀ x ∈ w.ids, ∀ y ∈ w.ids, renamed newIds x = renamed newIds y → x = y := by
    intro x hx y hy he
    have hnd := (List.nodup_append.mp hexcept.distinct).1
    exact congrArg Prod.fst (List.inj_on_of_nodup_map hnd (hpair x hx) (hpair y hy) he)
  obtain ⟨hexact, hfillRoot, hsame, hfilled⟩ := fill_spec other (k := carryOver newIds) hexcept
    fun r hr => by
      have hr' := (hmem r.1).mp (List.mem_map_of_mem hr)
      obtain ⟨n, -, hn⟩ := hw.holds.get?_of_mem hr'
      exact ⟨n, hn⟩
  generalize hu : fill other (carryOver newIds) newIds t' = u at hexact hfillRoot hsame hfilled
  have hplaced : ∀ e ∈ w.nodes, u.get? (renamed newIds e.1) = some (e.2.rename (renamed newIds)) := by
    intro e he
    rw [hfilled _ (hpair e.1 (mem_ids.mpr ⟨e.2, he⟩)), hw.holds.kept he]
    rfl
  have hlt : ∀ r ∈ newIds, r.2.index < t'.slots.size := fun r hr =>
    ((hexcept.empty r.2).mp (List.mem_append_left _ (List.mem_map_of_mem hr))).1
  have hnews : ∀ x, x ∈ newIds.map Prod.snd ↔ x ∈ (w.rename (renamed newIds)).footprint := by
    intro x
    change _ ↔ x ∈ (w.rename (renamed newIds)).ids
    rw [ids_rename, List.mem_map, List.mem_map]
    constructor
    · rintro ⟨r, hr, rfl⟩
      have hnd : (newIds.map Prod.fst).Nodup := hfst ▸ nodup_liveIds other
      exact ⟨r.1, (hmem r.1).mp (List.mem_map_of_mem hr), renamed_eq hnd hr⟩
    · rintro ⟨y, hy, rfl⟩
      exact ⟨_, hpair y hy, rfl⟩
  have hchange := frame_modify hexact (hplaced _ w.mem_nodes_self) fun n => { n with parent }
  refine ⟨?_, renamed newIds, u.modify (renamed newIds w.id) fun n => { n with parent }, ?_, ?_, ?_⟩
  · rw [canGraft, htake, ← hw.root]
    simp only [Bool.and_eq_true, List.all_eq_true, decide_eq_true_eq]
    exact ⟨hlt, hlt _ (hpair w.id w.id_mem_ids)⟩
  · rw [GeneTree.graft, htake, ← hw.root, ← hu, ← placeAll_eq_fill]
  · rw [footprint_withParent]
    have hfirst : Frame t u ∅ (w.rename (renamed newIds)).footprint := by
      refine ⟨hfillRoot.trans hroot, fun x _ hx => ?_, fun x hx => absurd hx (Set.notMem_empty x),
        fun x hx _ => ?_, hexact⟩
      · rw [hsame x fun h => hx ((hnews x).mp h), hget]
      · have hx' := (hexcept.empty x).mp (List.mem_append_left _ ((hnews x).mpr hx))
        rw [← hget, hx'.2]
    have hsub : {renamed newIds w.id} ⊆ (w.rename (renamed newIds)).footprint := by
      have hid := id_mem_ids (w.rename (renamed newIds))
      rw [id_rename] at hid
      exact Set.singleton_subset_iff.mpr hid
    have hwhole := hchange.widen (w.rename (renamed newIds)).footprint
    rw [Set.union_eq_self_of_subset_left hsub] at hwhole
    exact hfirst.chain hwhole
  · refine hw.holds.rename hinj ?_ ?_
    · rw [get?_modify_self, hplaced _ w.mem_nodes_self]
      rfl
    · intro e he hne
      rw [get?_modify_of_ne, hplaced e he]
      exact fun h => hne (hinj _ (mem_ids.mpr ⟨e.2, he⟩) _ w.id_mem_ids h)

end GeneTree

namespace Edit

open GeneTree

variable {t : GeneTree} {v : GeneTerm}

theorem ensures_graft {other : GeneTree} {w : GeneTerm} (ht : t.FreeExact) (hw : other.Unfolds w)
    (parent : Option NodeId) :
    Ensures (graft other parent) t fun r u => ∃ f, r = .ok (f w.id) ∧
      Frame t u ∅ ((w.rename f).withParent parent).footprint ∧
      u.Holds ((w.rename f).withParent parent) := by
  obtain ⟨hcan, f, u, hu, hframe, hholds⟩ := graft_holds ht hw parent
  refine Ensures.get_bind ?_
  rw [if_pos hcan, hu]
  refine Ensures.bind_ok (P := fun _ s => s = u) (Ensures.set ⟨⟨⟩, rfl, rfl⟩) ?_
  rintro - s rfl
  exact Ensures.pure ⟨f, rfl, hframe, hholds⟩

/-- A term that is released is gone. -/
theorem ensures_release (ht : t.FreeExact) (hv : t.Holds v) :
    Ensures (release v.id) t fun r u => r = .ok () ∧ Frame t u v.footprint ∅ := by
  obtain ⟨rest, hids, hperm⟩ := hv.ownedIds
  refine ensures_query_bind hids (ensures_update ⟨rfl, ?_⟩)
  have hset : v.footprint = {x | x ∈ v.id :: rest} := by
    ext x
    exact hperm.mem_iff.symm
  rw [hset]
  refine frame_freeSlots ht (hperm.nodup_iff.mpr hv.distinct) fun x hx => ?_
  obtain ⟨n, -, hn⟩ := hv.get?_of_mem (hperm.mem_iff.mp hx)
  exact ⟨n, hn⟩

theorem ensures_releaseAll {vs : List GeneTerm} (ht : t.FreeExact) (hvs : t.HoldsAll vs) :
    Ensures (releaseAll (vs.map GeneTerm.id)) t fun r u => r = .ok () ∧
      Frame t u (footprints vs) ∅ := by
  induction vs generalizing t with
  | nil =>
    rw [footprints_nil]
    exact Ensures.pure ⟨rfl, .refl ht _⟩
  | cons v vs ih =>
    change Ensures (release v.id >>= fun _ => releaseAll (vs.map GeneTerm.id)) t _
    refine Ensures.bind_ok (P := fun _ u => Frame t u v.footprint ∅) ?_ fun _ u hu => ?_
    · refine (ensures_release ht hvs.head).mono ?_
      rintro r u ⟨rfl, hu⟩
      exact ⟨(), rfl, hu⟩
    · have hdis : Disjoint (footprints vs) v.footprint :=
        Set.disjoint_right.mpr fun x hx => hvs.disjoint hx
      refine (ih hu.exact (hu.holdsAll hvs.tail hdis)).mono ?_
      rintro r s ⟨rfl, hs⟩
      refine ⟨rfl, ?_⟩
      have hboth := hu.both hs (Set.disjoint_empty _)
      rwa [Set.union_empty, ← footprints_cons] at hboth

end Edit
end CallEvolution
