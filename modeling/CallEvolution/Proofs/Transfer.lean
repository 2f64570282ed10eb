import CallEvolution.Proofs.Outcome
import CallEvolution.Proofs.Renaming

/-! Parts that leave a tree or enter it. A released term leaves its slots to the list of freed ones, an
extracted one fills a tree of its own, and a grafted tree takes up empty slots only. -/

namespace CallEvolution

open GeneTerm

theorem ok_of_bind {ε α β : Type} {x : Except ε α} {f : α → Except ε β} {b : β}
    (h : (x >>= f) = .ok b) : ∃ a, x = .ok a ∧ f a = .ok b := by
  cases x with
  | error e => cases h
  | ok a => exact ⟨a, rfl, h⟩

theorem ok_of_map {ε α β : Type} {x : Except ε α} {f : α → β} {b : β} (h : x.map f = .ok b) :
    ∃ a, x = .ok a ∧ f a = b := by
  cases x with
  | error e => cases h
  | ok a => exact ⟨a, rfl, Except.ok.inj h⟩

theorem error_of_map {ε α β : Type} {x : Except ε α} {f : α → β} {e : ε} (h : x.map f = .error e) :
    x = .error e := by
  cases x with
  | error e' => exact congrArg Except.error (Except.error.inj h)
  | ok a => cases h

theorem ok_of_mapM {ε α β : Type} {f : α → Except ε β} {l : List α} {ys : List β}
    (h : l.mapM f = .ok ys) : ∀ y ∈ ys, ∃ x ∈ l, f x = .ok y := by
  induction l generalizing ys with
  | nil =>
    cases h
    simp
  | cons x l ih =>
    rw [List.mapM_cons] at h
    obtain ⟨y, hy, h⟩ := ok_of_bind h
    obtain ⟨rest, hrest, h⟩ := ok_of_bind h
    cases h
    intro z hz
    rcases List.mem_cons.mp hz with rfl | hz
    · exact ⟨x, by simp, hy⟩
    · obtain ⟨w, hw, hwz⟩ := ih hrest z hz
      exact ⟨w, List.mem_cons_of_mem _ hw, hwz⟩

theorem mapM_eq_ok_map {ε α β : Type} {f : α → Except ε β} {g : α → β} {l : List α}
    (h : ∀ x ∈ l, f x = .ok (g x)) : l.mapM f = .ok (l.map g) := by
  induction l with
  | nil => rfl
  | cons x l ih =>
    rw [List.mapM_cons, h x (by simp), ih fun y hy => h y (List.mem_cons_of_mem _ hy)]
    rfl

namespace GeneTree

variable {t : GeneTree} {v : GeneTerm}

theorem node_of_get? {id : NodeId} {n : GeneNode} (h : t.get? id = some n) : t.node id = .ok n := by
  simp [node, h]

theorem get?_of_node {id : NodeId} {n : GeneNode} (h : t.node id = .ok n) : t.get? id = some n := by
  rw [node] at h
  split at h
  · next m hm => rw [hm, Except.ok.inj h]
  · cases h

theorem gene_of_get? {id : NodeId} {n : GeneNode} (h : t.get? id = some n) :
    t.gene id = .ok n.gene := by
  rw [gene, node_of_get? h]
  rfl

theorem live_of_gene {id : NodeId} {g : Gene} (h : t.gene id = .ok g) :
    ∃ n, t.get? id = some n ∧ n.gene = g := by
  rw [gene, node] at h
  split at h
  · next n hn => exact ⟨n, hn, Except.ok.inj h⟩
  · cases h

theorem variant_of_gene {id : NodeId} {g : Gene} (h : t.gene id = .ok g) :
    t.variant id = .ok g.variant := by
  obtain ⟨n, hn, rfl⟩ := live_of_gene h
  rw [variant, node_of_get? hn]
  rfl

section Owned

theorem mapM_perm_allIds {f : NodeId → Except GeneError (List NodeId)} {vs : List GeneTerm}
    (h : ∀ v ∈ vs, ∃ ids, f v.id = .ok ids ∧ ids.Perm v.ids) :
    ∃ below, (vs.map GeneTerm.id).mapM f = .ok below ∧ below.flatten.Perm (allIds vs) := by
  induction vs with
  | nil => exact ⟨[], rfl, .refl _⟩
  | cons v vs ih =>
    obtain ⟨ids, hids, hperm⟩ := h v (by simp)
    obtain ⟨below, hbelow, hrest⟩ := ih fun w hw => h w (List.mem_cons_of_mem _ hw)
    refine ⟨ids :: below, ?_, ?_⟩
    · rw [List.map_cons, List.mapM_cons, hids, hbelow]
      rfl
    · rw [List.flatten_cons, allIds_cons]
      exact hperm.append hrest

theorem Holds.ownedFrom (hv : t.Holds v) {d : Nat} (hd : v.height ≤ d) :
    ∃ rest, t.ownedFrom d v.id = .ok (v.id :: rest) ∧ (v.id :: rest).Perm v.ids := by
  induction v using induct generalizing d with
  | node id content parts ih =>
    cases d with
    | zero => simp [height] at hd
    | succ d =>
      have hparts : ∀ v ∈ parts.reverse, ∃ ids, t.ownedFrom d v.id = .ok ids ∧ ids.Perm v.ids := by
        intro v hmem
        have hv' := List.mem_reverse.mp hmem
        have hlt := height_lt_of_part id content hv'
        obtain ⟨rest, hrest, hperm⟩ := ih v hv' (hv.parts.each v hv') (d := d) (by omega)
        exact ⟨_, hrest, hperm⟩
      obtain ⟨below, hbelow, hperm⟩ := mapM_perm_allIds hparts
      have hshaped := hv.shaped
      rw [Shaped] at hshaped
      rw [List.map_reverse, hshaped.1] at hbelow
      refine ⟨below.flatten, ?_, ?_⟩
      · rw [GeneTree.ownedFrom, gene_of_get? hv.get?_id]
        change (content.gene.owned.reverse.mapM (t.ownedFrom d) >>= fun below => _) = _
        rw [hbelow]
        rfl
      · rw [ids_node]
        exact (hperm.trans ((List.reverse_perm parts).flatMap_right _)).cons id

theorem Holds.ownedIds (hv : t.Holds v) :
    ∃ rest, t.ownedIds v.id = .ok (v.id :: rest) ∧ (v.id :: rest).Perm v.ids :=
  hv.ownedFrom hv.height_le_depthBound

end Owned

section Release

theorem frame_freeSlots {ids : List NodeId} (ht : t.FreeExact) (hids : ids.Nodup)
    (hlive : ∀ x ∈ ids, ∃ n, t.get? x = some n) :
    Frame t (ids.foldl freeSlot t) {x | x ∈ ids} ∅ := by
  induction ids generalizing t with
  | nil => simpa using Frame.refl ht ∅
  | cons id ids ih =>
    obtain ⟨n, hn⟩ := hlive id (by simp)
    obtain ⟨hid, hids⟩ := List.nodup_cons.mp hids
    have hfirst := frame_freeSlot ht hn
    have hrest := ih hfirst.exact hids fun x hx => by
      obtain ⟨m, hm⟩ := hlive x (List.mem_cons_of_mem _ hx)
      refine ⟨m, hfirst.get?_eq hm fun he => ?_⟩
      rw [Set.mem_singleton_iff.mp he] at hx
      exact hid hx
    have hboth := hfirst.both hrest (Set.disjoint_empty _)
    have hset : {x | x ∈ id :: ids} = {id} ∪ {x | x ∈ ids} := by
      ext x
      simp
    rwa [Set.union_empty, ← hset] at hboth

end Release

section Extract

theorem positionIn_of_mem {ids : List NodeId} {x : NodeId} (hx : x ∈ ids) :
    ∃ i, positionIn ids x = ⟨i⟩ ∧ ids[i]? = some x := by
  unfold positionIn
  cases h : ids.findIdx? (· = x) with
  | none =>
    rw [List.findIdx?_eq_none_iff] at h
    simpa using h x hx
  | some i =>
    obtain ⟨hi, he, -⟩ := List.findIdx?_eq_some_iff_getElem.mp h
    refine ⟨i, rfl, ?_⟩
    rw [List.getElem?_eq_getElem hi, of_decide_eq_true he]

theorem positionIn_inj {ids : List NodeId} {x y : NodeId} (hx : x ∈ ids) (hy : y ∈ ids)
    (h : positionIn ids x = positionIn ids y) : x = y := by
  obtain ⟨i, hi, hix⟩ := positionIn_of_mem hx
  obtain ⟨j, hj, hjy⟩ := positionIn_of_mem hy
  rw [hi, hj, NodeId.mk.injEq] at h
  rw [← h, hix, Option.some.injEq] at hjy
  exact hjy

theorem positionIn_head (id : NodeId) (ids : List NodeId) : positionIn (id :: ids) id = ⟨0⟩ := by
  simp [positionIn, List.findIdx?_cons]

/-- The node at `old` as it stands in a tree of its own, below `root`. -/
def extracted (t : GeneTree) (ids : List NodeId) (root old : NodeId) : Option GeneNode :=
  (t.get? old).map fun n =>
    { n with
      gene := n.gene.rename (positionIn ids)
      parent := if old = root then none else n.parent.map (positionIn ids) }

theorem extract_of_ownedIds {id : NodeId} {ids : List NodeId} (hids : t.ownedIds id = .ok ids)
    (hlive : ∀ x ∈ ids, ∃ n, t.get? x = some n) :
    t.extract id =
      .ok { slots := (ids.map (t.extracted ids id)).toArray, free := [], root := ⟨0⟩ } := by
  rw [extract, hids]
  change Except.bind (ids.mapM _) _ = _
  rw [mapM_eq_ok_map (g := t.extracted ids id)]
  · rfl
  · intro x hx
    obtain ⟨n, hn⟩ := hlive x hx
    rw [node_of_get? hn, extracted, hn]
    rfl

theorem live_of_extract {copy : GeneTree} {x : NodeId} (h : t.extract x = .ok copy) :
    ∃ n, t.get? x = some n := by
  obtain ⟨ids, hids, -⟩ := ok_of_bind h
  rw [ownedIds, depthBound, ownedFrom] at hids
  obtain ⟨g, hg, -⟩ := ok_of_bind hids
  obtain ⟨n, hn, -⟩ := live_of_gene hg
  exact ⟨n, hn⟩

/-- A term that is extracted is renamed, and has no owner. -/
theorem Holds.extract (hv : t.Holds v) :
    ∃ copy f, t.extract v.id = .ok copy ∧ copy.Unfolds ((v.rename f).withParent none) := by
  obtain ⟨rest, hids, hperm⟩ := hv.ownedIds
  generalize hlist : v.id :: rest = ids at hids hperm
  have hmem : ∀ x, x ∈ ids ↔ x ∈ v.ids := fun x => hperm.mem_iff
  have hlive : ∀ x ∈ ids, ∃ n, t.get? x = some n := by
    intro x hx
    obtain ⟨n, -, hn⟩ := hv.get?_of_mem ((hmem x).mp hx)
    exact ⟨n, hn⟩
  have hget : ∀ i x, ids[i]? = some x →
      GeneTree.get? { slots := (ids.map (t.extracted ids v.id)).toArray, free := [], root := ⟨0⟩ } ⟨i⟩
        = t.extracted ids v.id x := by
    intro i x hix
    simp [GeneTree.get?, hix]
  have hcopied : ∀ e ∈ v.nodes, GeneTree.get?
      { slots := (ids.map (t.extracted ids v.id)).toArray, free := [], root := ⟨0⟩ }
        (positionIn ids e.1) = t.extracted ids v.id e.1 := by
    intro e he
    obtain ⟨i, hi, hix⟩ := positionIn_of_mem ((hmem e.1).mpr (mem_ids.mpr ⟨e.2, he⟩))
    rw [hi]
    exact hget i e.1 hix
  -- the new id of a node is the position of its old one
  refine ⟨_, positionIn ids, extract_of_ownedIds hids hlive, ?_, ?_, ?_, ?_, ?_⟩
  · refine hv.rename ?_ ?_ ?_
    · exact fun x hx y hy => positionIn_inj ((hmem x).mpr hx) ((hmem y).mpr hy)
    · rw [hcopied _ v.mem_nodes_self, extracted, hv.get?_id, Option.map_some, if_pos rfl]
      rfl
    · intro e he hne
      rw [hcopied e he, extracted, hv.kept he, Option.map_some, if_neg hne]
      rfl
  · rw [id_withParent, id_rename, ← hlist, positionIn_head]
  · rw [content_withParent]
  · intro x hx
    obtain ⟨n, hn⟩ := Option.isSome_iff_exists.mp hx
    have hlt : x.index < ids.length := by simpa using lt_size_of_get? hn
    have hy := List.getElem_mem hlt
    obtain ⟨j, hj, hjy⟩ := positionIn_of_mem hy
    have hji : j = x.index := by
      have hnd : ids.Nodup := hperm.nodup_iff.mpr hv.distinct
      obtain ⟨hjlt, hje⟩ := List.getElem?_eq_some_iff.mp hjy
      exact (hnd.getElem_inj_iff).mp hje
    rw [ids_withParent, ids_rename, List.mem_map]
    refine ⟨ids[x.index], (hmem _).mp hy, ?_⟩
    rw [hj, hji]
  · refine ⟨List.nodup_nil, fun x => ?_⟩
    simp only [List.append_nil, List.not_mem_nil, false_iff, not_and]
    intro hlt
    have hlt : x.index < ids.length := by simpa using hlt
    obtain ⟨n, hn⟩ := hlive _ (List.getElem_mem hlt)
    have he := hget x.index ids[x.index] (List.getElem?_eq_getElem hlt)
    rw [extracted, hn, Option.map_some] at he
    intro hnone
    cases he.symm.trans hnone

end Extract

end GeneTree
end CallEvolution
