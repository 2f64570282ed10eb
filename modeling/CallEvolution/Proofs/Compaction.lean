import CallEvolution.Proofs.ArenaIntegrity

/-! Extracted copies, told by terms. The layout of a copy depends on the shape of the term alone, so terms
that differ in their ids only have the same copy. -/

namespace CallEvolution

open GeneTerm

theorem Gene.rename_congr {g : Gene} {f k : NodeId → NodeId} (h : ∀ x ∈ g.owned, f x = k x) :
    g.rename f = g.rename k := by
  cases g <;> simp_all [Gene.rename, Gene.owned, Gene.children]

namespace GeneTerm

variable {v : GeneTerm} {f k : NodeId → NodeId} {p : Option NodeId}

theorem withParent_self (v : GeneTerm) : v.withParent v.content.parent = v := by
  obtain ⟨id, content, parts⟩ := v
  rfl

/-- Only the new ids of the nodes of a term matter. -/
theorem rename_congr (hv : v.Shaped) (h : ∀ x ∈ v.ids, f x = k x) :
    (v.rename f).withParent p = (v.rename k).withParent p := by
  induction v using induct generalizing p with
  | node id content parts ih =>
    have hself := h id (id_mem_ids _)
    rw [Shaped] at hv
    obtain ⟨howned, hparts⟩ := hv
    have hids : ∀ w ∈ parts, ∀ x ∈ w.ids, f x = k x := by
      intro w hw x hx
      refine h x ?_
      rw [ids_node]
      exact List.mem_cons_of_mem _ (mem_allIds.mpr ⟨w, hw, hx⟩)
    have hgene : content.gene.rename f = content.gene.rename k := by
      refine Gene.rename_congr fun x hx => ?_
      obtain ⟨w, hw, rfl⟩ := List.mem_map.mp (howned ▸ hx)
      exact hids w hw w.id w.id_mem_ids
    have hbelow : parts.map (rename f) = parts.map (rename k) := by
      refine List.map_congr_left fun w hw => ?_
      obtain ⟨hparent, hshaped⟩ := hparts w hw
      have hhead : ∀ {j : NodeId → NodeId}, w.rename j = (w.rename j).withParent (some (j id)) := by
        intro j
        rw [← Option.map_some, ← rename_withParent, ← hparent, withParent_self]
      rw [hhead, ih w hw hshaped (hids w hw), hself, ← hhead]
    rw [rename, rename, withParent, withParent, hself, hbelow, GeneNode.rename, GeneNode.rename, hgene]

/-- All nodes in the order of a copy: a node, then its last part with all below, and so on to the first. -/
def sequence : GeneTerm → List (NodeId × GeneNode)
  | node id content parts => (id, content) :: (parts.map sequence).reverse.flatten

/-- The ids in the order of a copy. -/
def order (v : GeneTerm) : List NodeId := v.sequence.map Prod.fst

/-- The term as a tree of its own, numbered from its root on. -/
def compact (v : GeneTerm) : GeneTree where
  slots := (((v.rename (GeneTree.positionIn v.order)).withParent none).sequence.map fun e => some e.2).toArray
  free := []
  root := ⟨0⟩

theorem sequence_node (id : NodeId) (content : GeneNode) (parts : List GeneTerm) :
    (node id content parts).sequence = (id, content) :: parts.reverse.flatMap sequence := by
  rw [sequence, ← List.map_reverse, List.flatMap_def]

theorem order_node (id : NodeId) (content : GeneNode) (parts : List GeneTerm) :
    (node id content parts).order = id :: parts.reverse.flatMap order := by
  rw [order, sequence_node, List.map_cons, List.map_flatMap]
  rfl

theorem sequence_perm_nodes (v : GeneTerm) : v.sequence.Perm v.nodes := by
  induction v using induct with
  | node id content parts ih =>
    rw [sequence_node, nodes]
    exact .cons _ (((List.reverse_perm parts).flatMap_right _).trans (List.Perm.flatMap_left _ ih))

theorem order_perm_ids (v : GeneTerm) : v.order.Perm v.ids := v.sequence_perm_nodes.map Prod.fst

theorem mem_order {x : NodeId} : x ∈ v.order ↔ x ∈ v.ids := v.order_perm_ids.mem_iff

theorem sequence_rename (f : NodeId → NodeId) (v : GeneTerm) :
    (v.rename f).sequence = v.sequence.map fun e => (f e.1, e.2.rename f) := by
  induction v using induct with
  | node id content parts ih =>
    rw [rename, sequence_node, sequence_node, List.map_cons, List.map_flatMap, ← List.map_reverse,
      List.flatMap_map]
    exact congrArg _ (List.flatMap_congr fun w hw => ih w (List.mem_reverse.mp hw))

theorem order_rename (f : NodeId → NodeId) (v : GeneTerm) : (v.rename f).order = v.order.map f := by
  rw [order, sequence_rename, order, List.map_map, List.map_map]
  rfl

theorem order_withParent (p : Option NodeId) (v : GeneTerm) : (v.withParent p).order = v.order := by
  obtain ⟨id, content, parts⟩ := v
  rw [withParent, order_node, order_node]

end GeneTerm

namespace GeneTree

variable {t u : GeneTree} {v : GeneTerm} {f : NodeId → NodeId} {p : Option NodeId}

/-- Positions do not depend on how the members of a list are named. -/
theorem positionIn_map {ids : List NodeId} (hnd : (ids.map f).Nodup) {x : NodeId} (hx : x ∈ ids) :
    positionIn (ids.map f) (f x) = positionIn ids x := by
  obtain ⟨i, hi, hix⟩ := positionIn_of_mem hx
  obtain ⟨j, hj, hjx⟩ := positionIn_of_mem (List.mem_map_of_mem (f := f) hx)
  have hfix : (ids.map f)[i]? = some (f x) := by
    rw [List.getElem?_map, hix]
    rfl
  obtain ⟨hlt, -⟩ := List.getElem?_eq_some_iff.mp hfix
  rw [hi, hj, (List.getElem?_inj hlt hnd).mp (hfix.trans hjx.symm)]

/-- A renamed term has the same copy, whoever owns it. -/
theorem compact_rename (hv : v.Shaped) (hnd : (v.rename f).ids.Nodup) (p : Option NodeId) :
    ((v.rename f).withParent p).compact = v.compact := by
  have hnd : (v.order.map f).Nodup := by
    rw [← order_rename]
    exact (order_perm_ids _).nodup_iff.mpr hnd
  have hpositions : ∀ x ∈ v.ids, (positionIn (v.order.map f) ∘ f) x = positionIn v.order x :=
    fun x hx => positionIn_map hnd (mem_order.mpr hx)
  rw [compact, order_withParent, order_rename, rename_withParent, withParent_withParent, rename_rename,
    rename_congr hv hpositions, compact]

theorem Holds.ownedFrom_eq {d : Nat} (hv : t.Holds v) (hd : v.height ≤ d) :
    t.ownedFrom d v.id = .ok v.order := by
  induction v using induct generalizing d with
  | node id content parts ih =>
    cases d with
    | zero => simp [height] at hd
    | succ d =>
      have hbelow : content.gene.owned.reverse.mapM (t.ownedFrom d) = .ok (parts.reverse.map order) := by
        have hshaped := hv.shaped
        rw [Shaped] at hshaped
        rw [← hshaped.1, ← List.map_reverse, List.mapM_map]
        refine mapM_eq_ok_map fun w hw => ?_
        have hw := List.mem_reverse.mp hw
        have hlt := height_lt_of_part id content hw
        exact ih w hw (hv.parts.each w hw) (by omega)
      rw [GeneTree.ownedFrom, gene_of_get? hv.get?_id]
      change (content.gene.owned.reverse.mapM (t.ownedFrom d) >>= fun below => _) = _
      rw [hbelow, order_node, List.flatMap_def]
      rfl

theorem Holds.map_extracted (hv : t.Holds v) (ids : List NodeId) :
    v.order.map (t.extracted ids v.id) =
      ((v.rename (positionIn ids)).withParent none).sequence.map fun e => some e.2 := by
  obtain ⟨id, content, parts⟩ := v
  have hhead : t.extracted ids id id = some { content.rename (positionIn ids) with parent := none } := by
    rw [extracted, hv.get?_node, Option.map_some, if_pos rfl]
    rfl
  -- the ids below the head are others
  have hbelow : ∀ w ∈ parts, ∀ e ∈ w.sequence,
      t.extracted ids id e.1 = some (e.2.rename (positionIn ids)) := by
    intro w hw e he
    have he := w.sequence_perm_nodes.mem_iff.mp he
    have hne : e.1 ≠ id := by
      rintro hid
      exact id_notMem_allIds hv.distinct (hid ▸ mem_allIds.mpr ⟨w, hw, mem_ids.mpr ⟨e.2, he⟩⟩)
    rw [extracted, (hv.parts.each w hw).kept he, Option.map_some, if_neg hne]
    rfl
  rw [order_node, GeneTerm.rename, withParent, sequence_node, List.map_cons, List.map_cons, List.map_flatMap,
    List.map_flatMap, ← List.map_reverse, List.flatMap_map]
  refine congrArg₂ _ hhead (List.flatMap_congr fun w hw => ?_)
  rw [order, sequence_rename, List.map_map, List.map_map]
  exact List.map_congr_left (hbelow w (List.mem_reverse.mp hw))

/-- A term is extracted as the tree that it makes up by itself. -/
theorem Holds.extract_eq (hv : t.Holds v) : t.extract v.id = .ok v.compact := by
  have hlive : ∀ x ∈ v.order, ∃ n, t.get? x = some n := by
    intro x hx
    obtain ⟨n, -, hn⟩ := hv.get?_of_mem (mem_order.mp hx)
    exact ⟨n, hn⟩
  rw [extract_of_ownedIds (hv.ownedFrom_eq hv.height_le_depthBound) hlive, hv.map_extracted, compact]

/-- A copy of a term, held by whatever tree below whatever owner, is extracted as the term itself is. -/
theorem Holds.extract_rename (hv : v.Shaped) (hcopy : t.Holds ((v.rename f).withParent p)) :
    t.extract (f v.id) = .ok v.compact := by
  have hdistinct := hcopy.distinct
  rw [ids_withParent] at hdistinct
  rw [← compact_rename hv hdistinct p, ← hcopy.extract_eq, id_withParent, id_rename]

theorem size_compact (v : GeneTerm) : v.compact.slots.size = v.ids.length := by
  have hperm := (order_perm_ids ((v.rename (positionIn v.order)).withParent none)).length_eq
  rw [ids_withParent, ids_rename, List.length_map, order, List.length_map] at hperm
  rw [compact, List.size_toArray, List.length_map, hperm]

theorem filled_compact (v : GeneTerm) : ∀ slot ∈ v.compact.slots, slot.isSome = true := by
  intro slot hslot
  rw [compact, List.mem_toArray] at hslot
  obtain ⟨e, -, rfl⟩ := List.mem_map.mp hslot
  rfl

/-- A tree without an empty slot has as many nodes as slots. -/
theorem size_of_filled (h : ∀ slot ∈ t.slots, slot.isSome = true) : t.size = t.slots.size := by
  have hall : ∀ x ∈ (List.range t.slots.size).map NodeId.mk, t.contains x = true := by
    intro x hx
    obtain ⟨i, hi, rfl⟩ := List.mem_map.mp hx
    have hlt := List.mem_range.mp hi
    rw [contains, get?, Array.getElem?_eq_getElem hlt, Option.join_some]
    exact h _ (Array.getElem_mem hlt)
  rw [size, liveIds, List.filter_eq_self.mpr hall, List.length_map, List.length_range]

/-- The copy of a term is all of a tree. -/
theorem Holds.unfolds_compact (hv : t.Holds v) :
    ∃ f, v.compact.Unfolds ((v.rename f).withParent none) := by
  obtain ⟨copy, f, hcopy, hunfolds⟩ := hv.extract
  cases hv.extract_eq.symm.trans hcopy
  exact ⟨f, hunfolds⟩

section Slots

theorem free_takeSlots (olds : List NodeId) (t : GeneTree) :
    (takeSlots olds t).2.free = t.free.drop olds.length := by
  induction olds generalizing t with
  | nil => rfl
  | cons old olds ih =>
    rw [takeSlots_cons, ih, takeSlot]
    cases t.free <;> simp

theorem size_takeSlots (olds : List NodeId) (t : GeneTree) :
    (takeSlots olds t).2.slots.size = t.slots.size + (olds.length - t.free.length) := by
  induction olds generalizing t with
  | nil => simp [takeSlots]
  | cons old olds ih =>
    rw [takeSlots_cons, ih, takeSlot]
    cases t.free with
    | nil => simp [Nat.add_assoc, Nat.add_comm 1]
    | cons => simp

/-- Do two trees have as many slots, with the same ones freed? -/
def SameArena (t u : GeneTree) : Prop := u.free = t.free ∧ u.slots.size = t.slots.size

theorem sameArena_place (t : GeneTree) (x : NodeId) (n : GeneNode) : SameArena t (t.place x n) :=
  ⟨rfl, Array.size_setIfInBounds⟩

theorem SameArena.trans {w : GeneTree} (h : SameArena t u) (k : SameArena u w) : SameArena t w :=
  ⟨k.1.trans h.1, k.2.trans h.2⟩

theorem sameArena_modify (t : GeneTree) (x : NodeId) (f : GeneNode → GeneNode) :
    SameArena t (t.modify x f) := by
  unfold modify
  split
  · exact sameArena_place t x _
  · exact ⟨rfl, rfl⟩

theorem sameArena_placeAll (other : GeneTree) (newIds : List (NodeId × NodeId)) (t : GeneTree) :
    SameArena t (placeAll other newIds t) := by
  rw [placeAll]
  generalize carryOver newIds = carry
  induction newIds generalizing t with
  | nil => exact ⟨rfl, rfl⟩
  | cons r newIds ih =>
    obtain ⟨old, new⟩ := r
    rw [List.foldl_cons]
    refine SameArena.trans ?_ (ih _)
    dsimp only
    split
    · exact sameArena_place t _ _
    · exact ⟨rfl, rfl⟩

/-- A graft uses up freed slots, and takes as many new ones as were not freed before. -/
theorem arena_graft (t other : GeneTree) (parent : Option NodeId) :
    (t.graft other parent).2.free = t.free.drop other.size ∧
      (t.graft other parent).2.slots.size = t.slots.size + (other.size - t.free.length) := by
  have hfilled := (sameArena_placeAll other (takeSlots other.liveIds t).1 (takeSlots other.liveIds t).2).trans
    (sameArena_modify _ (renamed (takeSlots other.liveIds t).1 other.root) fun n => { n with parent })
  exact ⟨hfilled.1.trans (free_takeSlots _ t), hfilled.2.trans (size_takeSlots _ t)⟩

end Slots

theorem graft_copy (ht : t.FreeExact) (hv : u.Holds v) (parent : Option NodeId) :
    t.canGraft v.compact = true ∧ ∃ f w, t.graft v.compact parent = (f v.id, w) ∧
      Frame t w ∅ ((v.rename f).withParent parent).footprint ∧
      w.Holds ((v.rename f).withParent parent) := by
  obtain ⟨g, hunfolds⟩ := hv.unfolds_compact
  obtain ⟨hcan, f, w, hgraft, hframe, hholds⟩ := graft_holds ht hunfolds parent
  rw [rename_withParent, withParent_withParent, rename_rename] at hframe hholds
  rw [id_withParent, id_rename] at hgraft
  exact ⟨hcan, f ∘ g, w, hgraft, hframe, hholds⟩

/-- The nodes that a graft adds, told by the slots that they are put in. -/
theorem Frame.mem_new_iff {S : Set NodeId} {k : Nat} (h : Frame t u ∅ S) (ht : t.FreeExact)
    (hlive : ∀ x ∈ S, ∃ n, u.get? x = some n) (hfree : u.free = t.free.drop k)
    (hsize : u.slots.size = t.slots.size + (k - t.free.length)) {x : NodeId} :
    x ∈ S ↔ x ∈ t.free.take k ∨
      t.slots.size ≤ x.index ∧ x.index < t.slots.size + (k - t.free.length) := by
  have hnew : t.get? x = none → x.index < u.slots.size → x ∉ t.free.drop k → x ∈ S := by
    intro hnone hlt hnot
    by_contra hx
    refine hnot (hfree ▸ (h.exact.empty x).mpr ⟨hlt, ?_⟩)
    rw [h.same x (Set.notMem_empty x) hx, hnone]
  rw [← hsize]
  constructor
  · intro hx
    obtain ⟨n, hn⟩ := hlive x hx
    have hlt := lt_size_of_get? hn
    have hnone := h.fresh x hx (Set.notMem_empty x)
    rcases Nat.lt_or_ge x.index t.slots.size with hold | hnew
    · have hmem : x ∈ t.free.take k ++ t.free.drop k := by
        rw [List.take_append_drop]
        exact (ht.empty x).mpr ⟨hold, hnone⟩
      refine .inl ((List.mem_append.mp hmem).resolve_right fun hdrop => ?_)
      have hempty := (h.exact.empty x).mp (hfree ▸ hdrop)
      cases hn.symm.trans hempty.2
    · exact .inr ⟨hnew, hlt⟩
  · rintro (hx | ⟨hge, hlt⟩)
    · obtain ⟨hlt, hnone⟩ := (ht.empty x).mp (List.mem_of_mem_take hx)
      refine hnew hnone (by omega) fun hdrop => ?_
      exact List.disjoint_take_drop ht.distinct (Nat.le_refl k) hx hdrop
    · refine hnew ?_ hlt fun hdrop => ?_
      · rw [get?, Array.getElem?_eq_none hge]
        rfl
      · have hold := ((ht.empty x).mp (List.mem_of_mem_drop hdrop)).1
        omega

end GeneTree

namespace Edit

open GeneTree

variable {src t u copy : GeneTree} {id : NodeId} {n : GeneNode}

theorem ensures_transplant_graft (parent : Option NodeId) (hcopy : src.extract id = .ok copy)
    (hcan : t.canGraft copy = true) : Ensures (transplant src id parent) t fun r u =>
      r = .ok (t.graft copy parent).1 ∧ u = (t.graft copy parent).2 := by
  refine ensures_query_bind hcopy (Ensures.get_bind ?_)
  rw [if_pos hcan]
  refine Ensures.bind_ok (P := fun _ s => s = (t.graft copy parent).2) (Ensures.set ⟨⟨⟩, rfl, rfl⟩) ?_
  rintro - s rfl
  exact Ensures.pure ⟨rfl, rfl⟩

/-- What a node is copied to is a tree without empty slots, with a slot for each node below, and it is copied
to itself. Below another owner the copy is the same again; what was there before stays, and the nodes that
come fill the slots freed last and then new ones. -/
theorem transplant_lossless (hsrc : src.WellFormed) (hid : src.get? id = some n) (ht : t.WellFormed)
    (p : NodeId) : ∃ copy, src.extract id = .ok copy ∧
      copy.WellFormed ∧ copy.free = [] ∧ (∀ slot ∈ copy.slots, slot.isSome = true) ∧
      (∃ below : List NodeId, below.Nodup ∧ below.length = copy.slots.size ∧
        ∀ x, x ∈ below ↔ Relation.ReflTransGen src.Owns id x) ∧
      copy.extract copy.root = .ok copy ∧
      ∃ r u, (transplant src id (some p)).run.run t = .ok (.ok r, u) ∧
        u.extract r = .ok copy ∧ (∃ m, u.get? r = some m ∧ m.parent = some p) ∧
        (∀ x m, t.get? x = some m → u.get? x = some m) ∧
        (∀ x, Relation.ReflTransGen u.Owns r x → t.get? x = none) ∧
        (∀ x, Relation.ReflTransGen u.Owns r x ↔ x ∈ t.free.take copy.slots.size ∨
          t.slots.size ≤ x.index ∧ x.index < t.slots.size + (copy.slots.size - t.free.length)) ∧
        u.free = t.free.drop copy.slots.size ∧
        u.slots.size = t.slots.size + (copy.slots.size - t.free.length) ∧ u.root = t.root := by
  obtain ⟨v, rfl, hv, -⟩ := hsrc.exists_term hid
  obtain ⟨g, hunfolds⟩ := hv.unfolds_compact
  have hroot : v.compact.root = g v.id := by rw [← hunfolds.root, id_withParent, id_rename]
  obtain ⟨hcan, f, u, hgraft, hframe, hholds⟩ := graft_copy ht.exact hv (some p)
  obtain ⟨⟨⟨r, u'⟩, hrun⟩, hresult⟩ := ensures_transplant_graft (some p) hv.extract_eq hcan
  obtain ⟨rfl, rfl⟩ := hresult r u' hrun
  obtain ⟨hfree, hsize⟩ := arena_graft t v.compact (some p)
  rw [size_of_filled (filled_compact v)] at hfree hsize
  have hagain := hholds.extract_rename hv.shaped
  -- the new nodes are those of the copy
  have hid : ((v.rename f).withParent (some p)).id = f v.id := by rw [id_withParent, id_rename]
  rw [hgraft, ← hid] at hrun
  rw [hgraft] at hfree hsize
  rw [← hid] at hagain
  generalize hw : (v.rename f).withParent (some p) = w at hframe hholds hrun hagain
  have hreaches : ∀ x, Relation.ReflTransGen u.Owns w.id x ↔ x ∈ w.footprint :=
    fun x => ⟨hholds.mem_of_reaches, hholds.reaches⟩
  have hlive : ∀ x ∈ w.footprint, ∃ n, u.get? x = some n := fun x hx =>
    (hholds.get?_of_mem hx).imp fun _ h => h.2
  refine ⟨v.compact, hv.extract_eq, hunfolds.wellFormed, rfl, filled_compact v,
    ⟨v.ids, hv.distinct, (size_compact v).symm, fun x => ⟨hv.reaches, hv.mem_of_reaches⟩⟩,
    hroot ▸ hunfolds.holds.extract_rename hv.shaped,
    w.id, u, hrun, hagain, ⟨w.content, hholds.get?_id, ?_⟩, fun x m hx => ?_, fun x hx => ?_, fun x => ?_,
    hfree, hsize, hframe.root⟩
  · rw [← hw, content_withParent]
  · exact hframe.get?_eq hx (Set.notMem_empty x)
  · exact hframe.fresh x ((hreaches x).mp hx) (Set.notMem_empty x)
  · exact (hreaches x).trans (hframe.mem_new_iff ht.exact hlive hfree hsize)

/-- An array comes below another one, which has lost an element. The first of its two nodes fills the slot. -/
theorem transplant_lossless_of_arrays : ∃ (t : GeneTree) (s : WordSource) (copy u : GeneTree) (r : NodeId),
    TreeCall.leaveAll [.randomize ⟨0⟩ true, .mutate {} .uniform ⟨0⟩] (array "xs" (integer "x") 3) ⟨[], 8⟩ =
      .ok (t, s) ∧
    t.free.length = 1 ∧ (object "o" [array "ys" (integer "y") 2]).extract ⟨1⟩ = .ok copy ∧
    copy.slots.size = 2 ∧
    (transplant (object "o" [array "ys" (integer "y") 2]) ⟨1⟩ (some ⟨0⟩)).run.run t = .ok (.ok r, u) ∧
    u.extract r = .ok copy ∧ u.free = [] := by
  have hleave : (TreeCall.leaveAll [.randomize ⟨0⟩ true, .mutate {} .uniform ⟨0⟩]
      (array "xs" (integer "x") 3) (⟨[], 8⟩ : WordSource)).map (fun r => r.1.free.length) = .ok 1 := by
    decide +kernel
  obtain ⟨⟨t, s⟩, hleave, hlost⟩ := ok_of_map hleave
  have ht : t.WellFormed := TreeCall.wellFormed_of_leaveAll (Built.array "xs" 3 (.integer "x")).wellFormed
    (by simp [TreeCall.source?]) ⟨_, _, hleave⟩
  have hsrc : (object "o" [array "ys" (integer "y") 2]).WellFormed := by
    refine (Built.object "o" ?_).wellFormed
    simp only [List.forall_mem_cons, List.not_mem_nil, false_implies, implies_true, and_true]
    exact .array "ys" 2 (.integer "y")
  have hid : (object "o" [array "ys" (integer "y") 2]).get? ⟨1⟩ =
      some ⟨"ys", .array ⟨2⟩ [] 2, some ⟨0⟩⟩ := by decide +kernel
  have hsize : ((object "o" [array "ys" (integer "y") 2]).extract ⟨1⟩).map (·.slots.size) = .ok 2 := by
    decide +kernel
  obtain ⟨copy, hcopy, -, -, -, -, -, r, u, hrun, hagain, -, -, -, -, hfree, -⟩ :=
    transplant_lossless hsrc hid ht ⟨0⟩
  rw [hcopy] at hsize
  have hsize : copy.slots.size = 2 := Except.ok.inj hsize
  have hlost : t.free.length = 1 := hlost
  refine ⟨t, s, copy, u, r, hleave, hlost, hcopy, hsize, hrun, hagain, ?_⟩
  rw [hfree, hsize]
  exact List.drop_eq_nil_of_le (by omega)

end Edit
end CallEvolution
