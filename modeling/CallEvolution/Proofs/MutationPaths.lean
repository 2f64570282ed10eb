import CallEvolution.Proofs.Comparison
import CallEvolution.Proofs.Construction
import CallEvolution.Proofs.Mutation
import CallEvolution.Random.Words
import Mathlib.Data.List.Chain

/-! The path that a mutation answers, seen in the trees. What lies aside of the path stands as it stood, and
the only node on it that is altered is the last one, or the one that has got a new member. -/

namespace CallEvolution

open GeneTerm GeneTree

theorem Gene.children_withMembers {g : Gene} (hc : g.isCollection = true) (items : List NodeId) :
    (g.withMembers items).children = items := by
  cases g
  case array | map => rfl
  all_goals cases hc

namespace GeneTerm

variable {R : Gene → Gene → Prop} {v w p q : GeneTerm} {path : List NodeId} {hs : List Hole} {x : NodeId}

theorem mem_ids_of_part (hp : p ∈ v.parts) (hx : x ∈ p.ids) : x ∈ v.ids := by
  obtain ⟨id, content, parts⟩ := v
  rw [ids_node]
  exact List.mem_cons_of_mem _ (List.mem_flatMap.mpr ⟨p, hp, hx⟩)

theorem mem_valueParts_of_before {g : Gene} {before after : List GeneTerm}
    (h : g.isCollection = true → before ≠ []) : p ∈ valueParts g (before ++ p :: after) := by
  rw [valueParts]
  split
  · next hc =>
    obtain ⟨template, before, rfl⟩ := List.exists_cons_of_ne_nil (h hc)
    simp
  · simp

namespace Traces

theorem same_id (h : Traces R v w path) : w.id = v.id := by
  cases h with
  | here h => cases h <;> rfl
  | part => rfl

theorem head (h : Traces R v w path) : path.head? = some v.id := by
  cases h with
  | here h => cases h <;> rfl
  | part => rfl

theorem eq_singleton (h : Traces R v w path) (hv : v.parts = []) : path = [v.id] := by
  cases h with
  | here h =>
    cases h with
    | leaf | switch => rfl
    | grow | shrink => cases hv
  | part => exact absurd hv (by simp [parts])

theorem mem_ids (h : Traces R v w path) (hx : x ∈ path) : x ∈ w.ids := by
  induction h with
  | here h =>
    cases h with
    | leaf | switch | shrink =>
      rw [List.mem_singleton.mp hx]
      exact id_mem_ids _
    | @grow id content template added members hc =>
      rcases List.mem_cons.mp hx with rfl | hx
      · exact id_mem_ids _
      · rw [List.mem_singleton.mp hx]
        exact mem_ids_of_part (by simp [parts]) added.id_mem_ids
  | @part id content before after p q path hmember hactive h ih =>
    rcases List.mem_cons.mp hx with rfl | hx
    · exact id_mem_ids _
    · exact mem_ids_of_part (by simp [parts]) (ih hx)

/-- Each node of the path is a value child of the one before it. -/
theorem isChain (h : Traces R v w path) (hw : w.Shaped) :
    path.IsChain fun x y => ∃ n, (x, n) ∈ w.nodes ∧ y ∈ n.gene.children := by
  induction h with
  | here h =>
    cases h with
    | leaf | switch | shrink => exact List.IsChain.singleton _
    | grow hc =>
      refine List.isChain_pair.mpr ⟨_, mem_nodes_self _, ?_⟩
      change _ ∈ (Gene.withMembers _ _).children
      rw [Gene.children_withMembers hc]
      simp
  | @part id content before after p q path hmember hactive h ih =>
    have hq : q ∈ before ++ q :: after := by simp
    have hchild : p.id ∈ content.gene.children := by
      rw [← map_id_valueParts hw, ← h.same_id]
      exact List.mem_map_of_mem (mem_valueParts_of_before hmember)
    refine List.isChain_cons.mpr ⟨fun y hy => ⟨content, mem_nodes_self _, ?_⟩, ?_⟩
    · rw [h.head, Option.mem_some] at hy
      rwa [← hy]
    · refine (ih (hw.part hq)).imp ?_
      rintro x y ⟨n, hn, hy⟩
      exact ⟨n, mem_nodes_of_part hq hn, hy⟩

/-- The term around what is altered stays. -/
theorem exists_plug (h : Traces R v w path) :
    ∃ hs p q tail, v = plug hs p ∧ w = plug hs q ∧ path = hs.map Hole.id ++ tail ∧ Alters R p q tail := by
  induction h with
  | here h => exact ⟨[], _, _, _, rfl, rfl, rfl, h⟩
  | @part id content before after p q path hmember hactive h ih =>
    obtain ⟨hs, p, q, tail, rfl, rfl, rfl, halters⟩ := ih
    exact ⟨⟨id, content, before, after⟩ :: hs, p, q, tail, rfl, rfl, rfl, halters⟩

end Traces

theorem mem_nodes_plug {e : NodeId × GeneNode} (h : e ∈ (plug hs p).nodes) (he : e ∉ p.nodes)
    (q : GeneTerm) : e ∈ (plug hs q).nodes := by
  induction hs with
  | nil => exact absurd h he
  | cons k hs ih =>
    simp only [plug, nodes, List.mem_cons, List.mem_flatMap, List.mem_append] at h ⊢
    rcases h with rfl | ⟨v, hv | rfl | hv, hmem⟩
    · exact .inl rfl
    · exact .inr ⟨v, .inl hv, hmem⟩
    · exact .inr ⟨plug hs q, .inr (.inl rfl), ih hmem⟩
    · exact .inr ⟨v, .inr (.inr hv), hmem⟩

theorem mem_ids_plug (hx : x ∈ p.ids) : x ∈ (plug hs p).ids := by
  induction hs with
  | nil => exact hx
  | cons k hs ih => exact mem_ids_of_part (by simp [plug, parts]) ih

theorem mem_ids_insert {id : NodeId} {content : GeneNode} {before after : List GeneTerm} :
    x ∈ (node id content (before ++ p :: after)).ids ↔
      x ∈ p.ids ∨ x ∈ (node id content (before ++ after)).ids := by
  simp only [ids_node, List.flatMap_append, List.flatMap_cons, List.mem_cons, List.mem_append]
  tauto

theorem notMem_ids_erase {id : NodeId} {content : GeneNode} {before after : List GeneTerm}
    (hnd : (node id content (before ++ p :: after)).ids.Nodup) (hx : x ∈ p.ids) (content' : GeneNode) :
    x ∉ (node id content' (before ++ after)).ids := by
  have hparts : ((before ++ p :: after).flatMap ids).Perm (p.ids ++ (before ++ after).flatMap ids) :=
    List.perm_middle.flatMap_right ids
  have hperm := (hparts.cons id).trans List.perm_middle.symm
  rw [ids_node, hperm.nodup_iff] at hnd
  rw [ids_node]
  exact List.disjoint_of_nodup_append hnd hx

theorem notMem_ids_plug (hnd : (plug hs p).ids.Nodup) (hx : x ∈ p.ids) (hq : x ∉ q.ids) :
    x ∉ (plug hs q).ids := by
  induction hs with
  | nil => exact hq
  | cons k hs ih =>
    have hpart : (plug hs p).ids.Nodup :=
      (nodup_allIds hnd).sublist (sublist_flatMap_ids (by simp))
    rw [plug, mem_ids_insert, not_or]
    exact ⟨ih hpart, notMem_ids_erase hnd (mem_ids_plug hx) k.content⟩

/-- A collection that has lost one member. -/
structure Loses (p q m : GeneTerm) : Prop where
  mem : m ∈ p.parts
  rest : ∀ r ∈ p.parts, r ∈ q.parts ∨ r = m
  gone : ∀ x ∈ m.ids, x ∉ q.ids
  collection : p.content.gene.isCollection = true ∧ q.content.gene.isCollection = true
  listed : m.id ∈ p.content.gene.children
  unlisted : m.id ∉ q.content.gene.children

namespace Alters

theorem same_id (h : Alters R p q path) : q.id = p.id := by
  cases h <;> rfl

theorem name_eq (h : Alters R p q path) : q.content.name = p.content.name := by
  cases h <;> rfl

theorem parent_eq (h : Alters R p q path) : q.content.parent = p.content.parent := by
  cases h <;> rfl

/-- All parts are kept, or all but a member. -/
theorem keeps_or_loses (h : Alters R p q path) (hp : p.Shaped) (hnd : p.ids.Nodup) :
    (∀ r ∈ p.parts, r ∈ q.parts) ∨ ∃ m, Loses p q m := by
  cases h with
  | leaf | switch => exact .inl fun r hr => hr
  | grow hc =>
    left
    intro r hr
    simp only [parts, List.mem_cons, List.mem_append] at hr ⊢
    tauto
  | @shrink id content template m before after hc =>
    have hnd : (node id content ((template :: before) ++ m :: after)).ids.Nodup := hnd
    refine .inr ⟨m, by simp [parts], fun r hr => ?_, fun x hx => notMem_ids_erase hnd hx _, ⟨hc, ?_⟩, ?_, ?_⟩
    · simp only [parts, List.mem_cons, List.mem_append] at hr ⊢
      tauto
    · exact (Gene.isCollection_withMembers _ _).trans hc
    · have hchildren := map_id_valueParts hp
      rw [valueParts, if_pos hc] at hchildren
      change m.id ∈ content.gene.children
      rw [← hchildren]
      simp
    · change m.id ∉ (Gene.withMembers _ _).children
      rw [Gene.children_withMembers hc]
      intro hmem
      obtain ⟨r, hr, he⟩ := List.mem_map.mp hmem
      refine notMem_ids_erase hnd m.id_mem_ids content ?_
      rw [← he]
      exact mem_ids_of_part (List.mem_cons_of_mem _ hr) r.id_mem_ids

/-- The altered node is the last one that is touched, or it has got the last one as a new member. -/
theorem touches (h : Alters R p q path) (hnd : q.ids.Nodup) :
    path = [p.id] ∨ ∃ added ∈ q.ids, path = [p.id, added] ∧ q.content.gene.isCollection = true ∧
      added ∉ p.ids := by
  cases h with
  | leaf | switch | shrink => exact .inl rfl
  | @grow id content template w members hc =>
    have hnd : (node id _ ((template :: members) ++ w :: [])).ids.Nodup := hnd
    refine .inr ⟨w.id, ?_, rfl, (Gene.isCollection_withMembers _ _).trans hc, ?_⟩
    · exact mem_ids_of_part (by simp [parts]) w.id_mem_ids
    · have hnew := notMem_ids_erase hnd w.id_mem_ids content
      rwa [List.append_nil] at hnew

end Alters

end GeneTerm

namespace GeneTree

variable {R : Gene → Gene → Prop} {t u : GeneTree} {v w p q m : GeneTerm} {path tail : List NodeId}
  {hs : List Hole} {x : NodeId} {n n' : GeneNode}

/-- What becomes of a node when a part of its term is altered: it stays as it is, or it is the altered node,
or it has been below the member that is lost. -/
theorem fate_of_alters (h : Becomes t (GeneTree.plug hs p) u (GeneTree.plug hs q))
    (ht : t.Holds (GeneTree.plug hs p)) (halters : Alters R p q tail) (hn : t.get? x = some n) :
    u.get? x = some n ∨ (x = p.id ∧ n = p.content ∧ u.get? x = some q.content) ∨
      ∃ m, Loses p q m ∧ x ∈ m.ids := by
  have hp := ht.of_plug
  have hq := h.holds.of_plug
  by_cases hx : x ∈ p.ids
  · obtain ⟨k, hk, hlive⟩ := hp.get?_of_mem hx
    obtain rfl : k = n := Option.some.inj (hlive.symm.trans hn)
    by_cases hhead : x = p.id
    · subst hhead
      refine .inr (.inl ⟨rfl, Option.some.inj (hn.symm.trans hp.get?_id), ?_⟩)
      rw [← halters.same_id]
      exact hq.get?_id
    obtain ⟨r, hr, hxr⟩ : ∃ r ∈ p.parts, x ∈ r.ids := by
      obtain ⟨id, content, parts⟩ := p
      rw [ids_node, List.mem_cons, List.mem_flatMap] at hx
      exact hx.resolve_left hhead
    have hsame : r ∈ q.parts → u.get? x = some k := by
      intro hr'
      obtain ⟨l, hl, hlive⟩ := (hp.of_part hr).get?_of_mem hxr
      obtain rfl : l = k := Option.some.inj (hlive.symm.trans hn)
      exact (hq.of_part hr').kept hl
    rcases halters.keeps_or_loses hp.shaped hp.distinct with hkeeps | ⟨m, hm⟩
    · exact .inl (hsame (hkeeps r hr))
    · rcases hm.rest r hr with hr' | rfl
      · exact .inl (hsame hr')
      · exact .inr (.inr ⟨r, hm, hxr⟩)
  · by_cases hv : x ∈ (GeneTree.plug hs p).ids
    · obtain ⟨k, hk, hlive⟩ := ht.get?_of_mem hv
      obtain rfl : k = n := Option.some.inj (hlive.symm.trans hn)
      exact .inl (h.holds.kept (mem_nodes_plug hk (fun hmem => hx (mem_ids.mpr ⟨k, hmem⟩)) q))
    · exact .inl (h.frame.get?_eq hn hv)

theorem dead_of_loses (h : Becomes t (GeneTree.plug hs p) u (GeneTree.plug hs q))
    (ht : t.Holds (GeneTree.plug hs p)) (hm : Loses p q m) (hx : x ∈ m.ids) : u.get? x = none := by
  have hxp := mem_ids_of_part hm.mem hx
  exact h.frame.gone x (mem_ids_plug hxp) (notMem_ids_plug ht.distinct hxp (hm.gone x hx))

/-- The nodes that are gone are those of a member that its collection lists no longer. -/
structure Frees (t u : GeneTree) (owner member : NodeId) : Prop where
  listed : ∃ g, t.gene owner = .ok g ∧ g.isCollection = true ∧ member ∈ g.children
  unlisted : ∃ g, u.gene owner = .ok g ∧ g.isCollection = true ∧ member ∉ g.children
  gone : ∀ x, t.contains x = true ∧ u.contains x = false ↔ Relation.ReflTransGen t.Owns member x

/-- What a mutation of a node has done if it has answered a path: the path leads down to the altered node, or
to the member that this one has got, and nothing aside of it has changed. -/
structure Reports (t u : GeneTree) (id : NodeId) (touched : List NodeId) : Prop where
  head : touched.head? = some id
  chain : touched.IsChain fun x y => ∃ below, u.children x = .ok below ∧ y ∈ below
  live : ∀ x ∈ touched, u.contains x = true
  kept : ∀ x n n', t.get? x = some n → u.get? x = some n' → n'.name = n.name ∧ n'.parent = n.parent
  freed : (∀ x, t.contains x = true → u.contains x = true) ∨ ∃ owner member, Frees t u owner member
  altered : ∀ x n n', t.get? x = some n → u.get? x = some n' → n'.gene ≠ n.gene →
    touched.getLast? = some x ∨ ∃ front added, touched = front ++ [x, added] ∧
      n'.gene.isCollection = true ∧ t.contains added = false

theorem contains_eq_false {x : NodeId} : t.contains x = false ↔ t.get? x = none := by
  rw [contains, Option.isSome_eq_false_iff, Option.isNone_iff_eq_none]

theorem frees_of_loses (h : Becomes t (GeneTree.plug hs p) u (GeneTree.plug hs q))
    (ht : t.Holds (GeneTree.plug hs p)) (halters : Alters R p q tail) (hm : Loses p q m) :
    Frees t u p.id m.id := by
  have hp := ht.of_plug
  have hq := h.holds.of_plug
  have hmp := hp.of_part hm.mem
  refine ⟨⟨_, gene_of_get? hp.get?_id, hm.collection.1, hm.listed⟩,
    ⟨_, gene_of_get? (halters.same_id ▸ hq.get?_id), hm.collection.2, hm.unlisted⟩, fun x => ⟨?_, ?_⟩⟩
  · rintro ⟨hlive, hdead⟩
    obtain ⟨n, hn⟩ := Option.isSome_iff_exists.mp hlive
    rw [contains_eq_false] at hdead
    rcases fate_of_alters h ht halters hn with hsame | ⟨-, -, hhead⟩ | ⟨k, hk, hx⟩
    · rw [hsame] at hdead
      cases hdead
    · rw [hhead] at hdead
      cases hdead
    · rcases hk.rest m hm.mem with hmq | rfl
      · -- a term loses one member only
        exact absurd (mem_ids_of_part hmq m.id_mem_ids) (hm.gone m.id m.id_mem_ids)
      · exact hmp.reaches hx
  · intro hreach
    have hx := hmp.mem_of_reaches hreach
    obtain ⟨n, -, hn⟩ := hmp.get?_of_mem hx
    exact ⟨contains_of_get? hn, contains_eq_false.mpr (dead_of_loses h ht hm hx)⟩

theorem reports_of_traces (h : Becomes t v u w) (ht : t.Holds v) (htraces : Traces R v w path) :
    Reports t u v.id path := by
  have hw := h.holds
  have hlive : ∀ {x}, x ∈ w.ids → u.contains x = true := by
    intro x hx
    obtain ⟨n, -, hn⟩ := hw.get?_of_mem hx
    exact contains_of_get? hn
  have hchain : path.IsChain fun x y => ∃ below, u.children x = .ok below ∧ y ∈ below := by
    refine (htraces.isChain hw.shaped).imp ?_
    rintro x y ⟨n, hn, hy⟩
    refine ⟨n.gene.children, ?_, hy⟩
    rw [children, gene_of_get? (hw.kept hn)]
    rfl
  have hsub : ∀ x ∈ path, u.contains x = true := fun x hx => hlive (htraces.mem_ids hx)
  have hhead := htraces.head
  obtain ⟨hs, p, q, tail, rfl, rfl, rfl, halters⟩ := htraces.exists_plug
  have hp := ht.of_plug
  have hq := hw.of_plug
  refine ⟨hhead, hchain, hsub, fun x n n' hn hn' => ?_, ?_, fun x n n' hn hn' hne => ?_⟩
  · rcases fate_of_alters h ht halters hn with hsame | ⟨-, rfl, hx⟩ | ⟨m, hm, hx⟩
    · rw [hn', Option.some.injEq] at hsame
      rw [hsame]
      exact ⟨rfl, rfl⟩
    · rw [hn', Option.some.injEq] at hx
      rw [hx]
      exact ⟨halters.name_eq, halters.parent_eq⟩
    · rw [dead_of_loses h ht hm hx] at hn'
      cases hn'
  · rcases halters.keeps_or_loses hp.shaped hp.distinct with hkeeps | ⟨m, hm⟩
    · refine .inl fun x hx => ?_
      obtain ⟨n, hn⟩ := Option.isSome_iff_exists.mp hx
      rcases fate_of_alters h ht halters hn with hsame | ⟨-, -, hx⟩ | ⟨m, hm, -⟩
      · exact contains_of_get? hsame
      · exact contains_of_get? hx
      · exact absurd (mem_ids_of_part (hkeeps m hm.mem) m.id_mem_ids) (hm.gone m.id m.id_mem_ids)
    · exact .inr ⟨p.id, m.id, frees_of_loses h ht halters hm⟩
  · rcases fate_of_alters h ht halters hn with hsame | ⟨rfl, rfl, hx⟩ | ⟨m, hm, hx⟩
    · rw [hn', Option.some.injEq] at hsame
      exact absurd (congrArg GeneNode.gene hsame) hne
    · rw [hn', Option.some.injEq] at hx
      subst hx
      rcases halters.touches hq.distinct with rfl | ⟨added, hadded, rfl, hc, hnew⟩
      · exact .inl (by simp)
      · refine .inr ⟨hs.map Hole.id, added, rfl, hc, ?_⟩
        rw [contains_eq_false]
        exact h.frame.fresh added (mem_ids_plug hadded) (notMem_ids_plug hw.distinct hadded hnew)
    · rw [dead_of_loses h ht hm hx] at hn'
      cases hn'

end GeneTree

namespace RandomEdit

variable {γ : Type} [RandomSource γ] {c : MutationSettings} {steering : Steering} {t : GeneTree} {id : NodeId}
  {n : GeneNode}

omit [RandomSource γ] in
theorem run_query_bind {α β : Type} {q : GeneTree → Except GeneError α} {f : α → RandomEdit γ β} {a : α}
    (h : q t = .ok a) (s : γ) : (lift (Edit.query q) >>= f).run.run t s = (f a).run.run t s := by
  have hrun : (lift (Edit.query q) >>= f).run.run t s = (ExceptT.bindCont f (q t)).run t s := rfl
  rw [hrun, h]
  rfl

omit [RandomSource γ] in
theorem run_get_bind {β : Type} {f : GeneTree → RandomEdit γ β} (s : γ) :
    (lift get >>= f).run.run t s = (f t).run.run t s := rfl

theorem descentBound_pos (t : GeneTree) : 0 < descentBound t := Nat.add_pos_left (Nat.succ_pos _) _

theorem mutate_of_immutable (hid : t.get? id = some n) (hfixed : t.isMutable id = .ok false) (s : γ) :
    (mutate c steering id).run.run t s = .ok ((.error (.immutable n.name), t), s) := by
  have hname : t.name id = .ok n.name := by
    rw [GeneTree.name, node_of_get? hid]
    rfl
  refine (run_get_bind s).trans ?_
  obtain ⟨d, hd⟩ := Nat.exists_eq_add_one.mpr (descentBound_pos t)
  rw [hd]
  refine (run_query_bind hfixed s).trans ?_
  exact (run_query_bind hname s).trans rfl

/-- A mutation is refused, or answers the path to the one node that it alters. -/
theorem mutate_reports (ht : t.WellFormed) (hid : t.get? id = some n) (c : MutationSettings) (steering : Steering) :
    (t.isMutable id = .ok false →
      ∀ s : γ, (mutate c steering id).run.run t s = .ok ((.error (.immutable n.name), t), s)) ∧
    ∀ (s s' : γ) (touched : List NodeId) (u : GeneTree),
      (mutate c steering id).run.run t s = .ok ((.ok touched, u), s') → Reports t u id touched := by
  refine ⟨mutate_of_immutable hid, fun s s' touched u hrun => ?_⟩
  obtain ⟨v, rfl, hv, -⟩ := ht.exists_term hid
  obtain ⟨w, hw⟩ := (answers_mutate lasts_true ht.exact hv c steering).2 _ _ ⟨s, s', hrun⟩
  exact reports_of_traces hw.becomes hv (hw.traces touched rfl)

/-- An array gets an element, in an object with a number that has one value only. -/
theorem mutate_reports_of_object : ∃ (u : GeneTree) (s : WordSource),
    (mutate {} .uniform ⟨0⟩).run.run
      (object "o" [array "xs" (integerIn "v" 0 9) 3, integerIn "n" 5 5]) ⟨[], 8⟩ =
        .ok ((.ok [⟨0⟩, ⟨1⟩, ⟨4⟩], u), s) ∧
    Reports (object "o" [array "xs" (integerIn "v" 0 9) 3, integerIn "n" 5 5]) u ⟨0⟩ [⟨0⟩, ⟨1⟩, ⟨4⟩] ∧
    ∀ s : WordSource, (mutate {} .uniform ⟨3⟩).run.run
      (object "o" [array "xs" (integerIn "v" 0 9) 3, integerIn "n" 5 5]) s =
        .ok ((.error (.immutable "n"), object "o" [array "xs" (integerIn "v" 0 9) 3, integerIn "n" 5 5]), s) := by
  have hbuilt : Built (object "o" [array "xs" (integerIn "v" 0 9) 3, integerIn "n" 5 5]) := by
    refine .object "o" ?_
    simp only [List.forall_mem_cons, List.not_mem_nil, false_implies, implies_true, and_true]
    exact ⟨.array "xs" 3 (.integerIn "v" 0 9), .integerIn "n" 5 5⟩
  have hwell := hbuilt.wellFormed
  have hroot : (object "o" [array "xs" (integerIn "v" 0 9) 3, integerIn "n" 5 5]).get? ⟨0⟩ =
      some ⟨"o", .object [⟨1⟩, ⟨3⟩] none, none⟩ := by decide +kernel
  have hnumber : (object "o" [array "xs" (integerIn "v" 0 9) 3, integerIn "n" 5 5]).get? ⟨3⟩ =
      some ⟨"n", .integer 5 5 5, some ⟨0⟩⟩ := by decide +kernel
  have hfixed : (object "o" [array "xs" (integerIn "v" 0 9) 3, integerIn "n" 5 5]).isMutable ⟨3⟩ =
      .ok false := by decide +kernel
  have hrun : ((mutate {} .uniform ⟨0⟩).run.run
      (object "o" [array "xs" (integerIn "v" 0 9) 3, integerIn "n" 5 5]) (⟨[], 8⟩ : WordSource)).map
      (fun r => r.1.1) = .ok (.ok [⟨0⟩, ⟨1⟩, ⟨4⟩]) := by decide +kernel
  obtain ⟨⟨⟨touched, u⟩, s⟩, hstep, rfl⟩ := ok_of_map hrun
  refine ⟨u, s, hstep, ?_, ?_⟩
  · exact (mutate_reports hwell hroot {} .uniform).2 _ _ _ _ hstep
  · exact (mutate_reports hwell hnumber {} .uniform).1 hfixed

end RandomEdit
end CallEvolution
