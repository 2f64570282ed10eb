import CallEvolution.Proofs.Mould

/-! The places of a term: its fixed nodes. A collection is one place, with all its members; another node
is a place with its own value. The values at all places make up the value of the term. -/

namespace CallEvolution

open GeneTerm GeneTree

namespace GeneTerm

/-- The value that stands at a node itself. -/
def ownValue : GeneTerm → GeneTerm
  | node id content parts =>
    if content.gene.isCollection then (node id content parts).erase
    else node ⟨0⟩ (content.rename fun _ => ⟨0⟩) []

def places : GeneTerm → List (NodeId × GeneTerm)
  | node id content parts =>
    (id, ownValue (node id content parts)) ::
      if content.gene.isCollection then [] else parts.flatMap places

/-- The value at a place. -/
def valueAt (v : GeneTerm) (x : NodeId) : Option GeneTerm := v.places.lookup x

variable {v w : GeneTerm} {id : NodeId} {content : GeneNode} {parts : List GeneTerm} {x : NodeId}

theorem map_fst_places (v : GeneTerm) : v.places.map Prod.fst = v.fixed := by
  induction v using induct with
  | node id content parts ih =>
    rw [places, fixed, List.map_cons]
    congr 1
    split
    · rfl
    · rw [List.map_flatMap]
      exact List.flatMap_congr fun p hp => ih p hp

theorem nodup_fixed (h : v.ids.Nodup) : v.fixed.Nodup := by
  induction v using induct with
  | node id content parts ih =>
    have hnot := id_notMem_allIds h
    have hparts := nodup_allIds h
    rw [fixed]
    split
    · exact List.nodup_singleton id
    · refine List.nodup_cons.mpr ⟨fun hx => hnot ?_, ?_⟩
      · obtain ⟨p, hp, hx⟩ := List.mem_flatMap.mp hx
        exact mem_allIds.mpr ⟨p, hp, mem_ids_of_mem_fixed hx⟩
      · rw [allIds, List.nodup_flatMap] at hparts
        refine List.nodup_flatMap.mpr ⟨fun p hp => ih p hp (hparts.1 p hp), ?_⟩
        refine hparts.2.imp fun hpq => ?_
        exact fun x hx hy => hpq (mem_ids_of_mem_fixed hx) (mem_ids_of_mem_fixed hy)

theorem mem_places_iff (h : v.ids.Nodup) {c : GeneTerm} :
    v.valueAt x = some c ↔ (x, c) ∈ v.places := by
  have hkeys : (v.places.map Prod.fst).Nodup := by
    rw [map_fst_places]
    exact nodup_fixed h
  rw [valueAt]
  generalize v.places = l at hkeys
  induction l with
  | nil => simp
  | cons r l ih =>
    obtain ⟨y, d⟩ := r
    obtain ⟨hy, hl⟩ := List.nodup_cons.mp hkeys
    by_cases hxy : x = y
    · rw [hxy, List.lookup_cons_self, List.mem_cons, Option.some.injEq, Prod.mk.injEq]
      constructor
      · exact fun hd => .inl ⟨rfl, hd.symm⟩
      · rintro (⟨-, hd⟩ | hmem)
        · exact hd.symm
        · exact absurd (List.mem_map_of_mem (f := Prod.fst) hmem) hy
    · have hne : (x == y) = false := by simpa using hxy
      simp only [List.lookup_cons, hne, List.mem_cons, Prod.mk.injEq, hxy, false_and, false_or]
      exact ih hl

theorem exists_valueAt (h : v.ids.Nodup) (hx : x ∈ v.fixed) : ∃ c, v.valueAt x = some c := by
  rw [← map_fst_places] at hx
  obtain ⟨⟨y, c⟩, hmem, rfl⟩ := List.mem_map.mp hx
  exact ⟨c, (mem_places_iff h).mpr hmem⟩

theorem valueAt_self (v : GeneTerm) : v.valueAt v.id = some v.ownValue := by
  obtain ⟨id, content, parts⟩ := v
  rw [valueAt, places, GeneTerm.id, List.lookup_cons_self]

theorem nodup_of_part (h : (node id content parts).ids.Nodup) {p : GeneTerm} (hp : p ∈ parts) :
    p.ids.Nodup := (nodup_allIds h).sublist (sublist_flatMap_ids hp)

theorem valueAt_of_part (h : (node id content parts).ids.Nodup)
    (hc : content.gene.isCollection = false) {p : GeneTerm} (hp : p ∈ parts) (hx : x ∈ p.fixed) :
    (node id content parts).valueAt x = p.valueAt x := by
  obtain ⟨c, hvalue⟩ := exists_valueAt (nodup_of_part h hp) hx
  rw [hvalue, mem_places_iff h, places, if_neg (by simp [hc])]
  refine List.mem_cons_of_mem _ (List.mem_flatMap.mpr ⟨p, hp, ?_⟩)
  exact (mem_places_iff (nodup_of_part h hp)).mp hvalue

/-- The places tell the value. -/
theorem erase_eq_of_places (hv : v.Shaped) (hw : w.Shaped) (hvn : v.ids.Nodup) (hwn : w.ids.Nodup)
    (hmould : v.mould = w.mould) (h : ∀ x ∈ v.fixed, v.valueAt x = w.valueAt x) :
    v.erase = w.erase := by
  induction v using induct generalizing w with
  | node id content parts ih =>
    obtain ⟨id', content', parts'⟩ := w
    obtain ⟨rfl, hblank, -, hparts⟩ := alikeNodes hv hw hmould
    have hcoll := isCollection_of_blank hblank
    have hown := h id (by simp [fixed])
    have hv' := valueAt_self (node id content parts)
    have hw' := valueAt_self (node id content' parts')
    change valueAt _ id = _ at hv'
    change valueAt _ id = _ at hw'
    rw [hv', hw', Option.some.injEq, ownValue, ownValue, ← hcoll] at hown
    by_cases hc : content.gene.isCollection = true
    · rwa [if_pos hc, if_pos hc] at hown
    · rw [if_neg hc, if_neg hc, node.injEq] at hown
      rw [Bool.not_eq_true] at hc
      rw [erase_node, erase_node, hown.2.1]
      congr 1
      have hall : List.Forall₂ (fun p q => p.erase = q.erase) parts parts' := by
        refine forall₂_of_mem (hparts hc) fun p hp q hq hpq => ?_
        refine ih p hp (hv.part hp) (hw.part hq) (nodup_of_part hvn hp) (nodup_of_part hwn hq) hpq ?_
        intro x hx
        have hx' : x ∈ q.fixed := fixed_eq_of_mould_eq (hv.part hp) (hw.part hq) hpq ▸ hx
        have hxv : x ∈ (node id content parts).fixed := by
          rw [fixed, if_neg (by simp [hc])]
          exact List.mem_cons_of_mem _ (List.mem_flatMap.mpr ⟨p, hp, hx⟩)
        rw [← valueAt_of_part hvn hc hp hx, ← valueAt_of_part hwn (hcoll ▸ hc) hq hx']
        exact h x hxv
      exact map_eq_of_forall₂ hall

/-- Terms of one mould and one value have the same value at each place. -/
theorem places_eq_of_erase (hv : v.Shaped) (hw : w.Shaped) (hmould : v.mould = w.mould)
    (h : v.erase = w.erase) : v.places = w.places := by
  induction v using induct generalizing w with
  | node id content parts ih =>
    obtain ⟨id', content', parts'⟩ := w
    obtain ⟨rfl, hblank, -, hparts⟩ := alikeNodes hv hw hmould
    have hcoll := isCollection_of_blank hblank
    have hnode := h
    rw [erase_node, erase_node, node.injEq] at hnode
    obtain ⟨-, hcontent, herase⟩ := hnode
    by_cases hc : content.gene.isCollection = true
    · simp only [places, ownValue, ← hcoll, hc, if_true, h]
    · rw [Bool.not_eq_true] at hc
      have hall : parts.flatMap places = parts'.flatMap places := by
        refine flatMap_eq_of_forall₂ (forall₂_of_mem (forall₂_and_map_eq (hparts hc) herase) ?_)
        rintro p hp q hq ⟨hpq, he⟩
        exact ih p hp (hv.part hp) (hw.part hq) hpq he
      simp only [places, ownValue, ← hcoll, hc, hcontent, hall]
      rfl

/-- Terms of one mould have parts of one mould at each fixed node. -/
theorem exists_plugs (hv : v.Shaped) (hw : w.Shaped) (h : v.mould = w.mould) (hx : x ∈ v.fixed) :
    ∃ hs ks p q, v = plug hs p ∧ w = plug ks q ∧ p.id = x ∧ q.id = x ∧ p.mould = q.mould ∧
      (∀ h ∈ hs, h.content.gene.isCollection = false) ∧
        ∀ h ∈ ks, h.content.gene.isCollection = false := by
  induction v using induct generalizing w with
  | node id content parts ih =>
    obtain ⟨id', content', parts'⟩ := w
    by_cases hxid : x = id
    · refine ⟨[], [], _, _, rfl, rfl, hxid.symm, ?_, h, List.forall_mem_nil _, List.forall_mem_nil _⟩
      rw [hxid]
      exact id_eq_of_mould_eq h.symm
    · obtain ⟨rfl, hblank, -, hparts⟩ := alikeNodes hv hw h
      obtain ⟨hc, p, hp, hxp⟩ := (mem_fixed_node hxid).mp hx
      obtain ⟨q, hq, hpq⟩ := exists_of_forall₂ (hparts hc) hp
      obtain ⟨hs, ks, p', q', rfl, rfl, hp', hq', hmould, hplain, hplain'⟩ :=
        ih p hp (hv.part hp) (hw.part hq) hpq hxp
      obtain ⟨pre, post, rfl⟩ := List.append_of_mem hp
      obtain ⟨pre', post', rfl⟩ := List.append_of_mem hq
      refine ⟨⟨id, content, pre, post⟩ :: hs, ⟨id, content', pre', post'⟩ :: ks, p', q', rfl, rfl,
        hp', hq', hmould, List.forall_mem_cons.mpr ⟨hc, hplain⟩, List.forall_mem_cons.mpr ⟨?_, hplain'⟩⟩
      exact isCollection_of_blank hblank ▸ hc

theorem places_plug {hs : List Hole} (hplain : ∀ h ∈ hs, h.content.gene.isCollection = false) :
    ∃ xs ys, ∀ q, (plug hs q).places = xs ++ q.places ++ ys := by
  induction hs with
  | nil => exact ⟨[], [], fun q => by simp [plug]⟩
  | cons h hs ih =>
    obtain ⟨hc, hplain⟩ := List.forall_mem_cons.mp hplain
    obtain ⟨xs, ys, hq⟩ := ih hplain
    refine ⟨(h.id, node ⟨0⟩ (h.content.rename fun _ => ⟨0⟩) []) :: (h.before.flatMap places ++ xs),
      ys ++ h.after.flatMap places, fun q => ?_⟩
    rw [plug, places, ownValue, if_neg (by simp [hc]), if_neg (by simp [hc]), List.flatMap_append,
      List.flatMap_cons, hq]
    simp

theorem valueAt_plug_of_notMem {hs : List Hole}
    (hplain : ∀ h ∈ hs, h.content.gene.isCollection = false) (hx : x ∉ v.fixed)
    (hfixed : w.fixed = v.fixed) : (plug hs w).valueAt x = (plug hs v).valueAt x := by
  obtain ⟨xs, ys, hq⟩ := places_plug hplain
  have hskip : ∀ q : GeneTerm, x ∉ q.fixed → q.places.lookup x = none := by
    intro q hxq
    rw [← map_fst_places] at hxq
    refine List.lookup_eq_none_iff.mpr fun r hr => ?_
    simp only [bne_iff_ne, ne_eq]
    rintro rfl
    exact hxq (List.mem_map_of_mem hr)
  rw [valueAt, valueAt, hq, hq]
  simp only [List.lookup_append, hskip v hx, hskip w (hfixed ▸ hx)]

theorem fixed_plug {hs : List Hole}
    (hplain : ∀ h ∈ hs, h.content.gene.isCollection = false) (hx : x ∈ v.fixed) :
    x ∈ (plug hs v).fixed := by
  obtain ⟨xs, ys, hq⟩ := places_plug hplain
  rw [← map_fst_places, hq, List.map_append, List.map_append, map_fst_places]
  simp [hx]

theorem valueAt_plug_of_mem {hs : List Hole} (hnd : (plug hs v).ids.Nodup)
    (hplain : ∀ h ∈ hs, h.content.gene.isCollection = false) (hx : x ∈ v.fixed) :
    (plug hs v).valueAt x = v.valueAt x := by
  induction hs with
  | nil => rfl
  | cons h hs ih =>
    obtain ⟨hc, hplain⟩ := List.forall_mem_cons.mp hplain
    have hpart : plug hs v ∈ h.before ++ plug hs v :: h.after := by simp
    rw [plug, valueAt_of_part hnd hc hpart (fixed_plug hplain hx)]
    exact ih (nodup_of_part hnd hpart) hplain

end GeneTerm
end CallEvolution
