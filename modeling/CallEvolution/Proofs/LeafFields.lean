import CallEvolution.Proofs.TotalSearch

/-! The leaves of a value: the fields of an object, and of the objects inside it, that are no objects. Each
field keeps its leaves, and the optionals around them, to itself. -/

namespace CallEvolution

open GeneTerm Matching

namespace GeneTerm

theorem fixed_core_subset {v : GeneTerm} (h : v.Shaped) {x : NodeId} (hx : x ∈ v.core.fixed) :
    x ∈ v.fixed := by
  obtain ⟨hs, hv, hplain⟩ := exists_plug_core h
  rw [hv]
  exact fixed_plug hplain hx

theorem eq_of_mem_ids {vs : List GeneTerm} (h : (allIds vs).Nodup) {v w : GeneTerm} (hv : v ∈ vs)
    (hw : w ∈ vs) {x : NodeId} (hxv : x ∈ v.ids) (hxw : x ∈ w.ids) : v = w := by
  induction vs with
  | nil => cases hv
  | cons u us ih =>
    obtain ⟨-, hus, hdisjoint⟩ := List.nodup_append.mp h
    rcases List.mem_cons.mp hv with rfl | hvs <;> rcases List.mem_cons.mp hw with rfl | hws
    · rfl
    · exact absurd rfl (hdisjoint x hxv x (mem_allIds.mpr ⟨w, hws, hxw⟩))
    · exact absurd rfl (hdisjoint x hxw x (mem_allIds.mpr ⟨v, hvs, hxv⟩))
    · exact ih hus hvs hws

end GeneTerm

namespace GeneTree

/-- Is a node the value of a field of an object? -/
def HasField (t : GeneTree) (o x : NodeId) : Prop :=
  t.variant o = .ok .object ∧ ∃ fields f, t.children o = .ok fields ∧ f ∈ fields ∧ t.coreNode f = .ok x

/-- The leaves of a value: the value itself if it is no object, or else the leaves of its fields. -/
inductive Leaf (t : GeneTree) : NodeId → NodeId → Prop where
  | value {x : NodeId} {k : Variant} (hk : t.variant x = .ok k) (hne : k ≠ .object) : t.Leaf x x
  | field {o x z : NodeId} (hx : t.HasField o x) (hz : t.Leaf x z) : t.Leaf o z

variable {t : GeneTree} {p q : GeneTerm} {x z e : NodeId} {k : Variant}

theorem leaf_iff_of_ne (hk : t.variant x = .ok k) (hne : k ≠ .object) : t.Leaf x z ↔ z = x := by
  constructor
  · rintro (⟨-, -⟩ | ⟨hobject, -⟩)
    · rfl
    · exact absurd (Except.ok.inj (hk.symm.trans hobject.1)) hne
  · rintro rfl
    exact .value hk hne

theorem hasField_iff (hp : t.Holds p) (hpo : t.variant p.id = .ok .object) :
    t.HasField p.id x ↔ ∃ q ∈ p.parts, q.core.id = x := by
  have hchildren := hp.children_of_object hpo
  constructor
  · rintro ⟨-, fields, f, hfields, hf, hx⟩
    obtain rfl := Except.ok.inj (hchildren.symm.trans hfields)
    obtain ⟨q, hq, rfl⟩ := List.mem_map.mp hf
    exact ⟨q, hq, Except.ok.inj ((hp.of_part hq).coreNode.symm.trans hx)⟩
  · rintro ⟨q, hq, rfl⟩
    exact ⟨hpo, _, q.id, hchildren, List.mem_map_of_mem hq, (hp.of_part hq).coreNode⟩

theorem leaf_iff_of_object (hp : t.Holds p) (hpo : t.variant p.id = .ok .object) :
    t.Leaf p.id z ↔ ∃ q ∈ p.parts, t.Leaf q.core.id z := by
  constructor
  · intro h
    cases h with
    | value hk hne => exact absurd (Except.ok.inj (hk.symm.trans hpo)) hne
    | field hx hz =>
      obtain ⟨q, hq, rfl⟩ := (hasField_iff hp hpo).mp hx
      exact ⟨q, hq, hz⟩
  · rintro ⟨q, hq, hz⟩
    exact .field ((hasField_iff hp hpo).mpr ⟨q, hq, rfl⟩) hz

theorem mem_fixed_of_part (hp : t.Holds p) (hpo : t.variant p.id = .ok .object) (hq : q ∈ p.parts)
    (hz : z ∈ q.fixed) : z ∈ p.fixed := by
  obtain ⟨id, content, parts⟩ := p
  have hvariant := (exists_variant hp.get?_node).symm.trans hpo
  obtain ⟨fields, type, hobject⟩ := Gene.eq_object_of_variant (Except.ok.inj hvariant)
  rw [fixed, hobject]
  exact List.mem_cons_of_mem _ (List.mem_flatMap.mpr ⟨q, hq, hz⟩)

theorem Leaf.mem_fixed (h : t.Leaf p.id z) (hp : t.Holds p) : z ∈ p.fixed := by
  generalize hx : p.id = x at h
  induction h generalizing p with
  | value => exact hx ▸ p.id_mem_fixed
  | field hfield _ ih =>
    subst hx
    obtain ⟨q, hq, hcore⟩ := (hasField_iff hp hfield.1).mp hfield
    have hq' := hp.of_part hq
    exact mem_fixed_of_part hp hfield.1 hq (fixed_core_subset hq'.shaped (ih hq'.core hcore))

theorem Leaf.mem_fixed_of_core (h : t.Leaf q.core.id z) (hq : t.Holds q) : z ∈ q.fixed :=
  fixed_core_subset hq.shaped (h.mem_fixed hq.core)

/-- The entry to a leaf of a field is the leaf or an optional inside the field. -/
theorem Leaf.entry_mem (h : t.Leaf q.core.id z) (hp : t.Holds p) (hpo : t.variant p.id = .ok .object)
    (hq : q ∈ p.parts) (he : entryPoint t z = .ok e) : e ∈ q.ids := by
  have hfixed := h.mem_fixed_of_core (hp.of_part hq)
  have hshaped := (hp.of_part hq).shaped
  obtain ⟨hs, c, rfl, rfl, hplain⟩ := exists_plug (mem_ids_of_mem_fixed hfixed)
  have hc := (hp.of_part hq).of_plug.get?_id
  obtain ⟨n, hn, rfl | ⟨hparent, hoptional⟩⟩ := cases_of_entryPoint he
  · exact mem_ids_of_mem_fixed hfixed
  · obtain rfl := Option.some.inj (hc.symm.trans hn)
    by_cases hnil : hs = []
    · -- the field itself, whose parent is no optional but the object
      subst hnil
      obtain ⟨id, content, parts⟩ := p
      have howner := hp.shaped
      rw [Shaped] at howner
      obtain rfl : id = e := Option.some.inj ((howner.2 _ hq).1.symm.trans hparent)
      cases hpo.symm.trans hoptional
    · obtain ⟨y, hy, hyparent⟩ := exists_parent_plug (hplain hfixed) hshaped hnil
      obtain rfl : y = e := Option.some.inj (hyparent.symm.trans hparent)
      exact mem_ids_of_mem_fixed hy

end GeneTree

/-- Does a link lead from one node to the place where another one takes its value? -/
def ParamSite.Feeds (v w : ParamSite) (x y : NodeId) (l : Link) : Prop :=
  ∃ e, entryPoint w.tree y = .ok e ∧ l = ⟨v.address x, w.address e, .params⟩

theorem exists_feeds {v w : ParamSite} {p : GeneTerm} {z : NodeId} (hw : w.tree.WellFormed)
    (hp : w.tree.Holds p) (hz : w.tree.Leaf p.id z) : ∃ l, v.Feeds w z z l := by
  obtain ⟨n, -, hn⟩ := hp.get?_of_mem (mem_ids_of_mem_fixed (hz.mem_fixed hp))
  obtain ⟨e, he⟩ := exists_entryPoint hw hn
  exact ⟨_, e, he, rfl⟩

namespace Linker

open Attempt GeneTree

variable {γ : Type} {r : Linker} {source target : ParamSite} {p : GeneTerm}
  {x y f : NodeId} {k : Variant} {depth : Nat} {l : Link} {ls : List Link}

theorem feeds_of_orientedLink (hne : source.action ≠ target.action)
    (h : orientedLink source y target x = .ok l) : source.Feeds target y x l := by
  rw [orientedLink, if_neg hne, pure_bind] at h
  obtain ⟨e, he, h⟩ := ok_of_bind h
  exact ⟨e, he, (Except.ok.inj h).symm⟩

/-- Do links lead from leaves of one value to leaves of another one, no two of them to the same place? -/
structure JoinsLeaves (source target : ParamSite) (y x : NodeId) (ls : List Link) : Prop where
  distinct : (ls.map Link.target).Nodup
  leaves : ∀ l ∈ ls, ∃ w z, source.tree.Leaf y w ∧ target.tree.Leaf x z ∧ source.Feeds target w z l

theorem JoinsLeaves.nil : JoinsLeaves source target y x [] := ⟨List.nodup_nil, List.forall_mem_nil _⟩

theorem JoinsLeaves.field {o : NodeId} (h : JoinsLeaves source target y x ls)
    (hy : source.tree.HasField o y) : JoinsLeaves source target o x ls := by
  refine ⟨h.distinct, fun l hl => ?_⟩
  obtain ⟨w, z, hw, hz, hfeeds⟩ := h.leaves l hl
  exact ⟨w, z, .field hy hw, hz, hfeeds⟩

theorem JoinsLeaves.target_mem {q : GeneTerm} (h : JoinsLeaves source target y q.core.id ls)
    (hp : target.tree.Holds p) (hpo : target.tree.variant p.id = .ok .object) (hq : q ∈ p.parts) :
    ∀ l ∈ ls, l.target.node ∈ q.ids := by
  intro l hl
  obtain ⟨w, z, -, hz, e, he, rfl⟩ := h.leaves l hl
  exact hz.entry_mem hp hpo hq he

section Parts

variable {R : GeneTerm → List Link → Prop} {parts : List GeneTerm} {lss : List (List Link)}

theorem nodup_flatten_of_parts (h : List.Forall₂ R parts lss) (hids : (allIds parts).Nodup)
    (hR : ∀ q ∈ parts, ∀ ks, R q ks → (ks.map Link.target).Nodup ∧ ∀ l ∈ ks, l.target.node ∈ q.ids) :
    (lss.flatten.map Link.target).Nodup := by
  induction h with
  | nil => exact List.nodup_nil
  | @cons q ks parts lss hks hall ih =>
    obtain ⟨-, hrest, hdisjoint⟩ := List.nodup_append.mp hids
    obtain ⟨hhead, htail⟩ := List.forall_mem_cons.mp hR
    rw [List.flatten_cons, List.map_append, List.nodup_append]
    refine ⟨(hhead ks hks).1, ih hrest htail, ?_⟩
    intro a ha b hb heq
    obtain ⟨l, hl, rfl⟩ := List.mem_map.mp ha
    obtain ⟨l', hl', rfl⟩ := List.mem_map.mp hb
    obtain ⟨q', hq', ks', hks', hl'⟩ := exists_of_mem_flatten hall hl'
    have hmem : l'.target.node ∈ allIds parts := mem_allIds.mpr ⟨q', hq', (htail q' hq' ks' hks').2 l' hl'⟩
    exact hdisjoint _ ((hhead ks hks).2 l hl) _ hmem (congrArg GeneAddress.node heq)

/-- Each part has those links for its own that lead into it. -/
theorem exists_share (h : List.Forall₂ R parts lss) (hids : (allIds parts).Nodup)
    (hR : ∀ q ∈ parts, ∀ ks, R q ks → ∀ l ∈ ks, l.target.node ∈ q.ids) {q : GeneTerm} (hq : q ∈ parts) :
    ∃ ks, R q ks ∧ ∀ l, l ∈ ks ↔ l ∈ lss.flatten ∧ l.target.node ∈ q.ids := by
  induction h with
  | nil => cases hq
  | @cons q' ks parts lss hks hall ih =>
    obtain ⟨-, hrest, hdisjoint⟩ := List.nodup_append.mp hids
    obtain ⟨hhead, htail⟩ := List.forall_mem_cons.mp hR
    rcases List.mem_cons.mp hq with rfl | hq
    · refine ⟨ks, hks, fun l => ?_⟩
      rw [List.flatten_cons, List.mem_append]
      constructor
      · intro hl
        exact ⟨.inl hl, hhead ks hks l hl⟩
      · rintro ⟨hl | hl, hnode⟩
        · exact hl
        · obtain ⟨q', hq', ks', hks', hl⟩ := exists_of_mem_flatten hall hl
          have hmem : l.target.node ∈ allIds parts := mem_allIds.mpr ⟨q', hq', htail q' hq' ks' hks' l hl⟩
          exact absurd rfl (hdisjoint _ hnode _ hmem)
    · obtain ⟨ks', hks', hshare⟩ := ih hrest htail hq
      refine ⟨ks', hks', fun l => ?_⟩
      rw [hshare, List.flatten_cons, List.mem_append]
      constructor
      · rintro ⟨hl, hnode⟩
        exact ⟨.inr hl, hnode⟩
      · rintro ⟨hl | hl, hnode⟩
        · have hmem : l.target.node ∈ allIds parts := mem_allIds.mpr ⟨q, hq, hnode⟩
          exact absurd rfl (hdisjoint _ (hhead ks hks l hl) _ hmem)
        · exact ⟨hl, hnode⟩

end Parts

variable [RandomSource γ]

theorem joinsLeaves_of_ne (hne : source.action ≠ target.action) (hk : target.tree.variant x = .ok k)
    (hy : source.tree.variant y = .ok k) (hobject : k ≠ .object)
    (h : r.Links γ target source depth k x y ls) : JoinsLeaves source target y x ls := by
  rw [Links, if_neg hobject] at h
  obtain ⟨l, hl, rfl⟩ := h
  refine ⟨List.nodup_singleton _, List.forall_mem_singleton.mpr ?_⟩
  exact ⟨y, x, .value hy hobject, .value hk hobject, feeds_of_orientedLink hne hl⟩

theorem joinsLeaves_of_field {q : GeneTerm} (hp : target.tree.Holds p) (hq : q ∈ p.parts)
    (hy : source.tree.variant y = .ok .object)
    (hvalues : ∀ k w, target.tree.variant q.core.id = .ok k → source.tree.variant w = .ok k →
      r.Links γ target source depth k q.core.id w ls → JoinsLeaves source target w q.core.id ls)
    (h : r.FieldLinks γ target source depth p.id y q.id ls) : JoinsLeaves source target y q.core.id ls := by
  cases h with
  | idle | alone => exact .nil
  | matched hv hk hname hfields hfound hlinks =>
    obtain ⟨pre, f, post, rfl, hcore, hfits, -⟩ := first_of_matchingField? hfound
    obtain rfl := Except.ok.inj ((hp.of_part hq).coreNode.symm.trans hv)
    have hw := hvalues _ _ hk hfits.1 hlinks
    exact hw.field ⟨hy, _, f, hfields, by simp, hcore⟩

theorem joinsLeaves_of_links (hne : source.action ≠ target.action) (hp : target.tree.Holds p)
    (hk : target.tree.variant p.id = .ok k) (hy : source.tree.variant y = .ok k)
    (h : r.Links γ target source depth k p.id y ls) : JoinsLeaves source target y p.id ls := by
  induction depth generalizing p k y ls with
  | zero =>
    by_cases hobject : k = .object
    · rw [Links, if_pos hobject] at h
      exact absurd h not_throw
    · exact joinsLeaves_of_ne hne hk hy hobject h
  | succ depth ih =>
    by_cases hobject : k = .object
    · subst hobject
      rw [Links, if_pos rfl] at h
      obtain ⟨fields, lss, hchildren, rfl, hall⟩ := of_objectLinksWithin h
      rw [hp.children_of_object hk, Except.ok.injEq] at hchildren
      rw [← hchildren, List.forall₂_map_left_iff] at hall
      have hfield : ∀ q ∈ p.parts, ∀ ks, r.FieldLinks γ target source depth p.id y q.id ks →
          JoinsLeaves source target y q.core.id ks := fun q hq ks hks =>
        joinsLeaves_of_field hp hq hy (fun _ _ hk hw => ih (hp.of_part hq).core hk hw) hks
      constructor
      · refine nodup_flatten_of_parts hall hp.holdsParts.distinct fun q hq ks hks => ?_
        exact ⟨(hfield q hq ks hks).distinct, (hfield q hq ks hks).target_mem hp hk hq⟩
      · intro l hl
        obtain ⟨q, hq, ks, hks, hl⟩ := exists_of_mem_flatten hall hl
        obtain ⟨w, z, hw, hz, hfeeds⟩ := (hfield q hq ks hks).leaves l hl
        exact ⟨w, z, hw, (leaf_iff_of_object hp hk).mpr ⟨q, hq, hz⟩, hfeeds⟩
    · exact joinsLeaves_of_ne hne hk hy hobject h

end Linker
end CallEvolution
