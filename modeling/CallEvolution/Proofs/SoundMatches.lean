import CallEvolution.Proofs.Construction
import CallEvolution.Proofs.LeafFields
import CallEvolution.Random.Words

/-! Matching two objects of different actions. A link joins values that meet: both are fields of objects that
meet, and their names match. Inactive optionals that are left out get no links, and neither does what is
inside of them. -/

namespace CallEvolution

open Attempt GeneTerm GeneTree Matching

namespace GeneTree

/-- Is a node an optional without a value? -/
def IsInactive (t : GeneTree) (f : NodeId) : Prop := ∃ inner, t.gene f = .ok (.optional inner false)

/-- Is a node a field of an object? -/
def IsField (t : GeneTree) (o f : NodeId) : Prop :=
  t.variant o = .ok .object ∧ ∃ fields, t.children o = .ok fields ∧ f ∈ fields

variable {t : GeneTree} {p q : GeneTerm} {o f x e : NodeId}

theorem isField_iff (hp : t.Holds p) (hpo : t.variant p.id = .ok .object) :
    t.IsField p.id f ↔ ∃ q ∈ p.parts, q.id = f := by
  have hchildren := hp.children_of_object hpo
  constructor
  · rintro ⟨-, fields, hfields, hf⟩
    obtain rfl := Except.ok.inj (hchildren.symm.trans hfields)
    exact List.mem_map.mp hf
  · rintro ⟨q, hq, rfl⟩
    exact ⟨hpo, _, hchildren, List.mem_map_of_mem hq⟩

theorem IsField.owns (h : t.IsField o f) : t.Owns o f := by
  obtain ⟨ho, fields, hfields, hf⟩ := h
  obtain ⟨n, hn, hvariant⟩ := exists_of_variant ho
  obtain ⟨ys, type, hobject⟩ := Gene.eq_object_of_variant hvariant
  rw [children, gene_of_get? hn, hobject] at hfields
  obtain rfl : ys = fields := Except.ok.inj hfields
  obtain ⟨i, hi⟩ := List.getElem?_of_mem hf
  exact ⟨i, n, hn, by rw [hobject]; exact hi⟩

/-- An object inside a field lies in the field's value. -/
theorem mem_ids_core_of_object (hq : t.Holds q) (ho : o ∈ q.ids) (hobject : t.variant o = .ok .object) :
    o ∈ q.core.ids := by
  induction q using induct with
  | node id content parts ih =>
    by_cases hw : content.gene.isWrapper = true
    · obtain ⟨p, rfl⟩ := hq.shaped.exists_part hw
      rw [core_wrapper hw]
      rw [ids_node, List.mem_cons, List.flatMap_singleton] at ho
      refine ih p (by simp) (hq.of_part (by simp [GeneTerm.parts])) (ho.resolve_left ?_)
      rintro rfl
      rw [exists_variant hq.get?_node, Except.ok.injEq] at hobject
      obtain ⟨fields, type, hgene⟩ := Gene.eq_object_of_variant hobject
      rw [hgene] at hw
      cases hw
    · rw [Bool.not_eq_true] at hw
      rwa [core_self hw]

theorem reaches_of_entryPoint (ht : t.WellFormed) (he : entryPoint t x = .ok e) :
    Relation.ReflTransGen t.Owns e x := by
  obtain ⟨n, hn, rfl | ⟨hparent, hoptional⟩⟩ := cases_of_entryPoint he
  · exact .refl
  · obtain ⟨m, hm, -⟩ := exists_of_variant hoptional
    obtain ⟨i, hi⟩ := List.getElem?_of_mem (ht.owned_of_parent hn hparent hm)
    exact .single ⟨i, m, hm, hi⟩

/-- Whoever enters at an optional finds the value inside it. -/
theorem coreNode_of_entryPoint (ht : t.WellFormed) (hx : t.IsCore x) (he : entryPoint t x = .ok e) :
    t.coreNode e = .ok x := by
  obtain ⟨g, hg, hcore⟩ := hx
  have hself := coreNode_of_gene hg hcore
  obtain ⟨n, hn, rfl | ⟨hparent, hoptional⟩⟩ := cases_of_entryPoint he
  · exact hself
  · obtain ⟨m, hm, hvariant⟩ := exists_of_variant hoptional
    obtain ⟨⟨id, content, parts⟩, rfl, hp, -⟩ := ht.exists_term hm
    obtain rfl : m = content := Option.some.inj (hm.symm.trans hp.get?_node)
    have howned := ht.owned_of_parent hn hparent hm
    have hw : m.gene.isWrapper = true := by
      rw [← Bool.not_eq_false, Gene.isWrapper_eq_false_iff]
      exact fun h => h.1 hvariant
    have hshaped := hp.shaped
    obtain ⟨q, rfl⟩ := hshaped.exists_part hw
    rw [Shaped] at hshaped
    rw [← hshaped.1, List.map_singleton, List.mem_singleton] at howned
    subst howned
    rw [hp.coreNode, core_wrapper hw, ← hp.parts.head.coreNode]
    exact hself

end GeneTree

namespace Linker

/-- Do two values stand in the same place of two objects? They are no objects themselves, they have the same
variant, and the names match on the whole way down to them. -/
inductive Meets (r : Linker) (target source : ParamSite) : NodeId → NodeId → NodeId → NodeId → Prop where
  | value {x y : NodeId} {k : Variant} (hx : target.tree.variant x = .ok k)
    (hy : source.tree.variant y = .ok k) (hk : k ≠ .object) : Meets r target source x y x y
  | field {x y x' y' z w : NodeId} {k : Variant} {name : String} (hx : target.tree.HasField x x')
    (hy : source.tree.HasField y y') (hk : target.tree.variant x' = .ok k)
    (hname : qualifiedName target.tree x x' = .ok name) (hfits : r.Fits source.tree y name k y')
    (h : Meets r target source x' y' z w) : Meets r target source x y z w

/-- Does a link lead from inside one object to inside another one, and join values that meet? -/
structure JoinsAlike (r : Linker) (target source : ParamSite) (x y : NodeId) (l : Link) : Prop where
  addresses : l = ⟨source.address l.source.node, target.address l.target.node, .params⟩
  source_live : source.tree.contains l.source.node = true
  source_below : Relation.ReflTransGen source.tree.Owns y l.source.node
  target_live : target.tree.contains l.target.node = true
  target_below : Relation.ReflTransGen target.tree.Owns x l.target.node
  meets : ∃ z w, target.tree.coreNode l.target.node = .ok z ∧ source.tree.coreNode l.source.node = .ok w ∧
    r.Meets target source x y z w

variable {γ : Type} {r : Linker} {target source : ParamSite} {p q : GeneTerm} {x y z w o f : NodeId}
  {k : Variant} {depth : Nat} {l : Link} {ls : List Link}

namespace Meets

theorem leaf_target (h : r.Meets target source x y z w) : target.tree.Leaf x z := by
  induction h with
  | value hx _ hk => exact .value hx hk
  | field hx _ _ _ _ _ ih => exact .field hx ih

theorem leaf_source (h : r.Meets target source x y z w) : source.tree.Leaf y w := by
  induction h with
  | value _ hy hk => exact .value hy hk
  | field _ hy _ _ _ _ ih => exact .field hy ih

end Meets

theorem reaches_leaf {t : GeneTree} (hp : t.Holds p) (hz : t.Leaf p.id z) :
    z ∈ p.ids ∧ t.contains z = true ∧ Relation.ReflTransGen t.Owns p.id z := by
  have hmem := mem_ids_of_mem_fixed (hz.mem_fixed hp)
  obtain ⟨n, -, hn⟩ := hp.get?_of_mem hmem
  exact ⟨hmem, contains_of_get? hn, hp.reaches hmem⟩

theorem isCore_leaf {t : GeneTree} (hx : t.IsCore x) (hz : t.Leaf x z) : t.IsCore z := by
  induction hz with
  | value => exact hx
  | field hfield _ ih =>
    obtain ⟨-, fields, f, -, -, hcore⟩ := hfield
    exact ih (isCore_of_coreNodeWithin hcore)

variable [RandomSource γ]

theorem meets_of_ne (hne : source.action ≠ target.action) (hx : target.tree.variant x = .ok k)
    (hy : source.tree.variant y = .ok k) (hk : k ≠ .object) (h : r.Links γ target source depth k x y ls) :
    ∀ l ∈ ls, ∃ z w, r.Meets target source x y z w ∧ source.Feeds target w z l := by
  rw [Links, if_neg hk] at h
  obtain ⟨l, hl, rfl⟩ := h
  exact List.forall_mem_singleton.mpr ⟨x, y, .value hx hy hk, feeds_of_orientedLink hne hl⟩

theorem meets_of_links (hne : source.action ≠ target.action) (hx : target.tree.variant x = .ok k)
    (hy : source.tree.variant y = .ok k) (h : r.Links γ target source depth k x y ls) :
    ∀ l ∈ ls, ∃ z w, r.Meets target source x y z w ∧ source.Feeds target w z l := by
  induction depth generalizing x y k ls with
  | zero =>
    by_cases hk : k = .object
    · rw [Links, if_pos hk] at h
      exact absurd h not_throw
    · exact meets_of_ne hne hx hy hk h
  | succ depth ih =>
    by_cases hk : k = .object
    · subst hk
      rw [Links, if_pos rfl] at h
      obtain ⟨fields, lss, hchildren, rfl, hall⟩ := of_objectLinksWithin h
      intro l hl
      obtain ⟨f, hf, ks, hks, hl⟩ := exists_of_mem_flatten hall hl
      cases hks with
      | idle | alone => cases hl
      | matched hv hk hname hothers hfound hlinks =>
        obtain ⟨pre, f', post, rfl, hcore, hfits, -⟩ := first_of_matchingField? hfound
        obtain ⟨z, w, hmeets, hfeeds⟩ := ih hk hfits.1 hlinks l hl
        have hfield : target.tree.HasField x _ := ⟨hx, fields, f, hchildren, hf, hv⟩
        have hfield' : source.tree.HasField y _ := ⟨hy, _, f', hothers, by simp, hcore⟩
        exact ⟨z, w, .field hfield hfield' hk hname hfits hmeets, hfeeds⟩
    · exact meets_of_ne hne hx hy hk h

theorem not_eligible_of_inactive (hr : r.config.inactiveOptionalProbability.same 0 = true)
    (hf : target.tree.IsInactive f) :
    ¬ ∃ g, target.tree.gene f = .ok g ∧ Gives (r.isEligible g : Draw γ Bool) true := by
  rintro ⟨g, hg, s, s', hgives⟩
  obtain ⟨inner, hinner⟩ := hf
  obtain rfl := Except.ok.inj (hinner.symm.trans hg)
  obtain ⟨s'', hnever⟩ := Draw.chance_never hr s
  rw [isEligible, hnever] at hgives
  cases hgives

theorem avoids_inactive_of_ne (hne : source.action ≠ target.action) (ht : target.tree.WellFormed)
    (hp : target.tree.Holds p) (hk : k ≠ .object) (h : r.Links γ target source depth k p.id y ls) :
    ∀ l ∈ ls, ∀ o ∈ p.ids, ∀ f, target.tree.IsField o f →
      ¬ Relation.ReflTransGen target.tree.Owns f l.target.node := by
  rw [Links, if_neg hk] at h
  obtain ⟨l, hl, rfl⟩ := h
  obtain ⟨e, he, rfl⟩ := feeds_of_orientedLink hne hl
  refine List.forall_mem_singleton.mpr fun o ho f hf hreach => ?_
  exact ht.not_reaches_owner hf.owns ((hreach.trans (reaches_of_entryPoint ht he)).trans (hp.reaches ho))

/-- What is inside a field that is left out gets no links either. -/
theorem avoids_inactive (hr : r.config.inactiveOptionalProbability.same 0 = true)
    (hne : source.action ≠ target.action) (ht : target.tree.WellFormed) (hp : target.tree.Holds p)
    (hx : target.tree.variant p.id = .ok k) (hy : source.tree.variant y = .ok k)
    (h : r.Links γ target source depth k p.id y ls) :
    ∀ l ∈ ls, ∀ o ∈ p.ids, ∀ f, target.tree.IsField o f → target.tree.IsInactive f →
      ¬ Relation.ReflTransGen target.tree.Owns f l.target.node := by
  induction depth generalizing p k y ls with
  | zero =>
    by_cases hk : k = .object
    · rw [Links, if_pos hk] at h
      exact absurd h not_throw
    · exact fun l hl o ho f hf _ => avoids_inactive_of_ne hne ht hp hk h l hl o ho f hf
  | succ depth ih =>
    by_cases hk : k = .object
    · subst hk
      rw [Links, if_pos rfl] at h
      obtain ⟨fields, lss, hchildren, rfl, hall⟩ := shares_of_objectLinksWithin h
      rw [hp.children_of_object hx, Except.ok.injEq] at hchildren
      rw [← hchildren, List.forall₂_map_left_iff] at hall
      intro l hl o ho f hf hinactive hreach
      obtain ⟨q, hq, ks, ⟨hks, hshare⟩, hl⟩ := exists_of_mem_flatten hall hl
      have hqhold := hp.of_part hq
      have hjoins := joinsLeaves_of_field hp hq hy
        (fun _ _ hv hw => joinsLeaves_of_links hne hqhold.core hv hw) hks
      have hnode := hjoins.target_mem hp hx hq l hl
      -- the inactive field is the one that the link leads into, or lies inside it
      have hsame : ∀ q' ∈ p.parts, f ∈ q'.ids → q' = q := fun q' hq' hf' =>
        have hmem := (hp.of_part hq').mem_of_reaches (((hp.of_part hq').reaches hf').trans hreach)
        eq_of_mem_ids hp.holdsParts.distinct hq' hq hmem hnode
      obtain rfl | ⟨q', hq', ho⟩ : o = p.id ∨ ∃ q' ∈ p.parts, o ∈ q'.ids := by
        obtain ⟨id, content, parts⟩ := p
        rwa [ids_node, List.mem_cons, List.mem_flatMap] at ho
      · obtain ⟨q', hq', rfl⟩ := (isField_iff hp hx).mp hf
        obtain rfl := hsame q' hq' q'.id_mem_ids
        rcases hshare with rfl | heligible
        · cases hl
        · exact not_eligible_of_inactive hr hinactive heligible
      · obtain rfl := hsame q' hq' ((hp.of_part hq').owned_mem ho hf.owns).1
        cases hks with
        | idle | alone => cases hl
        | matched hv hk hname hothers hfound hlinks =>
          obtain rfl := Except.ok.inj (hqhold.coreNode.symm.trans hv)
          obtain ⟨-, -, -, -, -, hfits, -⟩ := first_of_matchingField? hfound
          have ho := mem_ids_core_of_object hqhold ho hf.1
          exact ih hqhold.core hk hfits.1 hlinks l hl o ho f hf hinactive hreach
    · exact fun l hl o ho f hf _ => avoids_inactive_of_ne hne ht hp hk h l hl o ho f hf

theorem joinsAlike_of_meets {q : GeneTerm} (ht : target.tree.WellFormed) (hp : target.tree.Holds p)
    (hx : target.tree.variant p.id = .ok .object) (hq : source.tree.Holds q)
    (hqc : source.tree.IsCore q.id) (hmeets : r.Meets target source p.id q.id z w)
    (hfeeds : source.Feeds target w z l) : r.JoinsAlike target source p.id q.id l := by
  obtain ⟨e, he, rfl⟩ := hfeeds
  have hpc : target.tree.IsCore p.id := isCore_of_variant hx (by simp) (by simp)
  have hz := isCore_leaf hpc hmeets.leaf_target
  have hw := isCore_leaf hqc hmeets.leaf_source
  obtain ⟨-, hwlive, hwbelow⟩ := reaches_leaf hq hmeets.leaf_source
  -- the place of the value is the value or an optional in the same field
  have hmem : e ∈ p.ids := by
    obtain ⟨f, hf, hleaf⟩ := (leaf_iff_of_object hp hx).mp hmeets.leaf_target
    have hentry := hleaf.entry_mem hp hx hf he
    obtain ⟨id, content, parts⟩ := p
    rw [ids_node, List.mem_cons, List.mem_flatMap]
    exact .inr ⟨f, hf, hentry⟩
  obtain ⟨n, -, hn⟩ := hp.get?_of_mem hmem
  obtain ⟨g, hg, hcore⟩ := hw
  exact {
    addresses := rfl
    source_live := hwlive
    source_below := hwbelow
    target_live := contains_of_get? hn
    target_below := hp.reaches hmem
    meets := ⟨z, w, coreNode_of_entryPoint ht hz he, coreNode_of_gene hg hcore, hmeets⟩ }

/-- The search for links between two objects of different actions ends the same way whatever words are drawn,
if inactive optionals take part always or never. Each link joins values that meet, no two links lead to the
same place, and what takes part never gets no link. -/
theorem object_links_sound (hr : r.IsDefinite) (hne : source.action ≠ target.action)
    (ht : target.tree.WellFormed) (hs : source.tree.WellFormed) (hx : target.coreNode = .ok x)
    (hxo : target.tree.variant x = .ok .object) (hy : source.coreNode = .ok y)
    (hyo : source.tree.variant y = .ok .object) :
    ∃ ls, Settles (r.objectLinks target x source y : Proposal γ (List Link)) ls ∧
      (∀ l ∈ ls, r.JoinsAlike target source x y l) ∧ (ls.map Link.target).Nodup ∧
      (r.config.inactiveOptionalProbability.same 0 = true → ∀ l ∈ ls, ∀ o f,
        Relation.ReflTransGen target.tree.Owns x o → target.tree.IsField o f → target.tree.IsInactive f →
          ¬ Relation.ReflTransGen target.tree.Owns f l.target.node) := by
  obtain ⟨n, hn, -⟩ := exists_of_variant hxo
  obtain ⟨m, hm, -⟩ := exists_of_variant hyo
  obtain ⟨p, rfl, hp, -⟩ := ht.exists_term hn
  obtain ⟨q, rfl, hq, -⟩ := hs.exists_term hm
  have hqc : source.tree.IsCore q.id := isCore_of_variant hyo (by simp) (by simp)
  have hdepth : p.height ≤ target.tree.pairBound source.tree + Draw.redrawLimit := by
    have hbound : target.tree.depthBound ≤ target.tree.pairBound source.tree :=
      Nat.le_mul_of_pos_right _ (Nat.succ_pos _)
    have hheight := hp.height_le_depthBound
    omega
  obtain ⟨ls, hls⟩ := settled_objectLinksWithin (γ := γ) hr ht hs hp hdepth
    (ParamSite.bears_of_coreNode hx).1 hxo (ParamSite.bears_of_coreNode hy).1 hyo
  rcases isEmpty_or_nonempty γ with hnone | hsome
  · -- without generators there are no runs
    exact ⟨[], fun g => hnone.elim g, by simp⟩
  have hlinks : r.Links γ target source (target.tree.pairBound source.tree + Draw.redrawLimit) .object
      p.id q.id ls := by
    rw [Links, if_pos rfl]
    exact hls.yields
  refine ⟨ls, hls, ?_, (joinsLeaves_of_links hne hp hxo hyo hlinks).distinct, ?_⟩
  · intro l hl
    obtain ⟨z, w, hmeets, hfeeds⟩ := meets_of_links hne hxo hyo hlinks l hl
    exact joinsAlike_of_meets ht hp hxo hq hqc hmeets hfeeds
  · intro hzero l hl o f ho
    exact avoids_inactive hzero hne ht hp hxo hyo hlinks l hl o (hp.mem_of_reaches ho) f

/-- An owner inside of an order. The owner's nickname is missing, and stays out. -/
theorem object_links_sound_of_orders :
    let owner := object "owner" [string "name", optional "nick" (string "nick") false]
    let body := object "order" [owner, longIn "count" 0 9]
    let site (id : Nat) : ParamSite := ⟨⟨id⟩, 0, .body body, none⟩
    let r : Linker := { config := { inactiveOptionalProbability := 0 } }
    let link (node : Nat) : Link := ⟨⟨⟨1⟩, 0, ⟨node⟩⟩, ⟨⟨2⟩, 0, ⟨node⟩⟩, .params⟩
    ∃ ls, Settles (r.objectLinks (site 2) ⟨0⟩ (site 1) ⟨0⟩ : Proposal WordSource (List Link)) ls ∧
      ls = [link 2, link 5] ∧ (∀ l ∈ ls, r.JoinsAlike (site 2) (site 1) ⟨0⟩ ⟨0⟩ l) ∧
      ∀ l ∈ ls, ¬ Relation.ReflTransGen body.Owns ⟨3⟩ l.target.node := by
  intro owner body site r link
  have hmade : Built owner := by
    apply Built.object
    simp only [List.forall_mem_cons, List.not_mem_nil, false_imp_iff, implies_true, and_true]
    exact ⟨.string "name", .optional "nick" false (.string "nick")⟩
  have hbody : Built body := by
    apply Built.object
    simp only [List.forall_mem_cons, List.not_mem_nil, false_imp_iff, implies_true, and_true]
    exact ⟨hmade, .longIn "count" 0 9⟩
  have hzero : r.config.inactiveOptionalProbability.same 0 = true := by decide +kernel
  have hdefinite : r.IsDefinite := .inl hzero
  have hne : (site 1).action ≠ (site 2).action := by simp [site]
  have htree (id : Nat) : (site id).tree = body := by dsimp only [site, ParamSite.tree, Parameter.body]
  have hroot : body.coreNode body.root = .ok ⟨0⟩ ∧ body.variant ⟨0⟩ = .ok .object := by decide +kernel
  have hformed (id : Nat) : (site id).tree.WellFormed := htree id ▸ hbody.wellFormed
  have hcore (id : Nat) : (site id).coreNode = .ok ⟨0⟩ := by rw [ParamSite.coreNode, htree, hroot.1]
  have hobject (id : Nat) : (site id).tree.variant ⟨0⟩ = .ok .object := by rw [htree, hroot.2]
  obtain ⟨ls, hls, halike, -, hidle⟩ := object_links_sound (γ := WordSource) hdefinite hne
    (hformed 2) (hformed 1) (hcore 2) (hobject 2) (hcore 1) (hobject 1)
  simp only [htree] at hidle
  have hrun : ((r.objectLinks (site 2) ⟨0⟩ (site 1) ⟨0⟩ : Proposal WordSource (List Link)).run
      ⟨[], 1⟩).map (fun x => x.1.toOption) = .ok (some [link 2, link 5]) := by decide +kernel
  have howner : body.variant ⟨1⟩ = .ok .object ∧ body.children ⟨1⟩ = .ok [⟨2⟩, ⟨3⟩] := by decide +kernel
  have horder : body.get? ⟨0⟩ = some ⟨"order", .object [⟨1⟩, ⟨5⟩] none, none⟩ := by decide +kernel
  have hnick : body.gene ⟨3⟩ = .ok (.optional ⟨4⟩ false) := by decide +kernel
  have hfield : body.IsField ⟨1⟩ ⟨3⟩ := ⟨howner.1, _, howner.2, by simp⟩
  refine ⟨ls, hls, ?_, halike, ?_⟩
  · obtain ⟨g', hg⟩ := hls ⟨[], 1⟩
    rw [hg] at hrun
    exact Option.some.inj (Except.ok.inj hrun)
  · intro l hl
    exact hidle hzero l hl ⟨1⟩ ⟨3⟩ (.single ⟨0, _, horder, rfl⟩) hfield ⟨⟨4⟩, hnick⟩

end Linker
end CallEvolution
