import CallEvolution.Proofs.Construction
import CallEvolution.Proofs.LeafFields
import CallEvolution.Random.Words

/-! Matching a body with an identical one. A field takes the first value that fits, so each leaf is linked to
itself if and only if no field stands behind another one that fits in its place. -/

namespace CallEvolution

open Attempt GeneTerm GeneTree Matching

namespace Linker

/-- Does a field of an object stand behind another one whose variant and name fit in its place? -/
def Behind (r : Linker) (t : GeneTree) (o f : NodeId) : Prop :=
  ∃ pre post x k name, t.children o = .ok (pre ++ f :: post) ∧ t.coreNode f = .ok x ∧
    t.variant x = .ok k ∧ qualifiedName t o x = .ok name ∧
    ∃ f' ∈ pre, ∃ y, t.coreNode f' = .ok y ∧ r.Fits t o name k y

/-- Does an object, or one inside it, have a field with leaves that stands behind one that fits? -/
inductive Shadowed (r : Linker) (t : GeneTree) : NodeId → Prop where
  | here {o f x z : NodeId} (ho : t.variant o = .ok .object) (hf : r.Behind t o f)
    (hx : t.coreNode f = .ok x) (hz : t.Leaf x z) : Shadowed r t o
  | inside {o x : NodeId} (hx : t.HasField o x) (h : Shadowed r t x) : Shadowed r t o

/-- Do the links give each leaf of a value what the same leaf on the other side has, and nothing else? -/
def IsIdentity (source target : ParamSite) (x : NodeId) (ls : List Link) : Prop :=
  ∀ l, l ∈ ls ↔ ∃ z, target.tree.Leaf x z ∧ source.Feeds target z z l

variable {γ : Type} {r : Linker} {t : GeneTree} {source target : ParamSite} {p q : GeneTerm}
  {o x z : NodeId} {k : Variant} {name : String} {depth : Nat} {ls ks : List Link}

theorem Shadowed.exists_leaf (h : r.Shadowed t o) : ∃ z, t.Leaf o z := by
  induction h with
  | here ho hf hx hz =>
    obtain ⟨pre, post, -, -, -, hchildren, -⟩ := hf
    exact ⟨_, .field ⟨ho, _, _, hchildren, by simp, hx⟩ hz⟩
  | inside hx _ ih =>
    obtain ⟨z, hz⟩ := ih
    exact ⟨z, .field hx hz⟩

theorem not_shadowed_of_ne (hk : t.variant x = .ok k) (hobject : k ≠ .object) : ¬ r.Shadowed t x := by
  intro h
  cases h with
  | here ho => exact hobject (Except.ok.inj (hk.symm.trans ho))
  | inside hx => exact hobject (Except.ok.inj (hk.symm.trans hx.1))

theorem shadowed_iff (hp : t.Holds p) (hpo : t.variant p.id = .ok .object) :
    r.Shadowed t p.id ↔
      ∃ q ∈ p.parts, (r.Behind t p.id q.id ∧ ∃ z, t.Leaf q.core.id z) ∨ r.Shadowed t q.core.id := by
  constructor
  · intro h
    cases h with
    | @here _ f x z _ hf hx hz =>
      have hbehind := hf
      obtain ⟨pre, post, -, -, -, hchildren, -⟩ := hf
      rw [hp.children_of_object hpo, Except.ok.injEq] at hchildren
      have hmem : f ∈ p.parts.map GeneTerm.id := by simp [hchildren]
      obtain ⟨q, hq, rfl⟩ := List.mem_map.mp hmem
      obtain rfl := Except.ok.inj ((hp.of_part hq).coreNode.symm.trans hx)
      exact ⟨q, hq, .inl ⟨hbehind, z, hz⟩⟩
    | inside hx h =>
      obtain ⟨q, hq, rfl⟩ := (hasField_iff hp hpo).mp hx
      exact ⟨q, hq, .inr h⟩
  · rintro ⟨q, hq, ⟨hbehind, z, hz⟩ | h⟩
    · exact .here hpo hbehind (hp.of_part hq).coreNode hz
    · exact .inside ((hasField_iff hp hpo).mpr ⟨q, hq, rfl⟩) h

theorem fits_self (hk : t.variant x = .ok k) (hname : qualifiedName t o x = .ok name) :
    r.Fits t o name k x := ⟨hk, name, hname, by simp [namesMatch, Text.sameLetters]⟩

/-- A field is matched with itself if it does not stand behind one that fits. -/
theorem behind_iff_ne {fields : List NodeId} {f w : NodeId} (hnodup : fields.Nodup)
    (hchildren : t.children o = .ok fields) (hf : f ∈ fields) (hx : t.coreNode f = .ok x)
    (hk : t.variant x = .ok k) (hname : qualifiedName t o x = .ok name)
    (hfound : r.matchingField? t o name k fields = .ok (some w)) :
    ∃ g ∈ fields, t.coreNode g = .ok w ∧ t.variant w = .ok k ∧ (r.Behind t o f ↔ g ≠ f) := by
  obtain ⟨pre, g, post, rfl, hg, hfits, hfirst⟩ := first_of_matchingField? hfound
  refine ⟨g, by simp, hg, hfits.1, ?_⟩
  constructor
  · rintro ⟨pre', post', x', k', name', hchildren', hx', hk', hname', f', hf', y, hy, hy'⟩ rfl
    obtain rfl := Except.ok.inj (hx.symm.trans hx')
    obtain rfl := Except.ok.inj (hk.symm.trans hk')
    obtain rfl := Except.ok.inj (hname.symm.trans hname')
    have hsplit := Except.ok.inj (hchildren.symm.trans hchildren')
    obtain ⟨-, hlast, hdisjoint⟩ := List.nodup_append.mp (hsplit ▸ hnodup)
    have hpre' : g ∉ pre' := fun h => hdisjoint g h g (by simp) rfl
    have hpost' : g ∉ post' := (List.nodup_cons.mp hlast).1
    obtain ⟨rfl, -, -⟩ := (List.append_cons_inj_of_notMem hpre' hpost').mp hsplit.symm
    exact hfirst f' hf' y hy hy'
  · intro hne
    have hpre : f ∉ pre := fun hpre => hfirst f hpre x hx (fits_self hk hname)
    have hpost : f ∈ post := by
      rcases List.mem_append.mp hf with h | h
      · exact absurd h hpre
      · exact (List.mem_cons.mp h).resolve_left (Ne.symm hne)
    obtain ⟨as, bs, rfl⟩ := List.append_of_mem hpost
    refine ⟨pre ++ g :: as, bs, x, k, name, ?_, hx, hk, hname, g, by simp, w, hg, hfits⟩
    rw [hchildren, List.append_assoc, List.cons_append]

theorem leaf_feeds_iff {l : Link} (hp : target.tree.Holds p)
    (hpo : target.tree.variant p.id = .ok .object) (hq : q ∈ p.parts) :
    (∃ z, target.tree.Leaf q.core.id z ∧ source.Feeds target z z l) ↔
      (∃ z, target.tree.Leaf p.id z ∧ source.Feeds target z z l) ∧ l.target.node ∈ q.ids := by
  constructor
  · rintro ⟨z, hz, e, he, rfl⟩
    exact ⟨⟨z, (leaf_iff_of_object hp hpo).mpr ⟨q, hq, hz⟩, e, he, rfl⟩, hz.entry_mem hp hpo hq he⟩
  · rintro ⟨⟨z, hz, e, he, rfl⟩, hnode⟩
    obtain ⟨q', hq', hz⟩ := (leaf_iff_of_object hp hpo).mp hz
    obtain rfl := eq_of_mem_ids hp.holdsParts.distinct hq' hq (hz.entry_mem hp hpo hq' he) hnode
    exact ⟨z, hz, e, he, rfl⟩

theorem isIdentity_iff_of_parts {y : NodeId} (hp : target.tree.Holds p)
    (hpo : target.tree.variant p.id = .ok .object) (hjoins : JoinsLeaves source target y p.id ls) :
    IsIdentity source target p.id ls ↔ ∀ q ∈ p.parts, ∀ l, l ∈ ls ∧ l.target.node ∈ q.ids ↔
      ∃ z, target.tree.Leaf q.core.id z ∧ source.Feeds target z z l := by
  constructor
  · intro hidentity q hq l
    rw [leaf_feeds_iff hp hpo hq, hidentity l]
  · intro hparts l
    constructor
    · intro hl
      obtain ⟨w, z, -, hz, e, he, rfl⟩ := hjoins.leaves l hl
      obtain ⟨q, hq, hz⟩ := (leaf_iff_of_object hp hpo).mp hz
      have hown := (hparts q hq _).mp ⟨hl, hz.entry_mem hp hpo hq he⟩
      exact ((leaf_feeds_iff hp hpo hq).mp hown).1
    · rintro ⟨z, hz, hfeeds⟩
      obtain ⟨q, hq, hz⟩ := (leaf_iff_of_object hp hpo).mp hz
      exact ((hparts q hq l).mpr ⟨z, hz, hfeeds⟩).1

/-- A field that takes its values from another one is not linked to itself, unless it has no leaf. -/
theorem isIdentity_iff_of_other {q' : GeneTerm} (hsame : source.tree = target.tree)
    (ht : target.tree.WellFormed) (hp : target.tree.Holds p) (hq : q ∈ p.parts) (hq' : q' ∈ p.parts)
    (hother : q'.id ≠ q.id) (hjoins : JoinsLeaves source target q'.core.id q.core.id ks) :
    IsIdentity source target q.core.id ks ↔ ¬ ∃ z, target.tree.Leaf q.core.id z := by
  have hqhold := hp.of_part hq
  constructor
  · rintro hidentity ⟨z, hz⟩
    obtain ⟨l, hl⟩ := exists_feeds (v := source) ht hqhold.core hz
    obtain ⟨w, -, hw, -, e, -, heq⟩ := hjoins.leaves l ((hidentity l).mpr ⟨z, hz, hl⟩)
    obtain ⟨e', -, rfl⟩ := hl
    obtain rfl : z = w := congrArg (·.source.node) heq
    rw [hsame] at hw
    have hmem := mem_ids_of_mem_fixed (hz.mem_fixed_of_core hqhold)
    have hmem' := mem_ids_of_mem_fixed (hw.mem_fixed_of_core (hp.of_part hq'))
    exact hother (congrArg GeneTerm.id (eq_of_mem_ids hp.holdsParts.distinct hq' hq hmem' hmem))
  · intro hnone l
    constructor
    · intro hl
      obtain ⟨-, z, -, hz, -⟩ := hjoins.leaves l hl
      exact absurd ⟨z, hz⟩ hnone
    · rintro ⟨z, hz, -⟩
      exact absurd ⟨z, hz⟩ hnone

variable [RandomSource γ]

theorem eligible_of_certain (hr : r.config.inactiveOptionalProbability.same 1 = true) {g : Gene} {b : Bool}
    (h : Gives (r.isEligible g : Draw γ Bool) b) : b = true := by
  unfold isEligible at h
  split at h
  · rw [Draw.chance, if_pos hr] at h
    exact Draw.eq_of_gives_pure h
  · exact Draw.eq_of_gives_pure h

theorem isIdentity_iff_of_ne (hne : source.action ≠ target.action)
    (hk : target.tree.variant x = .ok k) (hobject : k ≠ .object)
    (h : r.Links γ target source depth k x x ls) :
    IsIdentity source target x ls ↔ ¬ r.Shadowed target.tree x := by
  rw [Links, if_neg hobject] at h
  obtain ⟨l, hl, rfl⟩ := h
  obtain ⟨e, he, rfl⟩ := feeds_of_orientedLink hne hl
  refine iff_of_true (fun l => ?_) (not_shadowed_of_ne hk hobject)
  simp only [List.mem_singleton, leaf_iff_of_ne hk hobject, exists_eq_left, ParamSite.Feeds, he,
    Except.ok.injEq, exists_eq_left']

section Fields

variable (hr : r.config.inactiveOptionalProbability.same 1 = true) (hne : source.action ≠ target.action)
  (hsame : source.tree = target.tree) (ht : target.tree.WellFormed)

include hr hne hsame ht

theorem isIdentity_iff_of_field (hp : target.tree.Holds p) (hpo : target.tree.variant p.id = .ok .object)
    (hq : q ∈ p.parts)
    (hself : ∀ k, target.tree.variant q.core.id = .ok k →
      r.Links γ target source depth k q.core.id q.core.id ks →
        (IsIdentity source target q.core.id ks ↔ ¬ r.Shadowed target.tree q.core.id))
    (h : r.FieldLinks γ target source depth p.id p.id q.id ks) :
    IsIdentity source target q.core.id ks ↔
      ¬ ((r.Behind target.tree p.id q.id ∧ ∃ z, target.tree.Leaf q.core.id z) ∨
        r.Shadowed target.tree q.core.id) := by
  have hchildren := hp.children_of_object hpo
  have hqhold := hp.of_part hq
  have hmem : q.id ∈ p.parts.map GeneTerm.id := List.mem_map_of_mem hq
  cases h with
  | idle hg hidle => cases eligible_of_certain hr hidle
  | alone hv hk hname hfields hnone =>
    rw [hsame] at hfields hnone
    obtain rfl := Except.ok.inj (hchildren.symm.trans hfields)
    exact absurd (fits_self hk hname) (not_fits_of_matchingField? hnone q.id hmem _ hv)
  | matched hv hk hname hfields hfound hlinks =>
    rw [hsame] at hfields hfound
    obtain rfl := Except.ok.inj (hchildren.symm.trans hfields)
    obtain rfl := Except.ok.inj (hqhold.coreNode.symm.trans hv)
    obtain ⟨g, hg, hw, hwk, hbehind⟩ :=
      behind_iff_ne hp.holdsParts.nodup_map_id hchildren hmem hv hk hname hfound
    obtain ⟨q', hq', rfl⟩ := List.mem_map.mp hg
    obtain rfl := Except.ok.inj ((hp.of_part hq').coreNode.symm.trans hw)
    -- the first field that fits is the field itself or one in front of it
    by_cases hother : q'.id = q.id
    · have hfree : ¬ r.Behind target.tree p.id q.id := fun h => hbehind.mp h hother
      obtain rfl := List.inj_on_of_nodup_map hp.holdsParts.nodup_map_id hq' hq hother
      simp [hself _ hk hlinks, hfree]
    · have hjoins := joinsLeaves_of_links hne hqhold.core hk (hsame ▸ hwk) hlinks
      rw [isIdentity_iff_of_other hsame ht hp hq hq' hother hjoins, not_iff_not]
      constructor
      · exact fun hleaf => .inl ⟨hbehind.mpr hother, hleaf⟩
      · rintro (⟨-, hleaf⟩ | hshadowed)
        · exact hleaf
        · exact hshadowed.exists_leaf

theorem isIdentity_iff_of_links (hp : target.tree.Holds p) (hk : target.tree.variant p.id = .ok k)
    (h : r.Links γ target source depth k p.id p.id ls) :
    IsIdentity source target p.id ls ↔ ¬ r.Shadowed target.tree p.id := by
  -- the links of an object are told apart by the fields that they lead into
  induction depth generalizing p k ls with
  | zero =>
    by_cases hobject : k = .object
    · rw [Links, if_pos hobject] at h
      exact absurd h not_throw
    · exact isIdentity_iff_of_ne hne hk hobject h
  | succ depth ih =>
    by_cases hobject : k = .object
    · subst hobject
      have hjoins := joinsLeaves_of_links hne hp hk (hsame ▸ hk) h
      rw [Links, if_pos rfl] at h
      obtain ⟨fields, lss, hchildren, rfl, hall⟩ := of_objectLinksWithin h
      rw [hp.children_of_object hk, Except.ok.injEq] at hchildren
      rw [← hchildren, List.forall₂_map_left_iff] at hall
      have hinto : ∀ q ∈ p.parts, ∀ ks, r.FieldLinks γ target source depth p.id p.id q.id ks →
          ∀ l ∈ ks, l.target.node ∈ q.ids := by
        intro q hq ks hks
        have hfield := joinsLeaves_of_field hp hq (hsame ▸ hk)
          (fun _ _ hv hw => joinsLeaves_of_links hne (hp.of_part hq).core hv hw) hks
        exact hfield.target_mem hp hk hq
      have hparts : ∀ q ∈ p.parts,
          (∀ l, l ∈ lss.flatten ∧ l.target.node ∈ q.ids ↔
            ∃ z, target.tree.Leaf q.core.id z ∧ source.Feeds target z z l) ↔
          ¬ ((r.Behind target.tree p.id q.id ∧ ∃ z, target.tree.Leaf q.core.id z) ∨
            r.Shadowed target.tree q.core.id) := by
        intro q hq
        obtain ⟨ks, hks, hshare⟩ := exists_share hall hp.holdsParts.distinct hinto hq
        simp only [← hshare]
        exact isIdentity_iff_of_field hr hne hsame ht hp hk hq (fun _ => ih (hp.of_part hq).core) hks
      rw [isIdentity_iff_of_parts hp hk hjoins, shadowed_iff hp hk]
      constructor
      · rintro hidentity ⟨q, hq, hbad⟩
        exact (hparts q hq).mp (hidentity q hq) hbad
      · intro hgood q hq
        exact (hparts q hq).mpr fun hbad => hgood ⟨q, hq, hbad⟩
    · exact isIdentity_iff_of_ne hne hk hobject h

end Fields

theorem linksInto_of_bodies (htarget : target.param.role = .body) (hsource : source.param.role = .body) :
    (r.linksInto target [source] : Proposal γ (List Link)) = r.bodyLinks target source := by
  have hbody : source.param.isBody = true := by simp [Parameter.isBody, hsource]
  simp [linksInto, htarget, hbody]

theorem links_of_bodyLinks {y : NodeId} (hx : target.coreNode = .ok x)
    (hxo : target.tree.variant x = .ok .object) (hy : source.coreNode = .ok y)
    (hyo : source.tree.variant y = .ok .object)
    (h : Yields (r.bodyLinks target source : Proposal γ (List Link)) ls) :
    ∃ depth, r.Links γ target source depth .object x y ls := by
  obtain ⟨x', hx', h⟩ := of_bind h
  obtain ⟨y', hy', h⟩ := of_bind h
  obtain ⟨k, hk, h⟩ := of_bind h
  obtain rfl := Except.ok.inj (hx.symm.trans (eq_ok_of_ofGene hx'))
  obtain rfl := Except.ok.inj (hy.symm.trans (eq_ok_of_ofGene hy'))
  obtain rfl := Except.ok.inj (hxo.symm.trans (eq_ok_of_ofGene hk))
  rw [if_neg (not_not.mpr rfl)] at h
  obtain ⟨k', hk', h⟩ := of_bind h
  obtain rfl := Except.ok.inj (hyo.symm.trans (eq_ok_of_ofGene hk'))
  rw [if_pos rfl] at h
  refine ⟨target.tree.pairBound source.tree + Draw.redrawLimit, ?_⟩
  rwa [Links, if_pos rfl]

/-- The search in an identical body of another action ends, and links no leaf twice. It links each leaf to
itself, and nothing else, if and only if no field with leaves stands behind another one that fits. -/
theorem identical_bodies_links (g : γ) (hr : r.config.inactiveOptionalProbability.same 1 = true)
    (htarget : target.param.role = .body) (hsource : source.param.role = .body)
    (hne : source.action ≠ target.action) (hsame : source.param.gene = target.param.gene)
    (ht : target.tree.WellFormed) (hx : target.coreNode = .ok x)
    (hxo : target.tree.variant x = .ok .object) :
    ∃ ls, Settles (r.linksInto target [source] : Proposal γ (List Link)) ls ∧
      JoinsLeaves source target x x ls ∧
      (IsIdentity source target x ls ↔ ¬ r.Shadowed target.tree x) := by
  have : Nonempty γ := ⟨g⟩
  have hs : source.tree = target.tree := hsame
  have hy : source.coreNode = .ok x := by
    rw [ParamSite.coreNode, hs]
    exact hx
  have hyo : source.tree.variant x = .ok .object := hs ▸ hxo
  have hsources : ∀ v ∈ [source], v.tree.WellFormed := List.forall_mem_singleton.mpr (hs ▸ ht)
  obtain ⟨ls, hls⟩ := settled_linksInto (γ := γ) (.inr hr) ht hsources
  have hyields := hls.yields
  rw [linksInto_of_bodies htarget hsource] at hyields
  obtain ⟨depth, hlinks⟩ := links_of_bodyLinks hx hxo hy hyo hyields
  obtain ⟨n, hn⟩ := exists_of_variant hxo
  obtain ⟨p, rfl, hp, -⟩ := ht.exists_term hn.1
  exact ⟨ls, hls, joinsLeaves_of_links hne hp hxo hyo hlinks,
    isIdentity_iff_of_links hr hne hs ht hp hxo hlinks⟩

/-- A number and a text that may be missing: neither fits in the place of the other. -/
theorem identical_bodies_links_of_person :
    let body := object "body" [longIn "age" 0 99, optional "email" (string "email") false]
    let site (id : Nat) : ParamSite := ⟨⟨id⟩, 0, .body body, none⟩
    let r : Linker := { config := { inactiveOptionalProbability := 1 } }
    ∃ ls, Settles (r.linksInto (site 2) [site 1] : Proposal WordSource (List Link)) ls ∧
      IsIdentity (site 1) (site 2) ⟨0⟩ ls := by
  intro body site r
  have hfields : ∀ f ∈ [longIn "age" 0 99, optional "email" (string "email") false], Built f := by
    simp only [List.forall_mem_cons, List.not_mem_nil, false_imp_iff, implies_true, and_true]
    exact ⟨.longIn "age" 0 99, .optional "email" false (.string "email")⟩
  have ht : (site 2).tree.WellFormed := (Built.object "body" hfields).wellFormed
  have hcertain : r.config.inactiveOptionalProbability.same 1 = true := by decide +kernel
  have hne : (site 1).action ≠ (site 2).action := by simp [site]
  have hsame : (site 1).param.gene = (site 2).param.gene := rfl
  have hroot : (site 2).coreNode = .ok ⟨0⟩ ∧ body.variant ⟨0⟩ = .ok .object := by decide +kernel
  obtain ⟨ls, hls, -, hiff⟩ := identical_bodies_links (⟨[], 1⟩ : WordSource) hcertain rfl rfl hne hsame ht
    hroot.1 hroot.2
  refine ⟨ls, hls, hiff.mpr ?_⟩
  have hchildren : body.children ⟨0⟩ = .ok [⟨1⟩, ⟨2⟩] := by decide +kernel
  have hage : body.coreNode ⟨1⟩ = .ok ⟨1⟩ ∧ body.variant ⟨1⟩ = .ok .long := by decide +kernel
  have hemail : body.coreNode ⟨2⟩ = .ok ⟨3⟩ ∧ body.variant ⟨3⟩ = .ok .string := by decide +kernel
  intro hshadowed
  cases hshadowed with
  | here ho hf =>
    obtain ⟨pre, post, x, k, name, hsplit, hx, hk, -, f', hf', y, hy, hfits⟩ := hf
    have hsplit := Except.ok.inj (hchildren.symm.trans hsplit)
    rcases pre with _ | ⟨first, _ | ⟨second, pre⟩⟩
    · cases hf'
    · obtain ⟨rfl, hrest⟩ := List.cons.inj hsplit
      obtain ⟨rfl, -⟩ := List.cons.inj hrest
      obtain rfl := List.mem_singleton.mp hf'
      obtain rfl := Except.ok.inj (hage.1.symm.trans hy)
      obtain rfl := Except.ok.inj (hemail.1.symm.trans hx)
      obtain rfl := Except.ok.inj (hemail.2.symm.trans hk)
      cases hage.2.symm.trans hfits.1
    · simp at hsplit
  | inside hx h =>
    obtain ⟨-, fields, f, hfields, hf, hx⟩ := hx
    obtain rfl := Except.ok.inj (hchildren.symm.trans hfields)
    rcases List.mem_pair.mp hf with rfl | rfl
    · obtain rfl := Except.ok.inj (hage.1.symm.trans hx)
      exact not_shadowed_of_ne hage.2 (by decide) h
    · obtain rfl := Except.ok.inj (hemail.1.symm.trans hx)
      exact not_shadowed_of_ne hemail.2 (by decide) h

/-- Both names are the same but for three letters, so the first field gives its value to both. -/
theorem identical_bodies_cross :
    let body := object "body" [string "firstName", string "lastName"]
    let site (id : Nat) : ParamSite := ⟨⟨id⟩, 0, .body body, none⟩
    let r : Linker := { config := { inactiveOptionalProbability := 1 } }
    let link (node : Nat) : Link := ⟨⟨⟨1⟩, 0, ⟨1⟩⟩, ⟨⟨2⟩, 0, ⟨node⟩⟩, .params⟩
    ((r.linksInto (site 2) [site 1] : Proposal WordSource (List Link)).run ⟨[], 1⟩).map
        (fun x => x.1.toOption) = .ok (some [link 1, link 2]) ∧
      ¬ IsIdentity (site 1) (site 2) ⟨0⟩ [link 1, link 2] := by
  intro body site r link
  refine ⟨by decide +kernel, fun h => ?_⟩
  obtain ⟨z, -, e, he, hlink⟩ := (h (link 2)).mp (by simp)
  cases hlink
  have hentry : entryPoint body ⟨1⟩ = .ok ⟨1⟩ := by decide +kernel
  cases he.symm.trans hentry

end Linker
end CallEvolution
