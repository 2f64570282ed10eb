import CallEvolution.Linking.Directive
import CallEvolution.Proofs.Attempts
import CallEvolution.Proofs.FixedNodes

/-! What the search for links proposes: each link joins two of the parameters that are matched. It starts
at a core outside of all collections and leads to another one or to the optional around it. It is turned
round only inside one action. -/

namespace CallEvolution

open GeneTree

theorem exists_of_mem_flatten {α β : Type} {R : α → List β → Prop} {as : List α} {bss : List (List β)}
    (h : List.Forall₂ R as bss) {b : β} (hb : b ∈ bss.flatten) : ∃ a ∈ as, ∃ bs, R a bs ∧ b ∈ bs := by
  induction h with
  | nil => cases hb
  | @cons a bs as bss hbs _ ih =>
    rw [List.flatten_cons, List.mem_append] at hb
    rcases hb with hb | hb
    · exact ⟨a, List.mem_cons_self, bs, hbs, hb⟩
    · obtain ⟨a', ha', hrest⟩ := ih hb
      exact ⟨a', List.mem_cons_of_mem _ ha', hrest⟩

namespace ParamSite

/-- Is an address one of the parameter, outside of all collections? -/
def Offers (v : ParamSite) (a : GeneAddress) : Prop :=
  a.action = v.action ∧ a.param = v.index ∧ v.tree.Fixes a.node

/-- Can a link start at an address of the parameter? -/
def Gives (v : ParamSite) (a : GeneAddress) : Prop := v.Offers a ∧ v.tree.IsCore a.node

/-- Can a link lead to an address of the parameter? -/
def Takes (v : ParamSite) (a : GeneAddress) : Prop :=
  v.Offers a ∧ (v.tree.WellFormed → v.tree.IsEntry a.node)

/-- Does a link give `w` a value from `v`? Inside one action it may be the other way round. -/
def Joins (v w : ParamSite) (l : Link) : Prop :=
  l.origin = .params ∧ ((v.Gives l.source ∧ w.Takes l.target) ∨
    (v.action = w.action ∧ w.Gives l.source ∧ v.Takes l.target))

variable {v w : ParamSite} {l : Link} {x : NodeId}

theorem offers_address (h : v.tree.Fixes x) : v.Offers (v.address x) := ⟨rfl, rfl, h⟩

theorem gives_address (h : v.tree.Bears x) : v.Gives (v.address x) := ⟨offers_address h.1, h.2⟩

theorem takes_of_entryPoint {y : NodeId} (h : v.tree.Bears x)
    (hentry : Matching.entryPoint v.tree x = .ok y) : v.Takes (v.address y) :=
  ⟨offers_address (Matching.fixes_of_entryPoint h.1 hentry), fun ht =>
    Matching.isEntry_of_entryPoint ht h.2 hentry⟩

theorem Joins.of_ne (h : v.Joins w l) (hne : v.action ≠ w.action) :
    v.Gives l.source ∧ w.Takes l.target := h.2.resolve_right fun hturned => hne hturned.1

theorem bears_of_coreNode (h : v.coreNode = .ok x) : v.tree.Bears x := (fixes_root v.tree).bears_core h

end ParamSite

namespace Matching

open Attempt

variable {γ : Type} {v w body other source target : ParamSite} {l : Link} {ls : List Link}
  {t : GeneTree} {x y : NodeId} {bodyIsTarget : Bool}

theorem joins_of_orientedLink (hx : v.tree.Bears x) (hy : w.tree.Bears y)
    (h : orientedLink v x w y = .ok l) : v.Joins w l := by
  have hstraight : (do
      let z ← entryPoint w.tree y
      return ⟨v.address x, w.address z, .params⟩ : Except GeneError Link) = .ok l → v.Joins w l := by
    intro h
    obtain ⟨z, hz, h⟩ := ok_of_bind h
    cases h
    exact ⟨rfl, .inl ⟨ParamSite.gives_address hx, ParamSite.takes_of_entryPoint hy hz⟩⟩
  rw [orientedLink] at h
  split at h
  · next hsame =>
    obtain ⟨s, -, h⟩ := ok_of_bind h
    obtain ⟨k, -, h⟩ := ok_of_bind h
    rw [pure_bind] at h
    beta_reduce at h
    split at h
    · obtain ⟨z, hz, h⟩ := ok_of_bind h
      cases h
      exact ⟨rfl, .inr ⟨hsame, ParamSite.gives_address hy, ParamSite.takes_of_entryPoint hx hz⟩⟩
    · exact hstraight h
  · exact hstraight h

theorem joins_of_valueLink (h : valueLink v w = .ok l) : v.Joins w l := by
  obtain ⟨x, hx, h⟩ := ok_of_bind h
  obtain ⟨y, hy, h⟩ := ok_of_bind h
  exact joins_of_orientedLink (ParamSite.bears_of_coreNode hx) (ParamSite.bears_of_coreNode hy) h

theorem joins_of_bodyLink (hx : body.tree.Bears x) (hy : other.tree.Bears y)
    (h : bodyLink body x other y bodyIsTarget = .ok l) :
    if bodyIsTarget then other.Joins body l else body.Joins other l := by
  rw [bodyLink] at h
  split at h
  · next hbody =>
    rw [if_pos hbody]
    exact joins_of_orientedLink hy hx h
  · next hbody =>
    rw [if_neg hbody]
    exact joins_of_orientedLink hx hy h

theorem bears_of_fieldCalled? {type : Option String} {name : String} {k : Variant}
    {fields : List NodeId} (hfields : ∀ f ∈ fields, t.Fixes f)
    (h : fieldCalled? t type name k fields = .ok (some x)) : t.Bears x := by
  induction fields with
  | nil => cases h
  | cons f fields ih =>
    obtain ⟨hf, hrest⟩ := List.forall_mem_cons.mp hfields
    obtain ⟨value, hvalue, h⟩ := ok_of_bind h
    obtain ⟨fieldName, -, h⟩ := ok_of_bind h
    obtain ⟨fieldVariant, -, h⟩ := ok_of_bind h
    split at h
    · cases h
      exact hf.bears_core hvalue
    · exact ih hrest h

theorem bears_of_pair {otherMap bodyMap : List (String × NodeId)} {pair : NodeId × NodeId}
    (hother : keyTable other.tree other.tokens = .ok otherMap)
    (hbody : keyTable body.tree body.tokens = .ok bodyMap)
    (hpair : pair ∈ otherMap.filterMap fun (key, otherNode) =>
      ((bodyMap.find? (·.1 = key)).or (bodyMap.find? fun m => nameDistance key m.1 = 0)).map
        fun m => (m.2, otherNode)) : body.tree.Bears pair.1 ∧ other.tree.Bears pair.2 := by
  obtain ⟨⟨key, z⟩, hz, hfound⟩ := List.mem_filterMap.mp hpair
  obtain ⟨m, hm, rfl⟩ := Option.map_eq_some_iff.mp hfound
  have hmem : m ∈ bodyMap := by
    rcases Option.or_eq_some_iff.mp hm with hm | ⟨-, hm⟩
    · exact List.mem_of_find?_eq_some hm
    · exact List.mem_of_find?_eq_some hm
  exact ⟨bears_of_keyTable hbody hmem, bears_of_keyTable hother hz⟩

theorem joins_of_linksByKey (h : linksByKey body other bodyIsTarget = .ok ls) :
    ∀ l ∈ ls, if bodyIsTarget then other.Joins body l else body.Joins other l := by
  obtain ⟨otherMap, hother, h⟩ := ok_of_bind h
  obtain ⟨bodyMap, hbody, h⟩ := ok_of_bind h
  intro l hl
  obtain ⟨pair, hpair, hlink⟩ := ok_of_mapM h l hl
  obtain ⟨hx, hy⟩ := bears_of_pair hother hbody hpair
  exact joins_of_bodyLink hx hy hlink

theorem joins_of_linksWithBody (h : linksWithBody body other bodyIsTarget = .ok ls) :
    ∀ l ∈ ls, if bodyIsTarget then other.Joins body l else body.Joins other l := by
  obtain ⟨otherNode, hother, h⟩ := ok_of_bind h
  obtain ⟨name, -, h⟩ := ok_of_bind h
  obtain ⟨k, -, h⟩ := ok_of_bind h
  obtain ⟨bodyValue, hbody, h⟩ := ok_of_bind h
  split at h
  · exact joins_of_linksByKey h
  · obtain ⟨g, hg, h⟩ := ok_of_bind h
    split at h
    · next fields type =>
      obtain ⟨field, hfield, h⟩ := ok_of_bind h
      cases field with
      | none => exact joins_of_linksByKey h
      | some f =>
        obtain ⟨l, hl, h⟩ := ok_of_bind h
        cases h
        rw [List.forall_mem_singleton]
        refine joins_of_bodyLink ?_ (ParamSite.bears_of_coreNode hother) hl
        refine bears_of_fieldCalled? (fun f hf => ?_) hfield
        exact (ParamSite.bears_of_coreNode hbody).1.child hg rfl hf
    · exact joins_of_linksByKey h

theorem fixes_children_of_object {ys : List NodeId} (hx : t.Fixes x)
    (hvariant : t.variant x = .ok .object) (hys : t.children x = .ok ys) : ∀ y ∈ ys, t.Fixes y := by
  cases hn : t.node x with
  | error e =>
    rw [GeneTree.variant, hn] at hvariant
    cases hvariant
  | ok n =>
    rw [GeneTree.variant, hn] at hvariant
    rw [GeneTree.children, GeneTree.gene, hn] at hys
    cases hys
    have hgene : t.gene x = .ok n.gene := by
      rw [GeneTree.gene, hn]
      rfl
    obtain ⟨fields, type, hobject⟩ := Gene.eq_object_of_variant (Except.ok.inj hvariant)
    rw [hobject] at hgene ⊢
    exact fun y hy => hx.child hgene rfl hy

theorem eq_ok_of_ofGene {α : Type} {r : Except GeneError α} {a : α}
    (h : Yields (ofGene r : Proposal γ α) a) : r = .ok a := eq_ok_of_mapError h

end Matching

namespace Linker

open Attempt Matching

variable {γ : Type} {r : Linker} {source target : ParamSite} {l : Link} {ls : List Link}
  {t : GeneTree} {x y object : NodeId} {name : String} {k : Variant} {fields : List NodeId}

theorem mem_of_fieldFor? (h : r.fieldFor? t object name k fields = .ok (some x)) :
    x ∈ fields ∧ t.variant x = .ok k := by
  induction fields with
  | nil => cases h
  | cons f fields ih =>
    obtain ⟨qualified, -, h⟩ := ok_of_bind h
    obtain ⟨fieldVariant, hvariant, h⟩ := ok_of_bind h
    obtain ⟨fieldName, -, h⟩ := ok_of_bind h
    split at h
    · next hsame =>
      cases h
      rw [Bool.and_eq_true, decide_eq_true_eq] at hsame
      exact ⟨List.mem_cons_self, hsame.1 ▸ hvariant⟩
    · exact (ih h).imp_left (List.mem_cons_of_mem _)

/-- Do the variant and the name of a value, as one of an object's fields, match those that are looked for? -/
def Fits (r : Linker) (t : GeneTree) (object : NodeId) (name : String) (k : Variant) (x : NodeId) : Prop :=
  t.variant x = .ok k ∧ ∃ own, qualifiedName t object x = .ok own ∧ r.namesMatch name own = true

theorem cases_of_matchingField? {f : NodeId} {found : Option NodeId}
    (h : r.matchingField? t object name k (f :: fields) = .ok found) :
    ∃ value, t.coreNode f = .ok value ∧
      (r.Fits t object name k value ∧ found = some value ∨
        ¬ r.Fits t object name k value ∧ r.matchingField? t object name k fields = .ok found) := by
  obtain ⟨value, hvalue, h⟩ := ok_of_bind h
  obtain ⟨k', hk, h⟩ := ok_of_bind h
  refine ⟨value, hvalue, ?_⟩
  split at h
  · next hne => exact .inr ⟨fun hfits => hne (Except.ok.inj (hk.symm.trans hfits.1)), h⟩
  · next hsame =>
    rw [ne_eq, not_not] at hsame
    subst hsame
    obtain ⟨own, hown, h⟩ := ok_of_bind h
    split at h
    · next hmatch =>
      cases h
      exact .inl ⟨⟨hk, own, hown, hmatch⟩, rfl⟩
    · next hmatch =>
      refine .inr ⟨?_, h⟩
      rintro ⟨-, own', hown', hmatch'⟩
      rw [hown, Except.ok.injEq] at hown'
      exact hmatch (hown' ▸ hmatch')

/-- The search stops at the first value that fits. -/
theorem first_of_matchingField? (h : r.matchingField? t object name k fields = .ok (some x)) :
    ∃ pre f post, fields = pre ++ f :: post ∧ t.coreNode f = .ok x ∧ r.Fits t object name k x ∧
      ∀ f' ∈ pre, ∀ y, t.coreNode f' = .ok y → ¬ r.Fits t object name k y := by
  induction fields with
  | nil => cases h
  | cons f fields ih =>
    obtain ⟨value, hvalue, ⟨hfits, hfound⟩ | ⟨hfits, h⟩⟩ := cases_of_matchingField? h
    · obtain rfl := Option.some.inj hfound
      exact ⟨[], f, fields, rfl, hvalue, hfits, by simp⟩
    · obtain ⟨pre, g, post, rfl, hg, hx, hpre⟩ := ih h
      refine ⟨f :: pre, g, post, rfl, hg, hx, List.forall_mem_cons.mpr ⟨?_, hpre⟩⟩
      intro y hy
      rwa [← Except.ok.inj (hvalue.symm.trans hy)]

theorem not_fits_of_matchingField? (h : r.matchingField? t object name k fields = .ok none) :
    ∀ f ∈ fields, ∀ y, t.coreNode f = .ok y → ¬ r.Fits t object name k y := by
  induction fields with
  | nil => exact List.forall_mem_nil _
  | cons f fields ih =>
    obtain ⟨value, hvalue, ⟨-, hfound⟩ | ⟨hfits, h⟩⟩ := cases_of_matchingField? h
    · cases hfound
    · refine List.forall_mem_cons.mpr ⟨?_, ih h⟩
      intro y hy
      rwa [← Except.ok.inj (hvalue.symm.trans hy)]

theorem bears_of_matchingField? (hfields : ∀ f ∈ fields, t.Fixes f)
    (h : r.matchingField? t object name k fields = .ok (some x)) :
    t.Bears x ∧ t.variant x = .ok k := by
  obtain ⟨pre, f, post, rfl, hcore, hfits, -⟩ := first_of_matchingField? h
  exact ⟨(hfields f (by simp)).bears_core hcore, hfits.1⟩

theorem of_collectLinks {linksOf : NodeId → Proposal γ (List Link)}
    (h : Yields (collectLinks linksOf fields) ls) :
    ∃ lss, ls = lss.flatten ∧ List.Forall₂ (fun f ks => Yields (linksOf f) ks) fields lss := by
  induction fields generalizing ls with
  | nil => exact ⟨[], eq_of_pure h, .nil⟩
  | cons f fields ih =>
    obtain ⟨ks, hks, h⟩ := of_bind h
    obtain ⟨rest, hrest, h⟩ := of_bind h
    obtain ⟨lss, rfl, hall⟩ := ih hrest
    exact ⟨ks :: lss, eq_of_pure h, .cons hks hall⟩

variable [RandomSource γ]

/-- The links of two values of one variant: those of their fields if they are objects, or else one link. -/
def Links (γ : Type) [RandomSource γ] (r : Linker) (target source : ParamSite) (depth : Nat)
    (k : Variant) (x y : NodeId) (ls : List Link) : Prop :=
  if k = .object then Yields (r.objectLinksWithin target source depth x y : Proposal γ (List Link)) ls
  else ∃ l, orientedLink source y target x = .ok l ∧ ls = [l]

/-- The links of one field of an object when the object is matched with another one. -/
inductive FieldLinks (γ : Type) [RandomSource γ] (r : Linker) (target source : ParamSite) (depth : Nat)
    (x y f : NodeId) : List Link → Prop where
  | idle {g : Gene} (hg : target.tree.gene f = .ok g)
    (hidle : Gives (r.isEligible g : Draw γ Bool) false) : FieldLinks γ r target source depth x y f []
  | alone {v : NodeId} {k : Variant} {name : String} {fields : List NodeId}
    (hv : target.tree.coreNode f = .ok v) (hk : target.tree.variant v = .ok k)
    (hname : qualifiedName target.tree x v = .ok name) (hfields : source.tree.children y = .ok fields)
    (hnone : r.matchingField? source.tree y name k fields = .ok none) :
    FieldLinks γ r target source depth x y f []
  | matched {v w : NodeId} {k : Variant} {name : String} {fields : List NodeId} {ls : List Link}
    (hv : target.tree.coreNode f = .ok v) (hk : target.tree.variant v = .ok k)
    (hname : qualifiedName target.tree x v = .ok name) (hfields : source.tree.children y = .ok fields)
    (hfound : r.matchingField? source.tree y name k fields = .ok (some w))
    (hlinks : r.Links γ target source depth k v w ls) : FieldLinks γ r target source depth x y f ls

/-- A field has links only if it takes part. -/
theorem shares_of_objectLinksWithin {depth : Nat}
    (h : Yields (r.objectLinksWithin target source (depth + 1) x y : Proposal γ (List Link)) ls) :
    ∃ fields lss, target.tree.children x = .ok fields ∧ ls = lss.flatten ∧
      List.Forall₂ (fun f ks => r.FieldLinks γ target source depth x y f ks ∧
        (ks = [] ∨ ∃ g, target.tree.gene f = .ok g ∧ Gives (r.isEligible g : Draw γ Bool) true))
        fields lss := by
  obtain ⟨fields, hchildren, h⟩ := of_bind h
  obtain ⟨lss, rfl, hall⟩ := of_collectLinks h
  refine ⟨fields, lss, eq_ok_of_ofGene hchildren, rfl, hall.imp fun f ks hks => ?_⟩
  obtain ⟨g, hg, hks⟩ := of_bind hks
  obtain ⟨eligible, heligible, hks⟩ := of_bind hks
  have hg := eq_ok_of_ofGene hg
  have heligible := gives_of_lift heligible
  split at hks
  · next hidle =>
    rw [Bool.not_eq_true'] at hidle
    subst hidle
    rw [eq_of_pure hks]
    exact ⟨.idle hg heligible, .inl rfl⟩
  · next htakes =>
    rw [Bool.not_eq_true', Bool.not_eq_false] at htakes
    subst htakes
    refine ⟨?_, .inr ⟨g, hg, heligible⟩⟩
    obtain ⟨v, hv, hks⟩ := of_bind hks
    obtain ⟨k, hk, hks⟩ := of_bind hks
    obtain ⟨name, hname, hks⟩ := of_bind hks
    obtain ⟨others, hothers, hks⟩ := of_bind hks
    obtain ⟨found, hfound, hks⟩ := of_bind hks
    have hv := eq_ok_of_ofGene hv
    have hk := eq_ok_of_ofGene hk
    have hname := eq_ok_of_ofGene hname
    have hothers := eq_ok_of_ofGene hothers
    cases found with
    | none =>
      rw [eq_of_pure hks]
      exact .alone hv hk hname hothers (eq_ok_of_ofGene hfound)
    | some w =>
      refine .matched hv hk hname hothers (eq_ok_of_ofGene hfound) ?_
      rw [Links]
      simp only at hks
      split at hks
      · next hobject => rwa [if_pos hobject]
      · next hobject =>
        rw [if_neg hobject]
        obtain ⟨l, hl, hks⟩ := of_bind hks
        exact ⟨l, eq_ok_of_ofGene hl, eq_of_pure hks⟩

theorem of_objectLinksWithin {depth : Nat}
    (h : Yields (r.objectLinksWithin target source (depth + 1) x y : Proposal γ (List Link)) ls) :
    ∃ fields lss, target.tree.children x = .ok fields ∧ ls = lss.flatten ∧
      List.Forall₂ (r.FieldLinks γ target source depth x y) fields lss := by
  obtain ⟨fields, lss, hchildren, hls, hall⟩ := shares_of_objectLinksWithin h
  exact ⟨fields, lss, hchildren, hls, hall.imp fun _ _ hks => hks.1⟩

theorem joins_of_objectLinksWithin {depth : Nat} (hx : target.tree.Fixes x)
    (hxo : target.tree.variant x = .ok .object) (hy : source.tree.Fixes y)
    (hyo : source.tree.variant y = .ok .object)
    (h : Yields (r.objectLinksWithin target source depth x y : Proposal γ (List Link)) ls) :
    ∀ l ∈ ls, source.Joins target l := by
  -- both nodes stay objects outside of all collections, whatever the depth
  induction depth generalizing x y ls with
  | zero => exact absurd h not_throw
  | succ depth ih =>
    obtain ⟨fields, lss, hchildren, rfl, hall⟩ := of_objectLinksWithin h
    have hfixed := fixes_children_of_object hx hxo hchildren
    intro l hl
    obtain ⟨f, hf, ks, hks, hl⟩ := exists_of_mem_flatten hall hl
    cases hks with
    | idle | alone => cases hl
    | @matched v w k _ _ _ hv hk hname hothers hfound hlinks =>
      have hv := (hfixed f hf).bears_core hv
      obtain ⟨hw, hwk⟩ := bears_of_matchingField? (fixes_children_of_object hy hyo hothers) hfound
      rw [Links] at hlinks
      split at hlinks
      · next hobject => exact ih hv.1 (hobject ▸ hk) hw.1 (hobject ▸ hwk) hlinks l hl
      · obtain ⟨l', hl', rfl⟩ := hlinks
        obtain rfl := List.mem_singleton.mp hl
        exact joins_of_orientedLink hw hv hl'

theorem joins_of_bodyLinks (h : Yields (r.bodyLinks target source : Proposal γ (List Link)) ls) :
    ∀ l ∈ ls, source.Joins target l := by
  obtain ⟨x, hx, h⟩ := of_bind h
  obtain ⟨y, hy, h⟩ := of_bind h
  obtain ⟨k, hk, h⟩ := of_bind h
  have hx := ParamSite.bears_of_coreNode (eq_ok_of_ofGene hx)
  have hy := ParamSite.bears_of_coreNode (eq_ok_of_ofGene hy)
  split at h
  · rw [eq_of_pure h]
    exact List.forall_mem_nil _
  · next hobject =>
    rw [ne_eq, not_not] at hobject
    subst hobject
    obtain ⟨k, hk', h⟩ := of_bind h
    split at h
    · next hsame =>
      subst hsame
      exact joins_of_objectLinksWithin hx.1 (eq_ok_of_ofGene hk) hy.1 (eq_ok_of_ofGene hk') h
    · obtain ⟨name, -, h⟩ := of_bind h
      obtain ⟨fields, hfields, h⟩ := of_bind h
      obtain ⟨found, hfound, h⟩ := of_bind h
      cases found with
      | none =>
        rw [eq_of_pure h]
        exact List.forall_mem_nil _
      | some f =>
        obtain ⟨hf, hvariant⟩ := mem_of_fieldFor? (eq_ok_of_ofGene hfound)
        -- the field has the variant of a core
        obtain ⟨hoptional, hkey⟩ := hy.2.variant (eq_ok_of_ofGene hk')
        have hf := fixes_children_of_object hx.1 (eq_ok_of_ofGene hk) (eq_ok_of_ofGene hfields) f hf
        obtain ⟨l, hl, h⟩ := of_bind h
        rw [eq_of_pure h, List.forall_mem_singleton]
        refine joins_of_orientedLink hy ⟨hf, ?_⟩ (eq_ok_of_ofGene hl)
        exact isCore_of_variant hvariant hoptional hkey

end Linker
end CallEvolution
