import CallEvolution.Proofs.Unfolding

/-! Every build of a declared type ends, with a faithful tree or at a type that is not declared. The types
around an object are declared and differ, so no path is longer than the list of types. -/

namespace CallEvolution

open GeneTree

/-- What holds of the result of a computation, or of its error. -/
def Ends {ε α : Type} (Q : α → Prop) (E : ε → Prop) : Except ε α → Prop
  | .ok a => Q a
  | .error e => E e

section Ends

variable {ε α β : Type} {Q : α → Prop} {R : β → Prop} {E : ε → Prop}

theorem Ends.pure {a : α} (h : Q a) : Ends Q E (pure a : Except ε α) := h

theorem Ends.bind {x : Except ε α} {f : α → Except ε β} (hx : Ends Q E x)
    (hf : ∀ a, Q a → Ends R E (f a)) : Ends R E (x >>= f) := by
  cases x with
  | ok a => exact hf a hx
  | error e => exact hx

theorem Ends.mapM {f : α → Except ε β} {S : α → β → Prop} {l : List α}
    (h : ∀ a ∈ l, Ends (S a) E (f a)) : Ends (List.Forall₂ S l) E (l.mapM f) := by
  induction l with
  | nil => exact .nil
  | cons a l ih =>
    rw [List.mapM_cons]
    refine (h a (by simp)).bind fun b hb => ?_
    exact (ih fun c hc => h c (by simp [hc])).bind fun bs hbs => .cons hb hbs

end Ends

theorem forall₂_comp {α β γ : Type} {R : α → β → Prop} {S : β → γ → Prop} {l : List α} {m : List β}
    {n : List γ} (h : List.Forall₂ R l m) (k : List.Forall₂ S m n) :
    List.Forall₂ (fun a c => ∃ b, R a b ∧ S b c) l n := by
  induction h generalizing n with
  | nil =>
    cases k
    exact .nil
  | cons hab _ ih =>
    obtain ⟨c, n, hbc, hrest, rfl⟩ := List.forall₂_cons_left_iff.mp k
    exact .cons ⟨_, hab, hbc⟩ (ih hrest)

namespace Schemas

variable {r : Schemas} {t : GeneTree} {path : List String} {x : NodeId} {g : Gene}
  {name typeName requested : String} {type : FieldType} {field : FieldDecl}

theorem isCutOff_iff : isCutOff t = true ↔ t.CutOff t.root := by
  cases hroot : t.get? t.root with
  | some n => simp [isCutOff, CutOff, hroot, gene_of_get? hroot, GeneNode.variant]
  | none =>
    have hgene : t.gene t.root = .error (.unknownNode t.root) := by
      rw [gene, node, hroot]
      rfl
    simp [isCutOff, CutOff, hroot, hgene]

/-- May the types of a path stand around a node? -/
def Fits (r : Schemas) (path : List String) : Prop := path.Nodup ∧ path.length ≤ max 1 r.maxDepth

/-- A node above faithful ones is faithful if it is so itself. -/
theorem Faithful.node (hg : t.gene x = .ok g) (hfits : r.Fits (g.refType?.toList ++ path))
    (hobject : ∀ fields refType, g = .object fields refType → ∃ typeName schema,
      refType = some typeName ∧ r.get? typeName = some schema ∧
        List.Forall₂ (r.Shows t (g.refType?.toList ++ path)) schema.fields fields)
    (hcollection : g.isCollection = true → ∀ z ∈ g.owned, ¬ t.CutOff z)
    (hparts : ∀ y ∈ g.owned, r.Faithful t (g.refType?.toList ++ path) y) : r.Faithful t path x where
  distinct htrail := by
    rcases htrail.cases_gene hg with ⟨rfl, rfl⟩ | ⟨y, hy, hbelow⟩
    · exact hfits.1
    · exact (hparts y hy).distinct hbelow
  bounded htrail := by
    rcases htrail.cases_gene hg with ⟨rfl, rfl⟩ | ⟨y, hy, hbelow⟩
    · exact hfits.2
    · exact (hparts y hy).bounded hbelow
  objects htrail hgene := by
    rcases htrail.cases_gene hg with ⟨rfl, rfl⟩ | ⟨y, hy, hbelow⟩
    · exact hobject _ _ (Except.ok.inj (hg.symm.trans hgene))
    · exact (hparts y hy).objects hbelow hgene
  collections htrail hgene hc := by
    rcases htrail.cases_gene hg with ⟨rfl, rfl⟩ | ⟨y, hy, hbelow⟩
    · obtain rfl := Except.ok.inj (hg.symm.trans hgene)
      exact hcollection hc
    · exact (hparts y hy).collections hbelow hgene hc

theorem refType?_of_variant (h : g.variant ≠ .object) : g.refType? = none := by
  cases g <;> first | rfl | exact absurd rfl h

theorem faithful_leaf (name : String) (hg : g.owned = []) (hvariant : g.variant ≠ .object)
    (hfits : r.Fits path) : r.Faithful (leaf name g) path (leaf name g).root := by
  have hgene : (leaf name g).gene (leaf name g).root = .ok g := rfl
  have hpath : g.refType?.toList ++ path = path := by rw [refType?_of_variant hvariant]; rfl
  refine .node hgene (by rwa [hpath]) ?_ (by simp [hg]) (by simp [hg])
  rintro fields refType rfl
  exact absurd rfl hvariant

/-- Is a tree well-formed and faithful, with a root as it should be? -/
def Yields (r : Schemas) (path : List String) (root : GeneTree → NodeId → Prop) (t : GeneTree) : Prop :=
  t.WellFormed ∧ r.Faithful t path t.root ∧ root t t.root

/-- A node that wraps a faithful tree. -/
theorem faithful_wrapper (name : String) (make : NodeId → Gene) (hmake : ∀ id, (make id).owned = [id])
    (hvariant : ∀ id, (make id).variant ≠ .object)
    (hcollection : ∀ id, (make id).isCollection = true → ¬ t.CutOff t.root) (hfits : r.Fits path)
    (ht : t.WellFormed) (hg : t.gene t.root = .ok g) (hfaithful : r.Faithful t path t.root) :
    ∃ f, t.Embeds (wrapper name t make) f ∧ r.Yields path (fun u x =>
      u.name x = .ok name ∧ u.gene x = .ok (make (f t.root))) (wrapper name t make) := by
  obtain ⟨f, hembeds, hwf, hroot⟩ := embeds_wrapper name ht hmake
  generalize wrapper name t make = u at hembeds hwf hroot
  have hgene : u.gene u.root = .ok (make (f t.root)) := gene_of_get? hroot
  have hpath : (make (f t.root)).refType?.toList ++ path = path := by
    rw [refType?_of_variant (hvariant _)]
    rfl
  refine ⟨f, hembeds, hwf, .node hgene (by rwa [hpath]) ?_ (fun hc => ?_) ?_, ?_, hgene⟩
  · intro fields refType hobject
    exact absurd (congrArg Gene.variant hobject) (hvariant _)
  · rw [hmake, List.forall_mem_singleton, hembeds.cutOff_iff hg]
    exact hcollection _ hc
  · rw [hmake, List.forall_mem_singleton, hpath]
    exact hembeds.faithful ht hg hfaithful
  · rw [GeneTree.name, node_of_get? hroot]
    rfl

theorem yields_collect {make : NodeId → Gene} (hmake : ∀ id, (make id).owned = [id])
    (hvariant : ∀ id, (make id).variant ≠ .object) (hfits : r.Fits path)
    (ht : r.Yields path (r.Reduces · path name type) t) :
    r.Yields path (fun u => u.Collects name make (r.Reduces u path name type))
      (collect (wrapper name · make) t) := by
  obtain ⟨hwf, hfaithful, hroot⟩ := ht
  obtain ⟨g, hg⟩ := hroot.live
  unfold collect
  split
  · next hcut => exact ⟨hwf, hfaithful, .inl ⟨isCutOff_iff.mp hcut, hroot⟩⟩
  · next hcut =>
    rw [isCutOff_iff] at hcut
    obtain ⟨f, hembeds, hwf', hfaithful', hname, hgene⟩ :=
      faithful_wrapper name make hmake hvariant (fun _ _ => hcut) hfits hwf hg hfaithful
    refine ⟨hwf', hfaithful', .inr ⟨f t.root, hname, hgene, ?_, hembeds.reduces hroot⟩⟩
    rwa [hembeds.cutOff_iff hg]

theorem yields_wrapField (hfits : r.Fits path)
    (ht : r.Yields path (r.Reduces · path field.name field.type) t) :
    r.Yields path (r.Shows · path field) (wrapField field t) := by
  obtain ⟨hwf, hfaithful, hroot⟩ := ht
  obtain ⟨g, hg⟩ := hroot.live
  unfold wrapField
  split
  · next hplain =>
    rw [Bool.or_eq_true, isCutOff_iff] at hplain
    exact ⟨hwf, hfaithful, t.root, hroot, fun _ => rfl, fun h => absurd hplain h⟩
  · next hwrap =>
    rw [Bool.or_eq_true, isCutOff_iff] at hwrap
    obtain ⟨f, hembeds, hwf', hfaithful', hname, hgene⟩ :=
      faithful_wrapper field.name (.optional · true) (fun _ => rfl) (fun _ => nofun)
        (fun _ => nofun) hfits hwf hg hfaithful
    refine ⟨hwf', hfaithful', f t.root, hembeds.reduces hroot, fun h => ?_, fun _ => ⟨hname, hgene⟩⟩
    exact absurd ((or_congr_right (hembeds.cutOff_iff hg)).mp h) hwrap

/-- Is a node an object of a type? -/
def IsObject (name typeName : String) (t : GeneTree) (x : NodeId) : Prop :=
  t.name x = .ok name ∧ ∃ fields, t.gene x = .ok (.object fields (some typeName))

/-- Does an error name a type that is not declared, though a build comes to it? -/
def Lacks (r : Schemas) (requested : String) (e : GeneError) : Prop :=
  ∃ path typeName, e = .unknownSchema typeName ∧ r.get? typeName = none ∧
    r.Visits requested path typeName

theorem yields_leaf (hg : g.owned = []) (hvariant : g.variant ≠ .object) (hfits : r.Fits path)
    {root : GeneTree → NodeId → Prop} (hroot : root (leaf name g) ⟨0⟩) :
    r.Yields path root (leaf name g) :=
  ⟨wellFormed_leaf name hg, faithful_leaf name hg hvariant hfits, hroot⟩

theorem ends_unfoldField {expand : String → String → Except GeneError GeneTree} (hfits : r.Fits path)
    (hexpand : ∀ name target, type.target? = some target → target ∉ path → path.length < r.maxDepth →
      Ends (r.Yields path (IsObject name target)) (r.Lacks requested) (expand name target)) :
    Ends (r.Yields path (r.Reduces · path name type)) (r.Lacks requested)
      (unfoldField r.maxDepth path expand name type) := by
  induction type with
  | ref target =>
    simp only [unfoldField, List.contains_iff_mem]
    split
    · next hmem => exact .pure (yields_leaf rfl (by rintro ⟨⟩) hfits ⟨rfl, _, rfl, by rw [if_pos hmem]⟩)
    · next hmem =>
      split
      · next hdeep =>
        exact .pure (yields_leaf rfl (by rintro ⟨⟩) hfits ⟨rfl, _, rfl, by rw [if_neg hmem, if_pos hdeep]⟩)
      · next hdeep =>
        have hobject := hexpand name target rfl hmem (Nat.lt_of_not_le hdeep)
        cases hresult : expand name target with
        | error e =>
          rw [hresult] at hobject
          exact hobject
        | ok t =>
          rw [hresult] at hobject
          obtain ⟨hwf, hfaithful, hname, fields, hgene⟩ := hobject
          refine ⟨hwf, hfaithful, hname, _, hgene, ?_⟩
          rw [if_neg hmem, if_neg hdeep]
          exact ⟨fields, rfl⟩
  | array inner maxSize ih | map inner maxSize ih =>
    exact (ih hexpand).bind fun t ht => yields_collect (fun _ => rfl) (fun _ => by rintro ⟨⟩) hfits ht
  | base64 =>
    have hdata : r.Faithful (string "data") path (string "data").root :=
      faithful_leaf "data" rfl (by rintro ⟨⟩) hfits
    obtain ⟨f, -, hwf, hfaithful, hname, hgene⟩ := faithful_wrapper name .base64 (fun _ => rfl)
      (fun _ => by rintro ⟨⟩) (fun _ => by rintro ⟨⟩) hfits (wellFormed_leaf "data" rfl) rfl hdata
    refine ⟨hwf, hfaithful, hname, ?_⟩
    exact variant_of_gene hgene
  | _ =>
    exact .pure (yields_leaf rfl (by rintro ⟨⟩) hfits ⟨rfl, rfl⟩)

theorem name_of_get? {schema : ObjectType} (h : r.get? typeName = some schema) :
    typeName ∈ r.objects.map (·.name) := by
  have hname : schema.name = typeName := by simpa using List.find?_some h
  exact hname ▸ List.mem_map_of_mem (List.mem_of_find?_eq_some h)

/-- An object above its fields, each of which shows a declared one. -/
theorem yields_objectOf {schema : ObjectType} {fields : List GeneTree} (hfits : r.Fits (typeName :: path))
    (hschema : r.get? typeName = some schema)
    (hfields : List.Forall₂ (fun field => r.Yields (typeName :: path) (r.Shows · (typeName :: path) field))
      schema.fields fields) :
    r.Yields path (IsObject name typeName) (.objectOf name typeName fields) := by
  have hparts : ∀ part ∈ fields, ∃ field, r.Yields (typeName :: path)
      (r.Shows · (typeName :: path) field) part := by
    intro part hp
    obtain ⟨field, -, h⟩ := GeneTerm.exists_of_forall₂ hfields.flip hp
    exact ⟨field, h⟩
  obtain ⟨ids, hwf, hroot, hids⟩ := embeds_composite name (.object · (some typeName))
    (fun part (hp : part ∈ fields) => (hparts part hp).choose_spec.1) fun _ => rfl
  change (objectOf name typeName fields).WellFormed at hwf
  generalize hu : objectOf name typeName fields = u at hwf
  rw [objectOf] at hu
  rw [hu] at hroot hids
  have hgene : u.gene u.root = .ok (.object ids (some typeName)) := gene_of_get? hroot
  refine ⟨hwf, .node hgene hfits ?_ (fun hc => by cases hc) ?_, ?_, ids, hgene⟩
  · intro ids' refType he
    cases he
    refine ⟨typeName, schema, rfl, hschema, (forall₂_comp hfields hids).imp ?_⟩
    rintro field id ⟨part, hpart, f, hembeds, rfl⟩
    exact hembeds.shows hpart.2.2
  · intro id hid
    obtain ⟨part, hp, f, hembeds, rfl⟩ := GeneTerm.exists_of_forall₂ hids.flip hid
    obtain ⟨field, hwf', hfaithful, hshows⟩ := hparts part hp
    obtain ⟨g, hg⟩ := hshows.live
    exact hembeds.faithful hwf' hg hfaithful
  · rw [GeneTree.name, node_of_get? hroot]
    rfl

theorem ends_unfoldObject {unused : Nat} (hpath : path.Nodup) (hroom : path.length < max 1 r.maxDepth)
    (hknown : ∀ known ∈ path, ∃ schema, r.get? known = some schema)
    (hunused : path.length + unused = r.objects.length) (hnew : typeName ∉ path)
    (hvisits : r.Visits requested path typeName) :
    Ends (r.Yields path (IsObject name typeName)) (r.Lacks requested)
      (r.unfoldObject unused path name typeName) := by
  induction unused generalizing path name typeName with
  | zero =>
    -- all declared types are on the path, so this one is none of them
    cases hschema : r.get? typeName with
    | none => exact ⟨path, typeName, rfl, hschema, hvisits⟩
    | some schema =>
      have hsub : typeName :: path ⊆ r.objects.map (·.name) := by
        refine List.cons_subset.mpr ⟨name_of_get? hschema, fun known hk => ?_⟩
        obtain ⟨schema, hs⟩ := hknown known hk
        exact name_of_get? hs
      have hle := (List.subperm_of_subset (List.nodup_cons.mpr ⟨hnew, hpath⟩) hsub).length_le
      rw [List.length_map, List.length_cons] at hle
      omega
  | succ unused ih =>
    rw [unfoldObject]
    cases hschema : r.get? typeName with
    | none => exact ⟨path, typeName, rfl, hschema, hvisits⟩
    | some schema =>
      have hfits : r.Fits (typeName :: path) := by
        refine ⟨List.nodup_cons.mpr ⟨hnew, hpath⟩, ?_⟩
        rw [List.length_cons]
        omega
      refine Ends.bind (Q := List.Forall₂ (fun field => r.Yields (typeName :: path)
        (r.Shows · (typeName :: path) field)) schema.fields) ?_ fun fields hfields => ?_
      · refine Ends.mapM fun field hfield => ?_
        refine (ends_unfoldField hfits fun name target htarget hmem hlt => ?_).bind fun t ht =>
          .pure (yields_wrapField hfits ht)
        refine ih hfits.1 (by omega) ?_ ?_ hmem (.follow hvisits hschema hfield htarget hmem hlt)
        · exact List.forall_mem_cons.mpr ⟨⟨schema, hschema⟩, hknown⟩
        · rw [List.length_cons]
          omega
      · exact .pure (yields_objectOf hfits hschema hfields)

theorem ends_build (r : Schemas) (typeName name : String) :
    Ends (r.Yields [] (IsObject name typeName)) (r.Lacks typeName) (r.build typeName name) :=
  ends_unfoldObject List.nodup_nil (by simp) (List.forall_mem_nil _) (Nat.zero_add _) List.not_mem_nil .start

/-- A reference that is not cut off leads to an object of its type. -/
theorem Reduces.exists_object {y z : NodeId} {types : List String} {target : String}
    (h : r.Reduces t types name type z) (htrail : t.Trail path x types y) (hg : t.gene y = .ok g)
    (hz : z ∈ g.owned) (htarget : type.target? = some target) (hnew : target ∉ types)
    (hroom : types.length < r.maxDepth) :
    ∃ w fields, t.Trail path x (target :: types) w ∧ t.gene w = .ok (.object fields (some target)) := by
  induction type generalizing y z g with
  | ref referred =>
    cases htarget
    obtain ⟨-, k, hk, hcases⟩ := h
    rw [if_neg hnew, if_neg (Nat.not_le.mpr hroom)] at hcases
    obtain ⟨fields, rfl⟩ := hcases
    exact ⟨z, fields, htrail.owned hg hz hk, hk⟩
  | array inner maxSize ih | map inner maxSize ih =>
    rcases h with ⟨-, hpart⟩ | ⟨w, -, hgene, -, hpart⟩
    · exact ih hpart htrail hg hz htarget
    · exact ih hpart (htrail.owned hg hz hgene) hgene (List.mem_singleton_self w) htarget
  | _ => cases htarget

/-- A faithful tree has an object for every type that its build came to. -/
theorem Faithful.exists_object {visited : String} (h : r.Faithful t [] t.root)
    (hroot : IsObject name typeName t t.root) (hvisits : r.Visits typeName path visited) :
    ∃ x fields, t.Trail [] t.root (visited :: path) x ∧
      t.gene x = .ok (.object fields (some visited)) := by
  induction hvisits with
  | start =>
    obtain ⟨-, fields, hg⟩ := hroot
    exact ⟨t.root, fields, .here hg, hg⟩
  | @follow path typeName target schema field _ hschema hfield htarget hnew hroom ih =>
    obtain ⟨x, fields, htrail, hg⟩ := ih
    obtain ⟨_, schema', ⟨⟩, hschema', hshows⟩ := h.objects htrail hg
    cases hschema.symm.trans hschema'
    obtain ⟨y, hy, z, hz, hplain, hwrapped⟩ := GeneTerm.exists_of_forall₂ hshows hfield
    by_cases hcases : field.required = true ∨ t.CutOff z
    · obtain rfl := hplain hcases
      exact hz.exists_object htrail hg hy htarget hnew hroom
    · obtain ⟨-, hoptional⟩ := hwrapped hcases
      exact hz.exists_object (htrail.owned hg hy hoptional) hoptional (List.mem_singleton_self z) htarget
        hnew hroom

/-- Every build ends. It gives a well-formed tree that is faithful from its root on, where every node lies, if
all the types that it comes to are declared, and stops at one of them that is not. -/
theorem build_faithful (r : Schemas) (typeName name : String) :
    (∃ t, r.build typeName name = .ok t ∧ t.WellFormed ∧ IsObject name typeName t t.root ∧
      r.Faithful t [] t.root ∧ (∀ x g, t.gene x = .ok g → ∃ types, t.Trail [] t.root types x) ∧
      ∀ path visited, r.Visits typeName path visited → ∃ schema, r.get? visited = some schema) ∨
    ∃ missing path, r.build typeName name = .error (.unknownSchema missing) ∧
      r.get? missing = none ∧ r.Visits typeName path missing := by
  have hends := ends_build r typeName name
  cases hbuild : r.build typeName name with
  | ok t =>
    rw [hbuild] at hends
    obtain ⟨hwf, hfaithful, hroot⟩ := hends
    refine .inl ⟨t, rfl, hwf, hroot, hfaithful, fun _ _ => hwf.exists_trail, fun path visited hvisits => ?_⟩
    obtain ⟨x, fields, htrail, hg⟩ := hfaithful.exists_object hroot hvisits
    obtain ⟨_, schema, ⟨⟩, hschema, -⟩ := hfaithful.objects htrail hg
    exact ⟨schema, hschema⟩
  | error e =>
    rw [hbuild] at hends
    obtain ⟨path, missing, rfl, hmissing, hvisits⟩ := hends
    exact .inr ⟨missing, path, rfl, hmissing, hvisits⟩

end Schemas
end CallEvolution
