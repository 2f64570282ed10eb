import CallEvolution.Gene.Schema
import CallEvolution.Proofs.Mould
import CallEvolution.Proofs.NodeLaws
import CallEvolution.Proofs.Ownership

/-! Trees as they are built. A leaf is well-formed, and so is a node above well-formed parts. A condition
that lasts holds of all that is built, if it holds of leaves with a value in their domain. -/

namespace CallEvolution

open GeneTerm

namespace GeneTree

variable {t u : GeneTree} {P : Gene → List GeneTerm → Prop}

/-- Is a tree well-formed, with a condition on each of its nodes? -/
def IsMade (P : Gene → List GeneTerm → Prop) (t : GeneTree) : Prop := ∃ v, t.Unfolds v ∧ v.Every P

theorem unfolds_leaf (name : String) {g : Gene} (hg : g.owned = []) :
    (leaf name g).Unfolds (.node ⟨0⟩ ⟨name, g, none⟩ []) := by
  have hget : (leaf name g).get? ⟨0⟩ = some ⟨name, g, none⟩ := rfl
  refine ⟨Holds.node hget (.nil _) hg.symm (by simp) (by simp [allIds]), rfl, rfl, ?_, ?_⟩
  · intro x hx
    obtain ⟨n, hn⟩ := Option.isSome_iff_exists.mp hx
    have hlt : x.index < 1 := lt_size_of_get? hn
    rw [ids_node, List.mem_cons]
    left
    obtain ⟨i⟩ := x
    exact congrArg NodeId.mk (Nat.lt_one_iff.mp hlt)
  · refine ⟨List.nodup_nil, fun x => ?_⟩
    simp only [leaf, List.append_nil, List.not_mem_nil, false_iff, not_and]
    intro hlt
    obtain ⟨i⟩ := x
    have hi : i = 0 := Nat.lt_one_iff.mp hlt
    subst hi
    intro hnone
    cases hget.symm.trans hnone

theorem wellFormed_leaf (name : String) {g : Gene} (hg : g.owned = []) : (leaf name g).WellFormed :=
  (unfolds_leaf name hg).wellFormed

theorem isMade_leaf (name : String) {g : Gene} (hg : g.owned = []) (h : P g []) :
    (leaf name g).IsMade P := by
  refine ⟨_, unfolds_leaf name hg, ?_⟩
  rw [Every]
  exact ⟨h, List.forall_mem_nil _⟩

/-- Is a term the copy of another one below the root of a composite tree? -/
def CopiedTo (v w : GeneTerm) : Prop := ∃ f, w = (v.rename f).withParent (some ⟨0⟩)

theorem CopiedTo.conserves (hP : Lasts P) {v w : GeneTerm} (h : CopiedTo v w) : Conserves P v w := by
  obtain ⟨f, rfl⟩ := h
  exact .copy hP f _ v

theorem addsAll_graftAll {parts : List GeneTree} {vs : List GeneTerm} (ht : t.FreeExact)
    (hroot : t.root = ⟨0⟩) (hparts : List.Forall₂ Unfolds parts vs) :
    ∃ ws, (graftAll parts t).1 = ws.map GeneTerm.id ∧ AddsAll t (graftAll parts t).2 ⟨0⟩ ws ∧
      List.Forall₂ CopiedTo vs ws := by
  induction hparts generalizing t with
  | nil => exact ⟨[], rfl, .nil ht _, .nil⟩
  | @cons part v parts vs hv hparts ih =>
    obtain ⟨-, f, u, hu, hframe, hholds⟩ := graft_holds ht hv (some t.root)
    rw [hroot] at hframe hholds
    obtain ⟨ws, hws, hall, hcopies⟩ := ih hframe.exact (hframe.root.trans hroot)
    have hadds : Adds t u ⟨0⟩ ((v.rename f).withParent (some ⟨0⟩)) :=
      ⟨hframe, hholds, by rw [content_withParent]⟩
    refine ⟨(v.rename f).withParent (some ⟨0⟩) :: ws, ?_, ?_, .cons ⟨f, rfl⟩ hcopies⟩
    · rw [graftAll, hu, List.map_cons, id_withParent, id_rename]
      exact congrArg (f v.id :: ·) hws
    · rw [graftAll, hu]
      exact hadds.cons hall

/-- A root that lists the parts that have come below it. -/
theorem unfolds_join {name : String} {g : Gene} {ws : List GeneTerm}
    (hws : AddsAll (leaf name .limitPlaceholder) u ⟨0⟩ ws) (hg : g.owned = ws.map GeneTerm.id) :
    (u.setGene u.root g).Unfolds (.node ⟨0⟩ ⟨name, g, none⟩ ws) := by
  have hleaf := unfolds_leaf name (g := .limitPlaceholder) rfl
  have hroot : u.root = ⟨0⟩ := hws.frame.root
  have hid := hws.frame.get?_eq hleaf.holds.get?_node (Set.notMem_empty _)
  have hnot : ⟨0⟩ ∉ footprints ws := hws.frame.notMem_new hleaf.holds.get?_node (Set.notMem_empty _)
  have hset := frame_setGene hws.frame.exact hid g
  rw [hroot]
  refine hleaf.becomes ⟨?_, ?_, rfl, rfl⟩
  · have hboth := hws.frame.both hset (Set.disjoint_singleton_left.mpr hnot)
    rw [footprint_node, footprint_node, footprints_nil, Set.union_empty]
    rwa [Set.empty_union, Set.union_comm] at hboth
  · refine Holds.node (get?_setGene hid g) (hset.holdsAll hws.holds ?_) hg.symm hws.owner hnot
    exact Set.disjoint_singleton_right.mpr hnot

/-- A composite tree unfolds into a root above copies of what its parts unfold into. -/
theorem unfolds_composite (name : String) {parts : List GeneTree} {vs : List GeneTerm}
    {make : List NodeId → Gene} (hparts : List.Forall₂ Unfolds parts vs)
    (hmake : ∀ ids, (make ids).owned = ids) :
    ∃ ws, List.Forall₂ CopiedTo vs ws ∧ (composite name parts make).Unfolds
      (.node ⟨0⟩ ⟨name, make (ws.map GeneTerm.id), none⟩ ws) := by
  have hleaf := unfolds_leaf name (g := .limitPlaceholder) rfl
  obtain ⟨ws, hids, hws, hcopies⟩ := addsAll_graftAll hleaf.exact rfl hparts
  have hjoin := unfolds_join (g := make (ws.map GeneTerm.id)) hws (hmake _)
  refine ⟨ws, hcopies, ?_⟩
  rwa [← hids] at hjoin ⊢

theorem unfolds_wrapper (name : String) {part : GeneTree} {v : GeneTerm} {make : NodeId → Gene}
    (hpart : part.Unfolds v) (hmake : ∀ id, (make id).owned = [id]) :
    ∃ w, CopiedTo v w ∧
      (wrapper name part make).Unfolds (.node ⟨0⟩ ⟨name, make w.id, none⟩ [w]) := by
  have hleaf := unfolds_leaf name (g := .limitPlaceholder) rfl
  obtain ⟨ws, hids, hws, hcopies⟩ := addsAll_graftAll hleaf.exact rfl (.cons hpart .nil)
  obtain ⟨w, rest, hcopy, hnil, rfl⟩ := List.forall₂_cons_left_iff.mp hcopies
  cases hnil
  have hone : ((leaf name .limitPlaceholder).graft part (some ⟨0⟩)).1 = w.id := (List.cons.inj hids).1
  have hjoin := unfolds_join hws (hmake w.id)
  refine ⟨w, hcopy, ?_⟩
  rwa [← hone] at hjoin ⊢

theorem exists_forall₂_unfolds {parts : List GeneTree} (h : ∀ part ∈ parts, part.IsMade P) :
    ∃ vs, List.Forall₂ Unfolds parts vs ∧ ∀ v ∈ vs, v.Every P := by
  induction parts with
  | nil => exact ⟨[], .nil, List.forall_mem_nil _⟩
  | cons part parts ih =>
    obtain ⟨⟨v, hv, hmade⟩, hrest⟩ := List.forall_mem_cons.mp h
    obtain ⟨vs, hvs, hmades⟩ := ih hrest
    exact ⟨v :: vs, .cons hv hvs, List.forall_mem_cons.mpr ⟨hmade, hmades⟩⟩

theorem isMade_composite (hP : Lasts P) (name : String) {parts : List GeneTree}
    {make : List NodeId → Gene} (hparts : ∀ part ∈ parts, part.IsMade P)
    (hmake : ∀ ids, (make ids).owned = ids) (h : ∀ ids ws, P (make ids) ws) :
    (composite name parts make).IsMade P := by
  obtain ⟨vs, hvs, hmades⟩ := exists_forall₂_unfolds hparts
  obtain ⟨ws, hcopies, hunfolds⟩ := unfolds_composite name hvs hmake
  refine ⟨_, hunfolds, ?_⟩
  rw [Every]
  refine ⟨h _ ws, fun w hw => ?_⟩
  obtain ⟨v, hv, hcopy⟩ := exists_of_forall₂ hcopies.flip hw
  exact (CopiedTo.conserves hP hcopy).every (hmades v hv)

theorem isMade_wrapper (hP : Lasts P) (name : String) {part : GeneTree} {make : NodeId → Gene}
    (hpart : part.IsMade P) (hmake : ∀ id, (make id).owned = [id]) (h : ∀ id w, P (make id) [w]) :
    (wrapper name part make).IsMade P := by
  obtain ⟨v, hv, hmade⟩ := hpart
  obtain ⟨w, hcopy, hunfolds⟩ := unfolds_wrapper name hv hmake
  refine ⟨_, hunfolds, ?_⟩
  rw [Every]
  exact ⟨h _ w, List.forall_mem_singleton.mpr ((hcopy.conserves hP).every hmade)⟩

theorem isMade_extract (hP : Lasts P) {copy : GeneTree} {id : NodeId} (ht : t.IsMade P)
    (hcopy : t.extract id = .ok copy) : copy.IsMade P := by
  obtain ⟨v, hv, hmade⟩ := ht
  obtain ⟨n, hn⟩ := live_of_extract hcopy
  obtain ⟨hs, p, rfl, rfl, -⟩ := exists_plug (hv.full id (contains_of_get? hn))
  obtain ⟨copy', f, hcopy', hunfolds⟩ := hv.holds.of_plug.extract
  rw [hcopy', Except.ok.injEq] at hcopy
  subst hcopy
  exact ⟨_, hunfolds, (Conserves.copy hP f none p).every hmade.of_plug⟩

theorem wellFormed_iff_isMade : t.WellFormed ↔ t.IsMade fun _ _ => True := by
  rw [wellFormed_iff]
  exact exists_congr fun v => (and_iff_left (every_true v)).symm

/-- The trees that the constructors give. -/
inductive Built : GeneTree → Prop where
  | integer (name : String) : Built (integer name)
  | integerIn (name : String) (a b : Int32) : Built (integerIn name a b)
  | long (name : String) : Built (long name)
  | longIn (name : String) (a b : Int64) : Built (longIn name a b)
  | float (name : String) : Built (float name)
  | floatIn {name : String} {a b : Single} {t : GeneTree} (h : floatIn name a b = .ok t) : Built t
  | double (name : String) : Built (double name)
  | doubleIn {name : String} {a b : Double} {t : GeneTree} (h : doubleIn name a b = .ok t) : Built t
  | boolean (name : String) : Built (boolean name)
  | string (name : String) : Built (string name)
  | stringIn (name : String) (a b : Nat) : Built (stringIn name a b)
  | stringWith (name value : String) : Built (stringWith name value)
  | choice (name : String) (values : List String) : Built (choice name values)
  | date (name : String) : Built (date name)
  | time (name : String) : Built (time name)
  | moment (name : String) : Built (moment name)
  | base64 (name : String) : Built (base64 name)
  | foreignKey (name target : String) (nullable : Bool) : Built (foreignKey name target nullable)
  | autoIncrement (name : String) : Built (autoIncrement name)
  | immutable (name value : String) : Built (immutable name value)
  | cyclePlaceholder (name : String) : Built (cyclePlaceholder name)
  | limitPlaceholder (name : String) : Built (limitPlaceholder name)
  | object (name : String) {fields : List GeneTree} (h : ∀ f ∈ fields, Built f) :
    Built (object name fields)
  | objectOf (name refType : String) {fields : List GeneTree} (h : ∀ f ∈ fields, Built f) :
    Built (objectOf name refType fields)
  | array (name : String) {template : GeneTree} (maxSize : Nat) (h : Built template) :
    Built (array name template maxSize)
  | map (name : String) {template : GeneTree} (maxSize : Nat) (h : Built template) :
    Built (map name template maxSize)
  | optional (name : String) {inner : GeneTree} (active : Bool) (h : Built inner) :
    Built (optional name inner active)
  | primaryKey (name table : String) {inner : GeneTree} (uniqueId : Nat) (h : Built inner) :
    Built (primaryKey name table inner uniqueId)
  | extract {t copy : GeneTree} {id : NodeId} (h : Built t) (hcopy : t.extract id = .ok copy) :
    Built copy

/-- A condition that holds of what the constructors make from parts: of leaves with a value in their
domain, of collections without members, of other genes in any case. -/
structure Begins (P : Gene → List GeneTerm → Prop) : Prop where
  leaf : ∀ {g : Gene}, g.InDomain → g.Bounded → P g []
  inner : ∀ {g : Gene} {parts : List GeneTerm}, g.InDomain → g.Bounded → g.isCollection = false → P g parts
  collection : ∀ {g : Gene} {template : GeneTerm}, g.InDomain → g.Bounded → P g [template]

theorem begins_true : Begins fun _ _ => True := ⟨fun _ _ => trivial, fun _ _ _ => trivial, fun _ _ => trivial⟩

theorem Begins.and {Q : Gene → List GeneTerm → Prop} (hP : Begins P) (hQ : Begins Q) :
    Begins fun g parts => P g parts ∧ Q g parts where
  leaf hdomain hbounded := ⟨hP.leaf hdomain hbounded, hQ.leaf hdomain hbounded⟩
  inner hdomain hbounded hc := ⟨hP.inner hdomain hbounded hc, hQ.inner hdomain hbounded hc⟩
  collection hdomain hbounded := ⟨hP.collection hdomain hbounded, hQ.collection hdomain hbounded⟩

theorem nearestToZero_mem {low high : Int} (h : low ≤ high) :
    low ≤ nearestToZero low high ∧ nearestToZero low high ≤ high := by
  unfold nearestToZero
  split
  · omega
  · split <;> omega

theorem Begins.isMade_leaf (hbegins : Begins P) (name : String) {g : Gene} (hg : g.owned = [])
    (hdomain : g.InDomain) (hbounded : g.Bounded) : (GeneTree.leaf name g).IsMade P :=
  GeneTree.isMade_leaf name hg (hbegins.leaf hdomain hbounded)

theorem Begins.isMade_integerIn (hbegins : Begins P) (name : String) (a b : Int32) :
    (integerIn name a b).IsMade P := by
  simp only [integerIn, ordered]
  refine hbegins.isMade_leaf name rfl (ofInt32_mem (nearestToZero_mem ?_)) trivial
  split
  · next h => exact Int32.le_iff_toInt_le.mp h
  · next h => exact Int32.le_iff_toInt_le.mp ((Int32.le_total a b).resolve_left h)

theorem Begins.isMade_longIn (hbegins : Begins P) (name : String) (a b : Int64) :
    (longIn name a b).IsMade P := by
  simp only [longIn, ordered]
  refine hbegins.isMade_leaf name rfl (ofInt64_mem (nearestToZero_mem ?_)) trivial
  split
  · next h => exact Int64.le_iff_toInt_le.mp h
  · next h => exact Int64.le_iff_toInt_le.mp ((Int64.le_total a b).resolve_left h)

theorem Begins.isMade_stringIn (hbegins : Begins P) (name : String) (a b : Nat) :
    (stringIn name a b).IsMade P := by
  simp only [stringIn, ordered]
  refine hbegins.isMade_leaf name rfl ?_ trivial
  rw [Gene.InDomain, String.length_pushn]
  split <;> simp <;> omega

/-- A condition that lasts holds in every tree that the constructors give. -/
theorem Built.isMade (hP : Lasts P) (hbegins : Begins P) (h : Built t) : t.IsMade P := by
  induction h with
  | integer name => exact hbegins.isMade_integerIn name _ _
  | integerIn name a b => exact hbegins.isMade_integerIn name a b
  | long name => exact hbegins.isMade_longIn name _ _
  | longIn name a b => exact hbegins.isMade_longIn name a b
  | floatIn h | doubleIn h =>
    simp only [GeneTree.floatIn, GeneTree.doubleIn] at h
    split at h
    · next hle =>
      cases h
      exact hbegins.isMade_leaf _ rfl trivial (Binary.clamp_mem (Binary.isNaN_ofNat 0) hle)
    · cases h
  | float name | double name =>
    refine hbegins.isMade_leaf name rfl trivial ?_
    rw [Gene.Bounded]
    decide +kernel
  | string name => exact hbegins.isMade_stringIn name _ _
  | stringIn name a b => exact hbegins.isMade_stringIn name a b
  | stringWith name value =>
    exact hbegins.isMade_leaf name rfl ⟨Nat.zero_le _, Nat.le_max_left _ _⟩ trivial
  | choice name values =>
    exact hbegins.isMade_leaf name rfl (fun hne => List.length_pos_of_ne_nil hne) trivial
  | base64 name =>
    exact isMade_wrapper hP name (hbegins.isMade_stringIn "data" _ _) (fun _ => rfl)
      fun _ _ => hbegins.inner trivial trivial rfl
  | object name _ ih | objectOf name refType _ ih =>
    exact isMade_composite hP name ih (fun _ => rfl) fun _ _ => hbegins.inner trivial trivial rfl
  | array name maxSize _ ih | map name maxSize _ ih =>
    exact isMade_wrapper hP name ih (fun _ => rfl)
      fun _ _ => hbegins.collection (Nat.zero_le maxSize) trivial
  | optional name _ _ ih | primaryKey name _ _ _ ih =>
    exact isMade_wrapper hP name ih (fun _ => rfl) fun _ _ => hbegins.inner trivial trivial rfl
  | extract _ hcopy ih => exact isMade_extract hP ih hcopy
  | _ => exact hbegins.isMade_leaf _ rfl trivial trivial

theorem Built.wellFormed (h : Built t) : t.WellFormed :=
  wellFormed_iff_isMade.mpr (h.isMade lasts_true begins_true)

end GeneTree

namespace Schemas

theorem built_collect {make : GeneTree → GeneTree} {template : GeneTree}
    (hmake : GeneTree.Built (make template)) (h : GeneTree.Built template) :
    GeneTree.Built (collect make template) := by
  unfold collect
  split
  · exact h
  · exact hmake

/-- What is built for a declared type comes from the constructors. -/
theorem built_unfoldField {maxDepth : Nat} {path : List String}
    {expand : String → String → Except GeneError GeneTree} {name : String} {type : FieldType}
    {t : GeneTree} (hexpand : ∀ name target t, expand name target = .ok t → GeneTree.Built t)
    (h : unfoldField maxDepth path expand name type = .ok t) : GeneTree.Built t := by
  induction type generalizing t with
  | ref target =>
    rw [unfoldField] at h
    split at h
    · cases h
      exact .cyclePlaceholder name
    · split at h
      · cases h
        exact .limitPlaceholder name
      · exact hexpand _ _ _ h
  | array inner maxSize ih =>
    obtain ⟨part, hpart, h⟩ := ok_of_bind h
    cases h
    exact built_collect (.array name maxSize (ih hpart)) (ih hpart)
  | map inner maxSize ih =>
    obtain ⟨part, hpart, h⟩ := ok_of_bind h
    cases h
    exact built_collect (.map name maxSize (ih hpart)) (ih hpart)
  | integer =>
    cases h
    exact .integer name
  | long =>
    cases h
    exact .long name
  | float =>
    cases h
    exact .float name
  | double =>
    cases h
    exact .double name
  | boolean =>
    cases h
    exact .boolean name
  | string =>
    cases h
    exact .string name
  | choice values =>
    cases h
    exact .choice name values
  | date =>
    cases h
    exact .date name
  | time =>
    cases h
    exact .time name
  | moment =>
    cases h
    exact .moment name
  | base64 =>
    cases h
    exact .base64 name

theorem built_wrapField {field : FieldDecl} {t : GeneTree} (h : GeneTree.Built t) :
    GeneTree.Built (wrapField field t) := by
  unfold wrapField
  split
  · exact h
  · exact .optional field.name true h

theorem built_unfoldObject {r : Schemas} {unused : Nat} {path : List String} {name typeName : String}
    {t : GeneTree} (h : unfoldObject r unused path name typeName = .ok t) : GeneTree.Built t := by
  induction unused generalizing path name typeName t with
  | zero => cases h
  | succ unused ih =>
    rw [unfoldObject] at h
    split at h
    · cases h
    · obtain ⟨fields, hfields, h⟩ := ok_of_bind h
      cases h
      refine .objectOf name typeName fun t ht => ?_
      obtain ⟨field, -, hfield⟩ := ok_of_mapM hfields t ht
      obtain ⟨part, hpart, hfield⟩ := ok_of_bind hfield
      cases hfield
      exact built_wrapField (built_unfoldField (fun _ _ _ => ih) hpart)

theorem built_build {r : Schemas} {typeName name : String} {t : GeneTree}
    (h : r.build typeName name = .ok t) : GeneTree.Built t := built_unfoldObject h

theorem built_geneOfType {r : Schemas} {name : String} {type : FieldType} {t : GeneTree}
    (h : r.geneOfType name type = .ok t) : GeneTree.Built t :=
  built_unfoldField (fun _ _ _ => built_unfoldObject) h

end Schemas
end CallEvolution
