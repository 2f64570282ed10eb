import CallEvolution.Proofs.FaithfulBuilds
import CallEvolution.Proofs.Templates
import CallEvolution.Proofs.TotalReading

/-! Genes of declared types always have a JSON form. A placeholder stands as a field of an object only,
where it is left out, and whatever is drawn later is copied from templates without placeholders. -/

namespace CallEvolution

open GeneTerm GeneTree

/-- Do placeholders stand below objects only? -/
def WholeAt (g : Gene) (parts : List GeneTerm) : Prop :=
  g.variant ≠ .object → ∀ p ∈ parts, p.content.gene.variant.isPlaceholder = false

theorem isPlaceholder_of_stencil {v w : GeneTerm} (h : w.stencil = v.stencil) :
    w.content.gene.variant.isPlaceholder = v.content.gene.variant.isPlaceholder := by
  obtain ⟨id, content, parts⟩ := v
  obtain ⟨id', content', parts'⟩ := w
  exact congrArg Variant.isPlaceholder (variant_eq_of_stencil h)

theorem lasts_wholeAt : Lasts WholeAt where
  rename f g parts := by rw [WholeAt, WholeAt, Gene.variant_rename]
  faces {g parts parts'} he h hg p hp := by
    have hmem : p.face ∈ parts.map face := he ▸ List.mem_map_of_mem hp
    obtain ⟨q, hq, hface⟩ := List.mem_map.mp hmem
    rw [isPlaceholder_of_stencil (congrArg Prod.snd hface.symm)]
    exact h hg q hq
  varies {g k parts} hc hg h := by
    rwa [WholeAt, ← Gene.variant_blank, hg.blank, Gene.variant_blank]
  fewer {g template old new} hc hshape hsub h hg p hp := by
    rw [Gene.variant_withMembers] at hg
    exact h hg p ((hsub.cons_cons template).subset hp)
  more {g template w members} hc hlt hw hname h hg p hp := by
    rw [Gene.variant_withMembers] at hg
    rw [← List.cons_append, List.mem_append, List.mem_singleton] at hp
    rcases hp with hp | rfl
    · exact h hg p hp
    · rw [isPlaceholder_of_stencil hw]
      exact h hg template (by simp)

/-- Is nothing missing from a node: no part of its value, and no text to choose? -/
def CompleteAt (g : Gene) (parts : List GeneTerm) : Prop := WholeAt g parts ∧ g.HasChoice

theorem lasts_completeAt : Lasts CompleteAt := lasts_wholeAt.and lasts_hasChoice

/-- What a JSON form takes at every node. -/
def PrintsAt (g : Gene) (parts : List GeneTerm) : Prop := CompleteAt g parts ∧ DomainAt g parts

theorem lasts_printsAt : Lasts PrintsAt := lasts_completeAt.and lasts_domainAt

namespace GeneTree

variable {t : GeneTree} {v : GeneTerm}

/-- Whether a field is left out is found, and a placeholder is. -/
theorem Holds.exists_isLeftOut (hv : t.Holds v) : ∃ out, t.isLeftOut v.id = .ok out ∧
    (v.content.gene.variant.isPlaceholder = true → out = true) := by
  refine ⟨_, hv.isLeftOut_eq, fun hcut => ?_⟩
  obtain ⟨id, content, parts⟩ := v
  have hcut : content.gene.variant.isPlaceholder = true := hcut
  have hplain : content.gene.isWrapper = false := by
    rw [Gene.isWrapper_eq_false_iff]
    constructor
    all_goals
      intro hw
      rw [hw] at hcut
      cases hcut
  rw [core_self hplain, Bool.or_eq_true]
  exact .inr hcut

/-- A term has a JSON form if no placeholder stands where it would be seen. -/
theorem Holds.exists_json {d : Nat} (hv : t.Holds v) (h : v.Every PrintsAt)
    (hseen : v.content.gene.variant.isPlaceholder = false) (hd : v.height ≤ d) :
    ∃ j, t.toJsonWithin d v.id = .ok j := by
  induction v using induct generalizing d with
  | node id content parts ih =>
    cases d with
    | zero => simp [height] at hd
    | succ d =>
      have hshaped := hv.shaped
      rw [Shaped] at hshaped
      have hnode : t.node id = .ok content := node_of_get? hv.get?_node
      rw [Every] at h
      obtain ⟨⟨⟨hwhole, hchoice⟩, hdomain, -⟩, hparts⟩ := h
      have hbelow : ∀ x ∈ content.gene.owned, ∃ p ∈ parts, p.id = x ∧
          (p.content.gene.variant.isPlaceholder = false → ∃ j, t.toJsonWithin d x = .ok j) := by
        intro x hx
        rw [← hshaped.1] at hx
        obtain ⟨p, hp, rfl⟩ := List.mem_map.mp hx
        have hlt := height_lt_of_part id content hp
        exact ⟨p, hp, rfl, fun hp' => ih p hp (hv.parts.each p hp) (hparts p hp) hp' (by omega)⟩
      have hjson : content.gene.variant ≠ .object → ∀ x ∈ content.gene.owned,
          ∃ j, t.toJsonWithin d x = .ok j := by
        intro hg x hx
        obtain ⟨p, hp, -, hj⟩ := hbelow x hx
        exact hj (hwhole hg p hp)
      change ∃ j, t.toJsonWithin (d + 1) id = .ok j
      obtain ⟨name, gene, parent⟩ := content
      cases gene
      case object fields refType =>
        rw [toJsonWithin_object hnode]
        refine exists_ok_bind (exists_ok_mapM fun x hx => ?_) fun members _ => ⟨_, rfl⟩
        obtain ⟨p, hp, rfl, hj⟩ := hbelow x hx
        have hpart := hv.parts.each p hp
        obtain ⟨out, hout, hcut⟩ := hpart.exists_isLeftOut
        refine exists_ok_bind ⟨out, hout⟩ fun out' hout' => ?_
        cases hout.symm.trans hout'
        -- a field that is not left out is no placeholder
        cases out with
        | true => exact ⟨none, rfl⟩
        | false =>
          refine exists_ok_bind ⟨_, exists_name hpart.get?_id⟩ fun name _ => ?_
          have hplain := Bool.eq_false_iff.mpr fun h => Bool.false_ne_true (hcut h)
          exact exists_ok_bind (hj hplain) fun j _ => ⟨_, rfl⟩
      case array template elements maxSize =>
        rw [toJsonWithin_array hnode]
        refine exists_ok_bind (exists_ok_mapM fun x hx => ?_) fun members _ => ⟨_, rfl⟩
        exact hjson (by rintro ⟨⟩) x (List.mem_cons_of_mem _ hx)
      case map template entries maxSize =>
        rw [toJsonWithin_map hnode]
        refine exists_ok_bind (exists_ok_mapM fun x hx => ?_) fun members _ => ⟨_, rfl⟩
        obtain ⟨p, hp, rfl, hj⟩ := hbelow x (List.mem_cons_of_mem _ hx)
        refine exists_ok_bind ⟨_, exists_name (hv.parts.each p hp).get?_id⟩ fun name _ => ?_
        exact exists_ok_bind (hjson (by rintro ⟨⟩) _ (List.mem_cons_of_mem _ hx)) fun j _ => ⟨_, rfl⟩
      case base64 data =>
        rw [toJsonWithin_base64 hnode]
        obtain ⟨p, hp, rfl, -⟩ := hbelow data (List.mem_singleton_self data)
        refine exists_ok_bind ⟨_, gene_of_get? (hv.parts.each p hp).get?_id⟩ fun g _ => ?_
        cases g
        case string => exact ⟨_, rfl⟩
        all_goals
          exact exists_ok_bind (hjson (by rintro ⟨⟩) _ (List.mem_singleton_self _)) fun j _ => ⟨_, rfl⟩
      case choice values index =>
        rw [toJsonWithin_choice hnode, List.getElem?_eq_getElem (hdomain hchoice)]
        exact ⟨_, rfl⟩
      case primaryKey table inner uniqueId =>
        rw [toJsonWithin_primaryKey hnode]
        exact hjson (by rintro ⟨⟩) inner (List.mem_singleton_self inner)
      case optional inner active =>
        rw [toJsonWithin_optional hnode]
        cases active
        · exact ⟨_, rfl⟩
        · exact hjson (by rintro ⟨⟩) inner (List.mem_singleton_self inner)
      case cyclePlaceholder | limitPlaceholder => cases hseen
      all_goals exact ⟨_, toJsonWithin_leaf rfl hnode⟩

theorem Unfolds.exists_json (hv : t.Unfolds v) (h : v.Every PrintsAt)
    (hseen : v.content.gene.variant.isPlaceholder = false) :
    (∃ j, t.toJson t.root = .ok j) ∧ ∃ text, t.printable t.root = .ok text := by
  have hjson : ∃ j, t.toJson t.root = .ok j :=
    hv.root ▸ hv.holds.exists_json h hseen hv.holds.height_le_depthBound
  refine ⟨hjson, ?_⟩
  obtain ⟨j, hj⟩ := hjson
  rw [printable, hj]
  exact ⟨requestText j, rfl⟩

theorem isMade_completeAt_leaf (name : String) {g : Gene} (hg : g.owned = []) (hchoice : g.HasChoice) :
    (leaf name g).IsMade CompleteAt :=
  isMade_leaf name hg ⟨fun _ => List.forall_mem_nil _, hchoice⟩

theorem isMade_completeAt_wrapper (name : String) {part : GeneTree} {make : NodeId → Gene}
    (hpart : part.IsMade CompleteAt) (hcut : Schemas.isCutOff part = false)
    (hmake : ∀ id, (make id).owned = [id]) (hchoice : ∀ id, (make id).HasChoice) :
    (wrapper name part make).IsMade CompleteAt := by
  obtain ⟨v, hv, hmade⟩ := hpart
  obtain ⟨w, hcopy, hunfolds⟩ := unfolds_wrapper name hv hmake
  have hw := hcopy.conserves lasts_completeAt
  have hseen : v.content.gene.variant.isPlaceholder = false := by
    rw [← hcut, Schemas.isCutOff, ← hv.root, hv.holds.get?_id]
    rfl
  refine ⟨_, hunfolds, ?_⟩
  rw [Every]
  refine ⟨⟨fun _ => List.forall_mem_singleton.mpr ?_, hchoice _⟩,
    List.forall_mem_singleton.mpr (hw.every hmade)⟩
  rw [isPlaceholder_of_stencil hw.stencil, hseen]

end GeneTree

/-- Does a type have a text to choose wherever it asks for one? -/
def FieldType.HasChoices : FieldType → Prop
  | choice values => values ≠ []
  | array inner _ | map inner _ => inner.HasChoices
  | _ => True

namespace Schemas

variable {r : Schemas} {t : GeneTree} {name typeName : String} {field : FieldDecl}

def HasChoices (r : Schemas) : Prop :=
  ∀ typeName schema, r.get? typeName = some schema → ∀ field ∈ schema.fields, field.type.HasChoices

theorem isMade_collect {make : NodeId → Gene} (ht : t.IsMade CompleteAt)
    (hmake : ∀ id, (make id).owned = [id]) (hchoice : ∀ id, (make id).HasChoice) :
    (collect (wrapper name · make) t).IsMade CompleteAt := by
  unfold collect
  split
  · exact ht
  · next hcut => exact isMade_completeAt_wrapper name ht (Bool.eq_false_iff.mpr hcut) hmake hchoice

theorem isMade_wrapField (ht : t.IsMade CompleteAt) : (wrapField field t).IsMade CompleteAt := by
  unfold wrapField
  split
  · exact ht
  · next hwrap =>
    rw [Bool.or_eq_true, not_or, Bool.not_eq_true, Bool.not_eq_true] at hwrap
    exact isMade_completeAt_wrapper field.name ht hwrap.2 (fun _ => rfl) fun _ => trivial

theorem isMade_unfoldField {path : List String} {expand : String → String → Except GeneError GeneTree}
    {type : FieldType} (hexpand : ∀ name target t, expand name target = .ok t → t.IsMade CompleteAt)
    (htype : type.HasChoices) (h : unfoldField r.maxDepth path expand name type = .ok t) :
    t.IsMade CompleteAt := by
  induction type generalizing t with
  | ref target =>
    rw [unfoldField] at h
    split at h
    · cases h
      exact isMade_completeAt_leaf name rfl trivial
    · split at h
      · cases h
        exact isMade_completeAt_leaf name rfl trivial
      · exact hexpand _ _ _ h
  | array inner maxSize ih | map inner maxSize ih =>
    obtain ⟨part, hpart, h⟩ := ok_of_bind h
    cases h
    exact isMade_collect (ih htype hpart) (fun _ => rfl) fun _ => trivial
  | base64 =>
    cases h
    exact isMade_completeAt_wrapper name (isMade_completeAt_leaf "data" rfl trivial) rfl (fun _ => rfl)
      fun _ => trivial
  | choice values =>
    cases h
    exact isMade_completeAt_leaf name rfl htype
  | _ =>
    cases h
    exact isMade_completeAt_leaf name rfl trivial

theorem isMade_unfoldObject {unused : Nat} {path : List String} (hr : r.HasChoices)
    (h : unfoldObject r unused path name typeName = .ok t) : t.IsMade CompleteAt := by
  induction unused generalizing path name typeName t with
  | zero => cases h
  | succ unused ih =>
    rw [unfoldObject] at h
    split at h
    · cases h
    · next schema hschema =>
      obtain ⟨fields, hfields, h⟩ := ok_of_bind h
      cases h
      refine isMade_composite lasts_completeAt name (fun part hp => ?_) (fun _ => rfl)
        fun _ _ => ⟨fun hg => absurd rfl hg, trivial⟩
      obtain ⟨field, hmem, hfield⟩ := ok_of_mapM hfields part hp
      obtain ⟨gene, hgene, hfield⟩ := ok_of_bind hfield
      cases hfield
      exact isMade_wrapField (isMade_unfoldField (fun _ _ _ => ih) (hr _ _ hschema field hmem) hgene)

theorem unfolds_build (hr : r.HasChoices) (h : r.build typeName name = .ok t) :
    ∃ v, t.Unfolds v ∧ v.Every PrintsAt ∧ v.content.gene.variant.isPlaceholder = false := by
  obtain ⟨v, hv, hmade⟩ := isMade_unfoldObject hr h
  refine ⟨v, hv, every_and.mpr ⟨hmade, (built_build h).inDomain.every hv.holds⟩, ?_⟩
  have hends := ends_build r typeName name
  rw [h] at hends
  obtain ⟨-, -, -, fields, hgene⟩ := hends
  rw [← hv.root, gene_of_get? hv.holds.get?_id, Except.ok.injEq] at hgene
  rw [hgene]
  rfl

end Schemas

namespace TreeCall

/-- Does a call take no value from elsewhere? -/
def StaysInside : TreeCall → Prop
  | copyFrom .. | adopt .. | setLeaf .. => False
  | _ => True

theorem StaysInside.upholds {call : TreeCall} (h : call.StaysInside) (t : GeneTree) :
    call.Upholds PrintsAt t := by
  cases call with
  | copyFrom | adopt | setLeaf => exact h.elim
  | randomize | mutate | setActive => trivial

variable {γ : Type} [RandomSource γ]

/-- A gene of a declared type has a JSON form and a request text after every run of calls that draw and
change values and switch optionals, whatever is drawn and whichever of the calls fail. -/
theorem printable_after_calls {r : Schemas} {typeName name : String} {t u : GeneTree}
    {calls : List TreeCall} {s s' : γ} (hr : r.HasChoices) (ht : r.build typeName name = .ok t)
    (hcalls : ∀ call ∈ calls, call.StaysInside) (h : leaveAll calls t s = .ok (u, s')) :
    (∃ j, u.toJson u.root = .ok j) ∧ ∃ text, u.printable u.root = .ok text := by
  obtain ⟨v, hv, hprints, hseen⟩ := Schemas.unfolds_build hr ht
  have hsustains : t.Sustains PrintsAt v := ⟨v, hv, rfl, rfl, hprints⟩
  obtain ⟨w, hw, -, hstencil, hevery⟩ := sustains_of_leaveAll lasts_printsAt hsustains
    (fun call hcall t _ => (hcalls call hcall).upholds t) ⟨s, s', h⟩
  exact hw.exists_json hevery (by rwa [isPlaceholder_of_stencil hstencil])

/-- A type of objects with a choice, an array of choices and a reference to itself. -/
def shelf : Schemas where
  objects := [⟨"Shelf", [⟨"kind", .choice ["a", "b"], true⟩, ⟨"next", .ref "Shelf", false⟩,
    ⟨"tags", .array (.choice ["x", "y"]) 3, false⟩]⟩]

theorem hasChoices_shelf : shelf.HasChoices := by
  intro typeName schema h field hfield
  have hmem := List.mem_of_find?_eq_some h
  simp only [shelf, List.mem_singleton] at hmem
  subst hmem
  simp only [List.mem_cons, List.not_mem_nil, or_false] at hfield
  rcases hfield with rfl | rfl | rfl <;> simp [FieldType.HasChoices]

/-- The reference is left out, and the array has got two elements. -/
theorem printable_after_calls_of_shelf :
    ∃ (t u : GeneTree) (s : WordSource), shelf.build "Shelf" "shelf" = .ok t ∧
      leaveAll [.randomize ⟨0⟩ true, .mutate {} .uniform ⟨0⟩] t ⟨[], 4⟩ = .ok (u, s) ∧
      u.printable u.root = .ok "\x7b\"kind\":\"b\",\"tags\":[\"y\",\"y\"]\x7d" ∧
      (∃ j, u.toJson u.root = .ok j) ∧ ∃ text, u.printable u.root = .ok text := by
  have hrun : ((shelf.build "Shelf" "shelf").map fun t =>
      (leaveAll [.randomize ⟨0⟩ true, .mutate {} .uniform ⟨0⟩] t (⟨[], 4⟩ : WordSource)).map fun r =>
        r.1.printable r.1.root) =
      .ok (.ok (.ok "\x7b\"kind\":\"b\",\"tags\":[\"y\",\"y\"]\x7d")) := by decide +kernel
  obtain ⟨t, ht, hleave⟩ := ok_of_map hrun
  obtain ⟨⟨u, s⟩, hu, htext⟩ := ok_of_map hleave
  refine ⟨t, u, s, ht, hu, htext, printable_after_calls hasChoices_shelf ht ?_ hu⟩
  simp only [List.forall_mem_cons, List.not_mem_nil, false_implies, implies_true, and_true]
  exact ⟨trivial, trivial⟩

end TreeCall
end CallEvolution
