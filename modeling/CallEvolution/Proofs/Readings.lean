import CallEvolution.Gene.Adopt
import CallEvolution.Proofs.Comparison
import CallEvolution.Proofs.Cores

/-! What is read from a term. Terms of one value read the same, whatever their ids and the trees that hold
them. -/

namespace CallEvolution

open GeneTerm

namespace Gene

theorem eq_rename {g k : Gene} {f z : NodeId → NodeId} (h : g.rename z = k.rename z)
    (hf : g.owned.map f = k.owned) : k = g.rename f := by
  have hvariant := congrArg variant h
  rw [variant_rename, variant_rename] at hvariant
  cases kindred_of_variant hvariant
  case base64 | primaryKey | optional | object | array | map =>
    simp only [rename] at h
    simp_all [rename, owned, children]
  all_goals exact h.symm

/-- The JSON form of a gene that reads no other gene. -/
def leafJson? : Gene → Option Json
  | integer value _ _ => some (.integer value.toInt)
  | long value _ _ => some (.integer value.toInt)
  | float value _ _ => some (.ofDouble value.convert)
  | double value _ _ => some (.ofDouble value)
  | boolean value => some (.bool value)
  | string value _ _ | immutableData value => some (.string value)
  | date value => some (.string (Calendar.dateText value))
  | time value => some (.string (Calendar.timeText value))
  | moment value => some (.string (Calendar.momentText value))
  | foreignKey _ value _ => some (.ofOption (.integer ·.toInt) value)
  | autoIncrement => some .null
  | _ => none

end Gene

namespace GeneTree

variable {t u : GeneTree} {v w : GeneTerm} {id id' : NodeId} {content content' : GeneNode}
  {parts parts' : List GeneTerm}

theorem exists_ids_map (h : List.Forall₂ (fun p q : GeneTerm => p.erase = q.erase) parts parts')
    (hnd : (parts.map GeneTerm.id).Nodup) :
    ∃ f : NodeId → NodeId, (parts.map GeneTerm.id).map f = parts'.map GeneTerm.id ∧
      ∀ p ∈ parts, ∃ q ∈ parts', q.id = f p.id ∧ p.erase = q.erase := by
  induction h with
  | nil => exact ⟨fun x => x, rfl, List.forall_mem_nil _⟩
  | @cons p q ps qs hpq _ ih =>
    obtain ⟨hp, hnd⟩ := List.nodup_cons.mp hnd
    obtain ⟨f, hmap, hbelow⟩ := ih hnd
    have hold : ∀ x ∈ ps.map GeneTerm.id, (if x = p.id then q.id else f x) = f x := by
      intro x hx
      refine if_neg ?_
      rintro rfl
      exact hp hx
    refine ⟨fun x => if x = p.id then q.id else f x, ?_, ?_⟩
    · rw [List.map_cons, List.map_cons, List.map_cons, if_pos rfl, List.map_congr_left hold, hmap]
    · refine List.forall_mem_cons.mpr ⟨⟨q, by simp, (if_pos rfl).symm, hpq⟩, fun p' hp' => ?_⟩
      obtain ⟨q', hq', hid, he⟩ := hbelow p' hp'
      exact ⟨q', List.mem_cons_of_mem _ hq', hid.trans (hold _ (List.mem_map_of_mem hp')).symm, he⟩

/-- A node of another tree with the same value has the same gene up to the ids of its parts, which are of
the same values in turn. -/
theorem Holds.exists_renaming (hv : t.Holds (.node id content parts))
    (hw : u.Holds (.node id' content' parts'))
    (h : (GeneTerm.node id content parts).erase = (GeneTerm.node id' content' parts').erase) :
    ∃ f : NodeId → NodeId, content'.name = content.name ∧ content'.gene = content.gene.rename f ∧
      ∀ x ∈ content.gene.owned, ∃ p ∈ parts, ∃ q ∈ parts',
        p.id = x ∧ q.id = f x ∧ p.erase = q.erase := by
  rw [erase_node, erase_node, node.injEq] at h
  obtain ⟨-, hcontent, herase⟩ := h
  rw [← List.forall₂_eq_eq_eq, List.forall₂_map_left_iff, List.forall₂_map_right_iff] at herase
  have hshaped := hv.shaped
  have hshaped' := hw.shaped
  rw [Shaped] at hshaped hshaped'
  obtain ⟨f, hf, hbelow⟩ := exists_ids_map herase hv.parts.nodup_map_id
  rw [hshaped.1, hshaped'.1] at hf
  refine ⟨f, ?_, Gene.eq_rename (congrArg GeneNode.gene hcontent) hf, fun x hx => ?_⟩
  · exact (congrArg GeneNode.name hcontent).symm
  · rw [← hshaped.1] at hx
    obtain ⟨p, hp, rfl⟩ := List.mem_map.mp hx
    obtain ⟨q, hq, hid, he⟩ := hbelow p hp
    exact ⟨p, hp, q, hq, rfl, hid, he⟩

theorem name_eq_of_erase (hv : t.Holds v) (hw : u.Holds w) (h : v.erase = w.erase) :
    t.name v.id = u.name w.id := by
  obtain ⟨id, content, parts⟩ := v
  obtain ⟨id', content', parts'⟩ := w
  obtain ⟨f, hname, -, -⟩ := hv.exists_renaming hw h
  have hid : t.name id = .ok content.name := by rw [name, node_of_get? hv.get?_node]; rfl
  have hid' : u.name id' = .ok content'.name := by rw [name, node_of_get? hw.get?_node]; rfl
  exact hid.trans (hname ▸ hid'.symm)

theorem exists_gene_rename (hv : t.Holds v) (hw : u.Holds w) (h : v.erase = w.erase) :
    ∃ g f, t.gene v.id = .ok g ∧ u.gene w.id = .ok (g.rename f) := by
  obtain ⟨id, content, parts⟩ := v
  obtain ⟨id', content', parts'⟩ := w
  obtain ⟨f, -, hgene, -⟩ := hv.exists_renaming hw h
  exact ⟨content.gene, f, gene_of_get? hv.get?_node, hgene ▸ gene_of_get? hw.get?_node⟩

theorem variant_eq_of_erase (hv : t.Holds v) (hw : u.Holds w) (h : v.erase = w.erase) :
    t.variant v.id = u.variant w.id := by
  obtain ⟨g, f, hg, hg'⟩ := exists_gene_rename hv hw h
  rw [variant_of_gene hg, variant_of_gene hg', Gene.variant_rename]

theorem isLeftOut_eq_of_erase (hv : t.Holds v) (hw : u.Holds w) (h : v.erase = w.erase) :
    t.isLeftOut v.id = u.isLeftOut w.id := by
  have hcore := variant_eq_of_erase hv.core hw.core (core_erase hv.shaped hw.shaped h)
  obtain ⟨g, f, hg, hg'⟩ := exists_gene_rename hv hw h
  unfold isLeftOut
  rw [hg, hg', hv.coreNode, hw.coreNode]
  cases g
  case optional inner active =>
    cases active
    · rfl
    · exact congrArg (fun r : Except GeneError Variant => r.map Variant.isPlaceholder) hcore
  all_goals exact congrArg (fun r : Except GeneError Variant => r.map Variant.isPlaceholder) hcore

/-- A field is left out if it shows nothing, or if a placeholder is all that it shows. -/
theorem Holds.isLeftOut_eq (hv : t.Holds v) : t.isLeftOut v.id =
    .ok (!v.content.gene.shows || v.core.content.gene.variant.isPlaceholder) := by
  have hgene : t.gene v.id = .ok v.content.gene := gene_of_get? hv.get?_id
  have hcore : t.variant v.core.id = .ok v.core.content.gene.variant :=
    variant_of_gene (gene_of_get? hv.core.get?_id)
  have hlook : (do return (← t.variant (← t.coreNode v.id)).isPlaceholder : Except GeneError Bool) =
      .ok v.core.content.gene.variant.isPlaceholder := by
    rw [hv.coreNode]
    change (t.variant v.core.id >>= _) = _
    rw [hcore]
    rfl
  unfold isLeftOut
  rw [hgene]
  cases v.content.gene
  case optional inner active =>
    cases active
    · rfl
    · exact hlook
  all_goals exact hlook

section Json

variable {name : String} {parent : Option NodeId} {d : Nat}

-- Each of the next lemmas looks at the node only, so it opens the definition in place.
theorem toJsonWithin_leaf {g : Gene} {json : Json} (hg : g.leafJson? = some json)
    (h : t.node id = .ok ⟨name, g, parent⟩) : t.toJsonWithin (d + 1) id = .ok json := by
  cases g
  case choice | base64 | primaryKey | optional | object | array | map | cyclePlaceholder
    | limitPlaceholder => cases hg
  all_goals
    obtain rfl := Option.some.inj hg
    change (t.node id >>= _) = _
    rw [h]
    rfl

theorem toJsonWithin_placeholder {g : Gene} (hg : g.variant.isPlaceholder = true)
    (h : t.node id = .ok ⟨name, g, parent⟩) :
    t.toJsonWithin (d + 1) id = .error (.notPrintable name) := by
  cases g
  case cyclePlaceholder | limitPlaceholder =>
    change (t.node id >>= _) = _
    rw [h]
    rfl
  all_goals cases hg

theorem toJsonWithin_primaryKey {table : String} {inner : NodeId} {uniqueId : Nat}
    (h : t.node id = .ok ⟨name, .primaryKey table inner uniqueId, parent⟩) :
    t.toJsonWithin (d + 1) id = t.toJsonWithin d inner := by
  change (t.node id >>= _) = _
  rw [h]
  rfl

theorem toJsonWithin_optional {inner : NodeId} {active : Bool}
    (h : t.node id = .ok ⟨name, .optional inner active, parent⟩) :
    t.toJsonWithin (d + 1) id = if active then t.toJsonWithin d inner else .ok .null := by
  change (t.node id >>= _) = _
  rw [h]
  rfl

theorem toJsonWithin_object {fields : List NodeId} {refType : Option String}
    (h : t.node id = .ok ⟨name, .object fields refType, parent⟩) :
    t.toJsonWithin (d + 1) id = (fields.mapM fun f => do
      if ← t.isLeftOut f then return none
      return some (← t.name f, ← t.toJsonWithin d f)) >>= fun members =>
        return .ofMembers (members.filterMap fun m => m) := by
  change (t.node id >>= _) = _
  rw [h]
  rfl

theorem toJsonWithin_array {template : NodeId} {elements : List NodeId} {maxSize : Nat}
    (h : t.node id = .ok ⟨name, .array template elements maxSize, parent⟩) :
    t.toJsonWithin (d + 1) id = elements.mapM (t.toJsonWithin d) >>= fun members =>
      return .array members := by
  change (t.node id >>= _) = _
  rw [h]
  rfl

theorem toJsonWithin_map {template : NodeId} {entries : List NodeId} {maxSize : Nat}
    (h : t.node id = .ok ⟨name, .map template entries maxSize, parent⟩) :
    t.toJsonWithin (d + 1) id = (entries.mapM fun e => do
      return (← t.name e, ← t.toJsonWithin d e)) >>= fun members => return .ofMembers members := by
  change (t.node id >>= _) = _
  rw [h]
  rfl

theorem toJsonWithin_choice {values : List String} {index : Nat}
    (h : t.node id = .ok ⟨name, .choice values index, parent⟩) :
    t.toJsonWithin (d + 1) id = match values[index]? with
      | some value => .ok (.string value)
      | none => .error (.notPrintable name) := by
  change (t.node id >>= _) = _
  rw [h]
  rfl

theorem toJsonWithin_base64 {data : NodeId}
    (h : t.node id = .ok ⟨name, .base64 data, parent⟩) :
    t.toJsonWithin (d + 1) id = t.gene data >>= fun g =>
      match g with
      | .string value _ _ => return .string (Text.Base64.ofText value)
      | _ => do return .string (Text.Base64.ofText (requestText (← t.toJsonWithin d data))) := by
  change (t.node id >>= _) = _
  rw [h]
  rfl

end Json

theorem mapM_map_congr {α : Type} {F G : NodeId → Except GeneError α} {f : NodeId → NodeId}
    {xs : List NodeId} (h : ∀ x ∈ xs, F x = G (f x)) : xs.mapM F = (xs.map f).mapM G := by
  induction xs with
  | nil => rfl
  | cons x xs ih =>
    rw [List.map_cons, List.mapM_cons, List.mapM_cons, h x (by simp),
      ih fun y hy => h y (List.mem_cons_of_mem _ hy)]

theorem toJsonWithin_eq_of_erase {d e : Nat} (hv : t.Holds v) (hw : u.Holds w)
    (h : v.erase = w.erase) (hd : v.height ≤ d) (he : w.height ≤ e) :
    t.toJsonWithin d v.id = u.toJsonWithin e w.id := by
  induction v using induct generalizing w d e with
  | node id content parts ih =>
    obtain ⟨id', content', parts'⟩ := w
    -- `f` takes the parts of the one node to those of the other
    obtain ⟨f, hname, hgene, hbelow⟩ := hv.exists_renaming hw h
    cases d with
    | zero => simp [height] at hd
    | succ d =>
      cases e with
      | zero => simp [height] at he
      | succ e =>
        have hjson : ∀ x ∈ content.gene.owned, t.toJsonWithin d x = u.toJsonWithin e (f x) := by
          intro x hx
          obtain ⟨p, hp, q, hq, rfl, hid, hpq⟩ := hbelow x hx
          have hlt := height_lt_of_part id content hp
          have hlt' := height_lt_of_part id' content' hq
          rw [← hid]
          exact ih p hp (hv.parts.each p hp) (hw.parts.each q hq) hpq (by omega) (by omega)
        have hfield : ∀ x ∈ content.gene.owned, t.name x = u.name (f x) := by
          intro x hx
          obtain ⟨p, hp, q, hq, rfl, hid, hpq⟩ := hbelow x hx
          rw [← hid]
          exact name_eq_of_erase (hv.parts.each p hp) (hw.parts.each q hq) hpq
        have hleftOut : ∀ x ∈ content.gene.owned, t.isLeftOut x = u.isLeftOut (f x) := by
          intro x hx
          obtain ⟨p, hp, q, hq, rfl, hid, hpq⟩ := hbelow x hx
          rw [← hid]
          exact isLeftOut_eq_of_erase (hv.parts.each p hp) (hw.parts.each q hq) hpq
        have hnode : t.node id = .ok content := node_of_get? hv.get?_node
        have hnode' : u.node id' = .ok content' := node_of_get? hw.get?_node
        change t.toJsonWithin (d + 1) id = u.toJsonWithin (e + 1) id'
        obtain ⟨name, gene, parent⟩ := content
        obtain ⟨name', gene', parent'⟩ := content'
        cases hname
        cases hgene
        cases gene
        case object fields refType =>
          rw [toJsonWithin_object hnode, toJsonWithin_object hnode']
          refine congrArg (· >>= _) (mapM_map_congr fun x hx => ?_)
          rw [hleftOut x hx, hfield x hx, hjson x hx]
        case array template elements maxSize =>
          rw [toJsonWithin_array hnode, toJsonWithin_array hnode']
          refine congrArg (· >>= _) (mapM_map_congr fun x hx => ?_)
          exact hjson x (List.mem_cons_of_mem _ hx)
        case map template entries maxSize =>
          rw [toJsonWithin_map hnode, toJsonWithin_map hnode']
          refine congrArg (· >>= _) (mapM_map_congr fun x hx => ?_)
          rw [hfield x (List.mem_cons_of_mem _ hx), hjson x (List.mem_cons_of_mem _ hx)]
        case base64 data =>
          have hdata := hjson data (List.mem_singleton_self data)
          obtain ⟨p, hp, q, hq, rfl, hid, hpq⟩ := hbelow data (List.mem_singleton_self data)
          obtain ⟨g, k, hg, hg'⟩ := exists_gene_rename (hv.parts.each p hp) (hw.parts.each q hq) hpq
          rw [hid] at hg'
          rw [toJsonWithin_base64 hnode, toJsonWithin_base64 hnode', hg, hg', hdata]
          cases g <;> rfl
        case primaryKey table inner uniqueId =>
          rw [toJsonWithin_primaryKey hnode, toJsonWithin_primaryKey hnode']
          exact hjson inner (List.mem_singleton_self inner)
        case optional inner active =>
          rw [toJsonWithin_optional hnode, toJsonWithin_optional hnode']
          exact congrArg (ite _ · _) (hjson inner (List.mem_singleton_self inner))
        case choice => rw [toJsonWithin_choice hnode, toJsonWithin_choice hnode']
        case cyclePlaceholder | limitPlaceholder =>
          rw [toJsonWithin_placeholder rfl hnode, toJsonWithin_placeholder rfl hnode']
        all_goals rw [toJsonWithin_leaf rfl hnode, toJsonWithin_leaf rfl hnode']

theorem rawText_eq_of_erase (hv : t.Holds v) (hw : u.Holds w) (h : v.erase = w.erase) :
    t.rawText v.id = u.rawText w.id := by
  have hjson : t.toJson v.id = u.toJson w.id :=
    toJsonWithin_eq_of_erase hv hw h hv.height_le_depthBound hw.height_le_depthBound
  have hprint : t.printable v.id = u.printable w.id := congrArg (·.map requestText) hjson
  obtain ⟨g, f, hg, hg'⟩ := exists_gene_rename hv hw h
  unfold rawText
  rw [hg, hg']
  cases g
  case string => rfl
  all_goals exact hprint

/-- Terms of one value hold the same scalar. -/
theorem scalar_eq_of_erase (hv : t.Holds v) (hw : u.Holds w) (h : v.erase = w.erase) :
    t.scalar v.id = u.scalar w.id := by
  have hcore := core_erase hv.shaped hw.shaped h
  have htext := rawText_eq_of_erase hv.core hw.core hcore
  obtain ⟨g, f, hg, hg'⟩ := exists_gene_rename hv.core hw.core hcore
  unfold scalar
  rw [hv.coreNode, hw.coreNode]
  change (t.gene v.core.id >>= _) = (u.gene w.core.id >>= _)
  rw [hg, hg']
  cases g
  case integer | long | float | double | boolean | foreignKey | date | time | moment
    | cyclePlaceholder | limitPlaceholder | autoIncrement => rfl
  all_goals exact congrArg (·.map fun s => some (Scalar.text s)) htext

end GeneTree
end CallEvolution
