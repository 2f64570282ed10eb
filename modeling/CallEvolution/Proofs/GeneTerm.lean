import CallEvolution.Gene.Subtree
import Mathlib.Data.List.Nodup
import Mathlib.Data.List.Perm.Subperm
import Mathlib.Data.Set.Basic

/-! Parts of gene trees unfolded into terms. A tree holds a term if each node of the term stands in its
slot, so what happens in slots that a term does not use leaves the term held. -/

namespace CallEvolution

/-- A node with its id and all that it owns, templates included. -/
inductive GeneTerm where
  | node (id : NodeId) (content : GeneNode) (parts : List GeneTerm)

namespace Gene

def isCollection : Gene → Bool
  | array .. | map .. => true
  | _ => false

/-- The gene without its value: what stays when a gene is randomized, mutated or bound. -/
def blank : Gene → Gene
  | integer _ min max => integer 0 min max
  | long _ min max => long 0 min max
  | float _ min max => float min min max
  | double _ min max => double min min max
  | boolean _ => boolean false
  | string _ min max => string "" min max
  | choice values _ => choice values 0
  | date _ => date .epoch
  | time _ => time .midnight
  | moment _ => moment .epoch
  | foreignKey table _ nullable => foreignKey table none nullable
  | immutableData _ => immutableData ""
  | array template _ maxSize => array template [] maxSize
  | map template _ maxSize => map template [] maxSize
  | optional gene _ => optional gene false
  | g => g

/-- Two genes of one kind. The cases are the kinds, so that a proof about such a pair has one for each kind and
not one for each two of them. -/
inductive Kindred : Gene → Gene → Prop
  | integer (x min max y min' max' : Int32) : Kindred (.integer x min max) (.integer y min' max')
  | long (x min max y min' max' : Int64) : Kindred (.long x min max) (.long y min' max')
  | float (x min max y min' max' : Single) : Kindred (.float x min max) (.float y min' max')
  | double (x min max y min' max' : Double) : Kindred (.double x min max) (.double y min' max')
  | boolean (x y : Bool) : Kindred (.boolean x) (.boolean y)
  | string (x : String) (min max : Nat) (y : String) (min' max' : Nat) :
    Kindred (.string x min max) (.string y min' max')
  | choice (xs : List String) (i : Nat) (ys : List String) (j : Nat) : Kindred (.choice xs i) (.choice ys j)
  | date (x y : Date) : Kindred (.date x) (.date y)
  | time (x y : Time) : Kindred (.time x) (.time y)
  | moment (x y : Moment) : Kindred (.moment x) (.moment y)
  | base64 (data data' : NodeId) : Kindred (.base64 data) (.base64 data')
  | primaryKey (table : String) (inner : NodeId) (uniqueId : Nat) (table' : String) (inner' : NodeId)
      (uniqueId' : Nat) : Kindred (.primaryKey table inner uniqueId) (.primaryKey table' inner' uniqueId')
  | foreignKey (table : String) (x : Option Int64) (nullable : Bool) (table' : String) (y : Option Int64)
      (nullable' : Bool) : Kindred (.foreignKey table x nullable) (.foreignKey table' y nullable')
  | autoIncrement : Kindred .autoIncrement .autoIncrement
  | immutableData (x y : String) : Kindred (.immutableData x) (.immutableData y)
  | object (xs : List NodeId) (refType : Option String) (ys : List NodeId) (refType' : Option String) :
    Kindred (.object xs refType) (.object ys refType')
  | array (template : NodeId) (xs : List NodeId) (maxSize : Nat) (template' : NodeId) (ys : List NodeId)
      (maxSize' : Nat) : Kindred (.array template xs maxSize) (.array template' ys maxSize')
  | optional (x : NodeId) (active : Bool) (y : NodeId) (active' : Bool) :
    Kindred (.optional x active) (.optional y active')
  | map (template : NodeId) (xs : List NodeId) (maxSize : Nat) (template' : NodeId) (ys : List NodeId)
      (maxSize' : Nat) : Kindred (.map template xs maxSize) (.map template' ys maxSize')
  | cyclePlaceholder : Kindred .cyclePlaceholder .cyclePlaceholder
  | limitPlaceholder : Kindred .limitPlaceholder .limitPlaceholder

theorem kindred_of_variant {g k : Gene} (h : g.variant = k.variant) : Kindred g k := by
  cases g <;> cases k <;> simp only [variant, reduceCtorEq] at h <;> constructor

end Gene

def GeneNode.blank (n : GeneNode) : GeneNode := { n with gene := n.gene.blank }

/-- The node among neighbours with other ids. -/
def GeneNode.rename (f : NodeId → NodeId) (n : GeneNode) : GeneNode :=
  { n with
    gene := n.gene.rename f
    parent := n.parent.map f }

namespace GeneTerm

def id : GeneTerm → NodeId
  | node id _ _ => id

def content : GeneTerm → GeneNode
  | node _ content _ => content

def parts : GeneTerm → List GeneTerm
  | node _ _ parts => parts

/-- All nodes, each before its parts. -/
def nodes : GeneTerm → List (NodeId × GeneNode)
  | node id content parts => (id, content) :: parts.flatMap nodes

def ids (v : GeneTerm) : List NodeId := v.nodes.map (·.1)

def height : GeneTerm → Nat
  | node _ _ parts => (parts.map height).foldr max 0 + 1

/-- Does every node own exactly its parts, and does each part name it as its owner? -/
def Shaped : GeneTerm → Prop
  | node id content parts =>
    parts.map GeneTerm.id = content.gene.owned ∧ ∀ v ∈ parts, v.content.parent = some id ∧ v.Shaped

/-- The nodes that are no members of collections, without their values; those of templates are kept as
they are. -/
def mould : GeneTerm → List (NodeId × GeneNode)
  | node id content parts =>
    (id, content.blank) ::
      if content.gene.isCollection then (parts.take 1).flatMap nodes else parts.flatMap mould

/-- The term with other ids. -/
def rename (f : NodeId → NodeId) : GeneTerm → GeneTerm
  | node id content parts => node (f id) (content.rename f) (parts.map (rename f))

/-- The term below another owner. -/
def withParent (p : Option NodeId) : GeneTerm → GeneTerm
  | node id content parts => node id { content with parent := p } parts

theorem induct {motive : GeneTerm → Prop}
    (node : ∀ id content parts, (∀ v ∈ parts, motive v) → motive (node id content parts)) :
    ∀ v, motive v
  | .node id content parts => node id content parts fun v _ => induct node v

theorem ids_node (id : NodeId) (content : GeneNode) (parts : List GeneTerm) :
    (node id content parts).ids = id :: parts.flatMap ids := by
  simp only [ids, nodes, List.map_cons, List.map_flatMap]
  rfl

theorem id_mem_ids (v : GeneTerm) : v.id ∈ v.ids := by
  obtain ⟨id, content, parts⟩ := v
  simp [ids_node, GeneTerm.id]

theorem mem_nodes_self (v : GeneTerm) : (v.id, v.content) ∈ v.nodes := by
  obtain ⟨id, content, parts⟩ := v
  simp [nodes, GeneTerm.id, GeneTerm.content]

theorem mem_nodes_of_part {id : NodeId} {content : GeneNode} {parts : List GeneTerm} {v : GeneTerm}
    (hv : v ∈ parts) {e : NodeId × GeneNode} (he : e ∈ v.nodes) :
    e ∈ (node id content parts).nodes := by
  simp only [nodes, List.mem_cons, List.mem_flatMap]
  exact .inr ⟨v, hv, he⟩

theorem sublist_flatMap_ids {vs : List GeneTerm} {v : GeneTerm} (hv : v ∈ vs) :
    v.ids.Sublist (vs.flatMap ids) :=
  List.sublist_flatten_of_mem (List.mem_map_of_mem hv)

theorem height_lt_of_part (id : NodeId) (content : GeneNode) {parts : List GeneTerm} {v : GeneTerm}
    (hv : v ∈ parts) : v.height < (node id content parts).height := by
  simp only [height]
  induction parts with
  | nil => simp at hv
  | cons w ws ih =>
    simp only [List.map_cons, List.foldr_cons]
    rcases List.mem_cons.mp hv with rfl | hv
    · omega
    · have := ih hv
      omega

theorem height_le_of_parts {id : NodeId} {content : GeneNode} {parts : List GeneTerm} {d : Nat}
    (h : ∀ v ∈ parts, v.height ≤ d) : (node id content parts).height ≤ d + 1 := by
  simp only [height]
  induction parts with
  | nil => simp
  | cons w ws ih =>
    have hw := h w (by simp)
    have hws := ih fun v hv => h v (List.mem_cons_of_mem _ hv)
    simp only [List.map_cons, List.foldr_cons]
    omega

theorem height_le_length_ids (v : GeneTerm) : v.height ≤ v.ids.length := by
  induction v using induct with
  | node id content parts ih =>
    rw [ids_node, List.length_cons]
    refine height_le_of_parts fun v hv => (ih v hv).trans ?_
    exact (sublist_flatMap_ids hv).length_le

theorem mem_ids {v : GeneTerm} {x : NodeId} : x ∈ v.ids ↔ ∃ n, (x, n) ∈ v.nodes := by
  simp [ids]

theorem Shaped.part {id : NodeId} {content : GeneNode} {parts : List GeneTerm} {v : GeneTerm}
    (h : (node id content parts).Shaped) (hv : v ∈ parts) : v.Shaped := by
  rw [Shaped] at h
  exact (h.2 v hv).2

/-- The ids of several terms. -/
def allIds (vs : List GeneTerm) : List NodeId := vs.flatMap ids

theorem mem_allIds {vs : List GeneTerm} {x : NodeId} : x ∈ allIds vs ↔ ∃ v ∈ vs, x ∈ v.ids :=
  List.mem_flatMap

theorem id_notMem_allIds {id : NodeId} {content : GeneNode} {parts : List GeneTerm}
    (h : (node id content parts).ids.Nodup) : id ∉ allIds parts := by
  rw [ids_node, List.nodup_cons] at h
  exact h.1

theorem nodup_allIds {id : NodeId} {content : GeneNode} {parts : List GeneTerm}
    (h : (node id content parts).ids.Nodup) : (allIds parts).Nodup := by
  rw [ids_node, List.nodup_cons] at h
  exact h.2

end GeneTerm

open GeneTerm

namespace GeneTree

/-- Does a tree hold a term, with every node owned once inside it? -/
structure Holds (t : GeneTree) (v : GeneTerm) : Prop where
  kept : ∀ {e : NodeId × GeneNode}, e ∈ v.nodes → t.get? e.1 = some e.2
  shaped : v.Shaped
  distinct : v.ids.Nodup

/-- Does a tree hold several terms that share no node? -/
structure HoldsAll (t : GeneTree) (vs : List GeneTerm) : Prop where
  each : ∀ v ∈ vs, t.Holds v
  distinct : (allIds vs).Nodup

variable {t u : GeneTree} {v : GeneTerm} {vs : List GeneTerm}

theorem Holds.get?_id (h : t.Holds v) : t.get? v.id = some v.content := h.kept v.mem_nodes_self

theorem Holds.get?_node {id : NodeId} {content : GeneNode} {parts : List GeneTerm}
    (h : t.Holds (.node id content parts)) : t.get? id = some content := h.get?_id

theorem Holds.get?_of_mem {x : NodeId} (h : t.Holds v) (hx : x ∈ v.ids) :
    ∃ n, (x, n) ∈ v.nodes ∧ t.get? x = some n := by
  obtain ⟨n, hn⟩ := mem_ids.mp hx
  exact ⟨n, hn, h.kept hn⟩

theorem Holds.congr (h : t.Holds v) (hu : ∀ x ∈ v.ids, u.get? x = t.get? x) : u.Holds v := by
  refine ⟨fun {e} he => ?_, h.shaped, h.distinct⟩
  rw [hu e.1 (mem_ids.mpr ⟨e.2, he⟩)]
  exact h.kept he

theorem Holds.parts {id : NodeId} {content : GeneNode} {parts : List GeneTerm}
    (h : t.Holds (.node id content parts)) : t.HoldsAll parts where
  each _ hv := {
    kept := fun he => h.kept (mem_nodes_of_part hv he)
    shaped := h.shaped.part hv
    distinct := (nodup_allIds h.distinct).sublist (sublist_flatMap_ids hv) }
  distinct := nodup_allIds h.distinct

theorem Holds.holdsParts (h : t.Holds v) : t.HoldsAll v.parts := by
  obtain ⟨id, content, parts⟩ := v
  exact h.parts

theorem Holds.of_part {w : GeneTerm} (h : t.Holds v) (hw : w ∈ v.parts) : t.Holds w :=
  h.holdsParts.each w hw

theorem HoldsAll.nil (t : GeneTree) : t.HoldsAll [] := ⟨by simp, by simp [allIds]⟩

theorem HoldsAll.cons (hv : t.Holds v) (hvs : t.HoldsAll vs)
    (hdis : ∀ x ∈ v.ids, x ∉ allIds vs) : t.HoldsAll (v :: vs) where
  each w hw := by
    rcases List.mem_cons.mp hw with rfl | hw
    · exact hv
    · exact hvs.each w hw
  distinct := List.Nodup.append hv.distinct hvs.distinct hdis

theorem HoldsAll.head (h : t.HoldsAll (v :: vs)) : t.Holds v := h.each v (by simp)

theorem HoldsAll.tail (h : t.HoldsAll (v :: vs)) : t.HoldsAll vs where
  each w hw := h.each w (List.mem_cons_of_mem _ hw)
  distinct := (List.nodup_append.mp h.distinct).2.1

theorem HoldsAll.disjoint (h : t.HoldsAll (v :: vs)) {x : NodeId} (hx : x ∈ v.ids) :
    x ∉ allIds vs := fun hx' => (List.nodup_append.mp h.distinct).2.2 x hx x hx' rfl

theorem HoldsAll.nodup_map_id {vs : List GeneTerm} (hvs : t.HoldsAll vs) :
    (vs.map GeneTerm.id).Nodup := by
  refine List.pairwise_map.mpr ((List.nodup_flatMap.mp hvs.distinct).2.imp ?_)
  intro v w hvw he
  exact hvw v.id_mem_ids (he ▸ w.id_mem_ids)

/-- A node holds together with what it owns. -/
theorem Holds.node {id : NodeId} {content : GeneNode} {parts : List GeneTerm}
    (hid : t.get? id = some content) (hparts : t.HoldsAll parts)
    (howned : parts.map GeneTerm.id = content.gene.owned)
    (hparent : ∀ v ∈ parts, v.content.parent = some id) (hnot : id ∉ allIds parts) :
    t.Holds (.node id content parts) where
  kept {e} he := by
    simp only [nodes, List.mem_cons, List.mem_flatMap] at he
    rcases he with rfl | ⟨v, hv, he⟩
    · exact hid
    · exact (hparts.each v hv).kept he
  shaped := by
    rw [Shaped]
    exact ⟨howned, fun v hv => ⟨hparent v hv, (hparts.each v hv).shaped⟩⟩
  distinct := by
    rw [ids_node]
    exact List.nodup_cons.mpr ⟨hnot, hparts.distinct⟩

theorem length_le_size {ids : List NodeId} (hnd : ids.Nodup)
    (hlive : ∀ x ∈ ids, ∃ n, t.get? x = some n) : ids.length ≤ t.slots.size := by
  have hmap : (ids.map NodeId.index).Nodup :=
    hnd.map fun x y he => by cases x; cases y; exact congrArg NodeId.mk he
  have hsub : ids.map NodeId.index ⊆ List.range t.slots.size := by
    intro i hi
    obtain ⟨x, hx, rfl⟩ := List.mem_map.mp hi
    obtain ⟨n, hn⟩ := hlive x hx
    exact List.mem_range.mpr (lt_size_of_get? hn)
  simpa using (List.subperm_of_subset hmap hsub).length_le

/-- A term has no more nodes than its tree has slots. -/
theorem Holds.length_ids_le (h : t.Holds v) : v.ids.length ≤ t.slots.size := by
  refine length_le_size h.distinct fun x hx => ?_
  obtain ⟨n, -, hn⟩ := h.get?_of_mem hx
  exact ⟨n, hn⟩

theorem Holds.height_le_depthBound (h : t.Holds v) : v.height ≤ t.depthBound :=
  (v.height_le_length_ids.trans h.length_ids_le).trans (Nat.le_succ _)

end GeneTree
end CallEvolution
