import CallEvolution.Fault
import CallEvolution.Gene.Error

/-!
Gene trees: nodes in numbered slots. A freed slot is kept on a stack and handed out again first. Every
look at a tree goes through `get?`; a change of a node is seen at its own id only (`get?_modify_self`,
`get?_modify_of_ne`).
-/

namespace CallEvolution

structure GeneTree where
  slots : Array (Option GeneNode)
  /-- Freed slots, the one to be used next in front. -/
  free : List NodeId
  root : NodeId
  deriving DecidableEq

namespace GeneTree

/-- The node in a slot. -/
def get? (t : GeneTree) (id : NodeId) : Option GeneNode := (t.slots[id.index]?).join

def contains (t : GeneTree) (id : NodeId) : Bool := (t.get? id).isSome

/-- The ids of the filled slots, in their order. -/
def liveIds (t : GeneTree) : List NodeId :=
  ((List.range t.slots.size).map NodeId.mk).filter t.contains

/-- The number of nodes, templates included. -/
def size (t : GeneTree) : Nat := t.liveIds.length

def node (t : GeneTree) (id : NodeId) : Except GeneError GeneNode :=
  match t.get? id with
  | some n => .ok n
  | none => .error (.unknownNode id)

def gene (t : GeneTree) (id : NodeId) : Except GeneError Gene := (t.node id).map GeneNode.gene

def variant (t : GeneTree) (id : NodeId) : Except GeneError Variant :=
  (t.node id).map GeneNode.variant

def name (t : GeneTree) (id : NodeId) : Except GeneError String := (t.node id).map GeneNode.name

def children (t : GeneTree) (id : NodeId) : Except GeneError (List NodeId) :=
  (t.gene id).map Gene.children

/-- Fills a slot of the arena. -/
def place (t : GeneTree) (id : NodeId) (n : GeneNode) : GeneTree :=
  { t with slots := t.slots.setIfInBounds id.index (some n) }

/-- Changes a node, if there is one. -/
def modify (t : GeneTree) (id : NodeId) (f : GeneNode → GeneNode) : GeneTree :=
  match t.get? id with
  | some n => t.place id (f n)
  | none => t

def setGene (t : GeneTree) (id : NodeId) (g : Gene) : GeneTree :=
  t.modify id fun n => { n with gene := g }

theorem index_ne_of_ne {id other : NodeId} (h : other ≠ id) : id.index ≠ other.index := by
  obtain ⟨i⟩ := id
  obtain ⟨j⟩ := other
  simpa [eq_comm] using h

theorem lt_size_of_get? {t : GeneTree} {id : NodeId} {n : GeneNode} (h : t.get? id = some n) :
    id.index < t.slots.size := by
  refine Decidable.byContradiction fun hle => ?_
  simp [get?, Array.getElem?_eq_none (Nat.le_of_not_lt hle)] at h

theorem get?_place_self {t : GeneTree} {id : NodeId} (h : id.index < t.slots.size) (n : GeneNode) :
    (t.place id n).get? id = some n := by
  simp [get?, place, h]

theorem get?_place_of_ne {t : GeneTree} {id other : NodeId} (h : other ≠ id) (n : GeneNode) :
    (t.place id n).get? other = t.get? other := by
  simp [get?, place, Array.getElem?_setIfInBounds_ne (index_ne_of_ne h)]

theorem get?_modify_self (t : GeneTree) (id : NodeId) (f : GeneNode → GeneNode) :
    (t.modify id f).get? id = (t.get? id).map f := by
  unfold modify
  split
  · next h => simp [get?_place_self (lt_size_of_get? h), h]
  · next h => simp [h]

theorem get?_modify_of_ne {t : GeneTree} {id other : NodeId} (h : other ≠ id)
    (f : GeneNode → GeneNode) : (t.modify id f).get? other = t.get? other := by
  unfold modify
  split
  · exact get?_place_of_ne h _
  · rfl

/-- No path of owned nodes that visits each node once is longer. -/
def depthBound (t : GeneTree) : Nat := t.slots.size + 1

/-- No path of pairs of nodes of two trees that visits each pair once is longer. -/
def pairBound (t other : GeneTree) : Nat := t.depthBound * other.depthBound

/-- The field of an object with a given name. -/
def field (t : GeneTree) (object : NodeId) (name : String) : Except GeneError (Option NodeId) := do
  match ← t.gene object with
  | .object fields _ => fields.findM? fun f => return (← t.name f) == name
  | _ => return none

/-- The node below all optionals and primary keys, at most `depth` of them. -/
def coreNodeWithin (t : GeneTree) : Nat → NodeId → Except GeneError NodeId
  | 0, id => .error (.cyclicOwnership id)
  | depth + 1, id => do
    match ← t.gene id with
    | .optional gene _ | .primaryKey _ gene _ => t.coreNodeWithin depth gene
    | _ => return id

/-- The node that holds the value: the first below that is no optional and no primary key. -/
def coreNode (t : GeneTree) (id : NodeId) : Except GeneError NodeId :=
  t.coreNodeWithin t.depthBound id

def isMutableWithin (t : GeneTree) : Nat → NodeId → Except GeneError Bool
  | 0, id => .error (.cyclicOwnership id)
  | depth + 1, id => do
    match ← t.gene id with
    | .cyclePlaceholder | .limitPlaceholder | .autoIncrement | .foreignKey .. | .immutableData _ =>
      return false
    | .integer _ min max => return min < max
    | .long _ min max => return min < max
    | .float _ min max => return min < max
    | .double _ min max => return min < max
    | .string _ _ maxLength => return 0 < maxLength
    | .choice values _ => return 1 < values.length
    | .array _ _ maxSize | .map _ _ maxSize => return 0 < maxSize
    | .object fields _ => fields.anyM (t.isMutableWithin depth)
    | .optional gene _ | .primaryKey _ gene _ | .base64 gene => t.isMutableWithin depth gene
    | .boolean _ | .date _ | .time _ | .moment _ => return true

/-- Can a mutation change the value? -/
def isMutable (t : GeneTree) (id : NodeId) : Except GeneError Bool :=
  t.isMutableWithin t.depthBound id

/-- The part that a node adds to the path of a field: optionals, primary keys and texts in base 64
stand for the node below them, and elements of arrays have no name. -/
def pathPart (n : GeneNode) (owner : Option Gene) : List String :=
  match owner with
  | some (.optional ..) | some (.primaryKey ..) | some (.base64 _) => []
  | some (.array ..) => ["[*]"]
  | _ => [n.name]

/-- The parts of the path to a node, its own part first. -/
def pathWithin (t : GeneTree) : Nat → NodeId → Except GeneError (List String)
  | 0, id => .error (.cyclicOwnership id)
  | depth + 1, id => do
    let n ← t.node id
    match n.parent with
    | none => return pathPart n none
    | some p => return pathPart n (some (← t.gene p)) ++ (← t.pathWithin depth p)

/-- The names on the way from the root to a node, which identify it in all trees of its structure. -/
def pathOf (t : GeneTree) (id : NodeId) : Except GeneError String := do
  return "/".intercalate (← t.pathWithin t.depthBound id).reverse

end GeneTree

/-- Steps that may change a gene tree. The tree that a failing step leaves behind is kept. -/
abbrev Edit := ExceptT GeneError (StateT GeneTree (Except Fault))

namespace Edit

/-- Looks at the tree. -/
def query {α : Type} (q : GeneTree → Except GeneError α) : Edit α := do
  ExceptT.mk (return q (← get))

def update (f : GeneTree → GeneTree) : Edit Unit := modify f

def fault {α : Type} (f : Fault) : Edit α := ExceptT.mk fun _ => .error f

/-- Puts another gene of the same variant into a leaf. -/
def setLeaf (id : NodeId) (g : Gene) : Edit Unit := do
  let n ← query (·.node id)
  if n.variant ≠ g.variant then
    throw (.variantMismatch n.variant g.variant)
  if !n.gene.owned.isEmpty || !g.owned.isEmpty then
    throw (.shapeMismatch n.name)
  update (·.setGene id g)

def setActive (id : NodeId) (on : Bool) : Edit Unit := do
  let n ← query (·.node id)
  match n.gene with
  | .optional gene _ => update (·.setGene id (.optional gene on))
  | g => throw (.variantMismatch .optional g.variant)

/-- Replaces the members of a collection. -/
def setMembers (id : NodeId) (items : List NodeId) : Edit Unit := do
  let n ← query (·.node id)
  let check (maxSize : Nat) : Edit Unit := do
    if maxSize < items.length then throw (.tooManyMembers n.name items.length maxSize)
  match n.gene with
  | .array template _ maxSize => do
    check maxSize
    update (·.setGene id (.array template items maxSize))
  | .map template _ maxSize => do
    check maxSize
    update (·.setGene id (.map template items maxSize))
  | g => throw (.variantMismatch .array g.variant)

end Edit
end CallEvolution
