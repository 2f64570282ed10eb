import CallEvolution.Gene.Tree

/-!
Moving parts of trees. A part is copied into a tree of its own, numbered from its root on; a tree is
grafted onto another one, its nodes taking freed slots first; a part that nobody owns is released.
-/

namespace CallEvolution
namespace GeneTree

/-- The ids of a node and all that it owns: the node first, then the last owned node with all its
own, and so on to the first. -/
def ownedFrom (t : GeneTree) : Nat → NodeId → Except GeneError (List NodeId)
  | 0, id => .error (.cyclicOwnership id)
  | depth + 1, id => do
    let g ← t.gene id
    let below ← g.owned.reverse.mapM (t.ownedFrom depth)
    return id :: below.flatten

def ownedIds (t : GeneTree) (id : NodeId) : Except GeneError (List NodeId) :=
  t.ownedFrom t.depthBound id

/-- The position of an id in a list; an id that is not there keeps its number. -/
def positionIn (ids : List NodeId) (id : NodeId) : NodeId :=
  match ids.findIdx? (· = id) with
  | some i => ⟨i⟩
  | none => id

/-- A tree of its own that holds a copy of a node and all that it owns. -/
def extract (t : GeneTree) (id : NodeId) : Except GeneError GeneTree := do
  let ids ← t.ownedIds id
  let nodes ← ids.mapM fun old => do
    let n ← t.node old
    return some
      { n with
        gene := n.gene.rename (positionIn ids)
        parent := if old = id then none else n.parent.map (positionIn ids) }
  return { slots := nodes.toArray, free := [], root := ⟨0⟩ }

/-- Takes a slot: the one freed last, or a new one. -/
def takeSlot (t : GeneTree) : NodeId × GeneTree :=
  match t.free with
  | id :: free => (id, { t with free })
  | [] => (⟨t.slots.size⟩, { t with slots := t.slots.push none })

/-- Takes a slot for each id of another tree. -/
def takeSlots : List NodeId → GeneTree → List (NodeId × NodeId) × GeneTree
  | [], t => ([], t)
  | old :: rest, t =>
    let (new, t) := t.takeSlot
    let (newIds, t) := takeSlots rest t
    ((old, new) :: newIds, t)

/-- The new id of a node; one that has none keeps its number. -/
def renamed (newIds : List (NodeId × NodeId)) (id : NodeId) : NodeId :=
  (newIds.lookup id).getD id

/-- A node of another tree with its new neighbours. -/
def carryOver (newIds : List (NodeId × NodeId)) (n : GeneNode) : GeneNode :=
  { n with
    gene := n.gene.rename (renamed newIds)
    parent := n.parent.map (renamed newIds) }

/-- Fills the slots that were taken for the nodes of `other`. -/
def placeAll (other : GeneTree) (newIds : List (NodeId × NodeId)) (t : GeneTree) : GeneTree :=
  newIds.foldl
    (fun t (old, new) =>
      match other.get? old with
      | some n => t.place new (carryOver newIds n)
      | none => t)
    t

/-- Moves all nodes of `other` into this tree, with its root below `parent`. -/
def graft (t other : GeneTree) (parent : Option NodeId) : NodeId × GeneTree :=
  let (newIds, t) := takeSlots other.liveIds t
  let root := renamed newIds other.root
  (root, (placeAll other newIds t).modify root fun n => { n with parent })

/-- Does a graft stay inside the arena? It does if the freed slots exist and `other` has a root. -/
def canGraft (t other : GeneTree) : Bool :=
  let (newIds, t) := takeSlots other.liveIds t
  newIds.all (fun r => r.2.index < t.slots.size) &&
    (renamed newIds other.root).index < t.slots.size

/-- Empties a slot. -/
def freeSlot (t : GeneTree) (id : NodeId) : GeneTree :=
  { t with slots := t.slots.setIfInBounds id.index none, free := id :: t.free }

theorem get?_freeSlot_self (t : GeneTree) (id : NodeId) : (t.freeSlot id).get? id = none := by
  simp only [get?, freeSlot, Array.getElem?_setIfInBounds]
  split
  · split <;> rfl
  · contradiction

theorem get?_freeSlot_of_ne {t : GeneTree} {id other : NodeId} (h : other ≠ id) :
    (t.freeSlot id).get? other = t.get? other := by
  simp [get?, freeSlot, Array.getElem?_setIfInBounds_ne (index_ne_of_ne h)]

/-- Taking a slot fills none. -/
theorem get?_takeSlot (t : GeneTree) (id : NodeId) : t.takeSlot.2.get? id = t.get? id := by
  unfold takeSlot
  split
  · rfl
  · simp only [get?, Array.getElem?_push]
    split
    · next h => simp [h]
    · rfl

end GeneTree

namespace Edit

def graft (other : GeneTree) (parent : Option NodeId) : Edit NodeId := do
  let t ← get
  if t.canGraft other then
    let (id, t) := t.graft other parent
    set t
    return id
  else fault .outOfRange

/-- Copies a node of another tree, with all that it owns, below `parent`. -/
def transplant (src : GeneTree) (id : NodeId) (parent : Option NodeId) : Edit NodeId := do
  let copy ← query fun _ => src.extract id
  graft copy parent

/-- Frees a node and all that it owns. -/
def release (id : NodeId) : Edit Unit := do
  let ids ← query (·.ownedIds id)
  update fun t => ids.foldl GeneTree.freeSlot t

def releaseAll (ids : List NodeId) : Edit Unit := ids.forM release

end Edit
end CallEvolution
