import CallEvolution.Gene.Tree

/-!
The pre-order of a gene tree: a node first, then what lies below its value children in order. Nodes
that are excluded are visited, but not entered. The same order is given by recursion and by a view
that keeps a stack of the nodes to come.
-/

namespace CallEvolution
namespace GeneTree

def preorderWithin (t : GeneTree) (exclude : GeneNode → Bool) : Nat → NodeId →
    List (NodeId × GeneNode)
  | 0, _ => []
  | depth + 1, id =>
    match t.get? id with
    | none => []
    | some n =>
      if exclude n then [(id, n)]
      else (id, n) :: n.gene.children.flatMap (t.preorderWithin exclude depth)

/-- The visits of a walk that starts at `id`; ids without a node are passed over. -/
def preorder (t : GeneTree) (id : NodeId) (exclude : GeneNode → Bool) : List (NodeId × GeneNode) :=
  t.preorderWithin exclude t.depthBound id

/-- How many visits a walk makes. -/
def visitsWithin (t : GeneTree) (exclude : GeneNode → Bool) : Nat → NodeId → Nat
  | 0, _ => 0
  | depth + 1, id =>
    match t.get? id with
    | none => 0
    | some n =>
      if exclude n then 1
      else (n.gene.children.map (t.visitsWithin exclude depth)).foldr (· + ·) 1

def visits (t : GeneTree) (exclude : GeneNode → Bool) (id : NodeId) : Nat :=
  t.visitsWithin exclude t.depthBound id

end GeneTree

/-- A walk that can be stopped and taken up again: the nodes to come, the next one in front. -/
structure Walk where
  tree : GeneTree
  stack : List NodeId
  exclude : GeneNode → Bool

namespace Walk

def start (t : GeneTree) (id : NodeId) (exclude : GeneNode → Bool) : Walk := ⟨t, [id], exclude⟩

/-- The first node of a stack that exists, and the stack behind it. -/
def pop? (t : GeneTree) : List NodeId → Option ((NodeId × GeneNode) × List NodeId)
  | [] => none
  | id :: stack =>
    match t.get? id with
    | some n => some ((id, n), stack)
    | none => pop? t stack

/-- The next visit. -/
def next? (v : Walk) : Option ((NodeId × GeneNode) × Walk) :=
  match pop? v.tree v.stack with
  | none => none
  | some ((id, n), stack) =>
    let below := if v.exclude n then [] else n.gene.children
    some ((id, n), { v with stack := below ++ stack })

/-- At most `count` visits, and the view behind them. -/
def take : Nat → Walk → List (NodeId × GeneNode) × Walk
  | 0, v => ([], v)
  | count + 1, v =>
    match v.next? with
    | none => ([], v)
    | some (visit, v) =>
      let (visits, v) := take count v
      (visit :: visits, v)

/-- All visits that are left. -/
def toList (v : Walk) : List (NodeId × GeneNode) :=
  (v.take ((v.stack.map (v.tree.visits v.exclude)).foldr (· + ·) 0)).1

end Walk
end CallEvolution
