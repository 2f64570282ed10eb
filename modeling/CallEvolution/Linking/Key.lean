import CallEvolution.Gene.Traversal
import CallEvolution.Linking.Name

/-!
Keys under which the genes of a parameter are found. Names such as `id` say nothing without the object
around them, so they are qualified by it.
-/

namespace CallEvolution.Matching

def objectAroundWithin (t : GeneTree) : Nat → NodeId → Except GeneError (Option NodeId)
  | 0, id => .error (.cyclicOwnership id)
  | depth + 1, id => do
    match (← t.node id).parent with
    | none => return none
    | some p =>
      if (← t.variant p) = .object then return some p else objectAroundWithin t depth p

/-- The nearest object above a node. -/
def objectAround (t : GeneTree) (id : NodeId) : Except GeneError (Option NodeId) :=
  objectAroundWithin t t.depthBound id

/-- The name of a field, with its object in front if it says nothing alone. -/
def qualifiedName (t : GeneTree) (object field : NodeId) : Except GeneError String := do
  let name ← t.name field
  if !isGeneral name then return name
  match ← t.gene object with
  | .object _ (some type) => return type ++ name
  | _ => return (← t.name object) ++ name

/-- What the object around a node puts in front of its name. An untyped root puts nothing. -/
def objectQualifier (t : GeneTree) (id : NodeId) : Except GeneError (List String) := do
  match ← objectAround t id with
  | none => return []
  | some object =>
    match ← t.gene object with
    | .object _ (some type) => return [type]
    | _ => if object = t.root then return [] else return [← t.name object]

/-- The keys under which a node can be found, most specific first. -/
def nodeKeys (t : GeneTree) (tokens : List String) (id : NodeId) (n : GeneNode) :
    Except GeneError (List String) := do
  if !isGeneral n.name then return [n.name]
  let qualifiers := (← objectQualifier t id) ++ tokens
  return if qualifiers.isEmpty then [n.name] else qualifiers.map (· ++ n.name)

/-- Is the node a value of its own, and no placeholder? -/
def isValueGene (v : Variant) : Bool :=
  !v.isPlaceholder && v ≠ .object && v ≠ .optional && v ≠ .primaryKey

/-- Are the nodes below one of this variant left out? -/
def isClosed (v : Variant) : Bool := v = .array || v = .map || v = .base64

/-- Adds keys for a node; a key that is taken stays with its node. -/
def claimKeys (id : NodeId) (claimed : List (String × NodeId)) (keys : List String) :
    List (String × NodeId) :=
  keys.foldl
    (fun claimed key => if claimed.any (·.1 = key) then claimed else claimed ++ [(key, id)])
    claimed

def claimAll (t : GeneTree) (tokens : List String) :
    List (String × NodeId) → List (NodeId × GeneNode) → Except GeneError (List (String × NodeId))
  | claimed, [] => return claimed
  | claimed, (id, n) :: rest => do
    if isValueGene n.variant then
      claimAll t tokens (claimKeys id claimed (← nodeKeys t tokens id n)) rest
    else claimAll t tokens claimed rest

/-- Keys for the value genes of a parameter, collections left closed. General names are qualified by
the object around them and then by each token; the first node in pre-order keeps a key. -/
def keyTable (t : GeneTree) (tokens : List String) : Except GeneError (List (String × NodeId)) :=
  claimAll t tokens [] (t.preorder t.root fun n => isClosed n.variant)

end CallEvolution.Matching
