import CallEvolution.Gene.Tree

/-!
Equality of values. Genes of different variants cannot be compared; bounds, ids and templates do not
count, entries of maps are compared with their keys, choices by text, and what an inactive optional
hides is not looked at.
-/

namespace CallEvolution
namespace GeneTree

/-- What the equality of two genes hangs on. -/
inductive Comparison where
  | decided (equal : Bool)
  | pairs (nodes : List (NodeId × NodeId))

/-- Members are compared in pairs, provided there are as many on both sides. -/
def memberPairs (xs ys : List NodeId) : Comparison :=
  if xs.length = ys.length then .pairs (xs.zip ys) else .decided false

/-- Do the entries of two maps carry the same keys, one by one? -/
def sameKeys (t other : GeneTree) : List (NodeId × NodeId) → Except GeneError Bool
  | [] => return true
  | (x, y) :: rest => do
    if (← t.name x) ≠ (← other.name y) then return false
    sameKeys t other rest

def comparison (t other : GeneTree) : Gene → Gene → Except GeneError Comparison
  | .integer x _ _, .integer y _ _ => return .decided (x == y)
  | .long x _ _, .long y _ _ => return .decided (x == y)
  | .float x _ _, .float y _ _ => return .decided (x.same y)
  | .double x _ _, .double y _ _ => return .decided (x.same y)
  | .boolean x, .boolean y => return .decided (x == y)
  | .string x _ _, .string y _ _ => return .decided (x == y)
  | .immutableData x, .immutableData y => return .decided (x == y)
  | .choice xs x, .choice ys y => return .decided (xs[x]? == ys[y]?)
  | .date x, .date y => return .decided (x == y)
  | .time x, .time y => return .decided (x == y)
  | .moment x, .moment y => return .decided (x == y)
  | .foreignKey _ x _, .foreignKey _ y _ => return .decided (x == y)
  | .optional x active, .optional y active' =>
    if active ≠ active' then return .decided false
    else if !active then return .decided true
    else return .pairs [(x, y)]
  | .map _ xs _, .map _ ys _ => do
    if xs.length ≠ ys.length then return .decided false
    if ← sameKeys t other (xs.zip ys) then return .pairs (xs.zip ys) else return .decided false
  | x, y => return memberPairs x.children y.children

/-- Do all pairs compare equal? Pairs behind a difference are not looked at. -/
def allPairs (compare : NodeId → NodeId → Except GeneError Bool) :
    List (NodeId × NodeId) → Except GeneError Bool
  | [] => return true
  | (x, y) :: rest => do
    if ← compare x y then allPairs compare rest else return false

def sameValueWithin (t other : GeneTree) : Nat → NodeId → NodeId → Except GeneError Bool
  | 0, id, _ => .error (.cyclicOwnership id)
  | depth + 1, id, otherId => do
    let x ← t.gene id
    let y ← other.gene otherId
    if x.variant ≠ y.variant then throw (.variantMismatch x.variant y.variant)
    match ← comparison t other x y with
    | .decided equal => return equal
    | .pairs nodes => allPairs (sameValueWithin t other depth) nodes

/-- Does a node hold the same value as one of another tree? -/
def sameValue (t : GeneTree) (id : NodeId) (other : GeneTree) (otherId : NodeId) :
    Except GeneError Bool :=
  sameValueWithin t other (t.pairBound other) id otherId

end GeneTree
end CallEvolution
