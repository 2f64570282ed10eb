import CallEvolution.Gene.Subtree

/-!
Copying a value into a gene of the same variant. The whole source is checked against the target
before anything is written, collections by way of their template, so a refused copy changes nothing.
-/

namespace CallEvolution
namespace GeneTree

def within {α : Type} [LE α] [DecidableLE α] (value low high : α) : Bool :=
  low ≤ value && value ≤ high

def requireBounds (name : String) (ok : Bool) : Except GeneError Unit :=
  if ok then .ok () else .error (.outOfBounds name)

/-- Checks pairs in order. -/
def checkPairs (check : NodeId → NodeId → Except GeneError Unit) :
    List (NodeId × NodeId) → Except GeneError Unit
  | [] => return
  | (x, y) :: rest => do
    check x y
    checkPairs check rest

/-- Checks that the members of a collection fit its template and its size. -/
def checkMembers (check : NodeId → NodeId → Except GeneError Unit) (name : String)
    (template : NodeId) (maxSize : Nat) (members : List NodeId) : Except GeneError Unit :=
  if maxSize < members.length then throw (.tooManyMembers name members.length maxSize)
  else checkPairs check (members.map (template, ·))

/-- Checks whether a gene can take over the value of another one of its variant; `check` goes on below. -/
def assessGenes (check : NodeId → NodeId → Except GeneError Unit) (name : String) :
    Gene → Gene → Except GeneError Unit
  | .object xs _, .object ys _ =>
    if xs.length ≠ ys.length then throw (.shapeMismatch name) else checkPairs check (xs.zip ys)
  | .array template _ maxSize, .array _ members _
  | .map template _ maxSize, .map _ members _ => checkMembers check name template maxSize members
  | .choice values _, .choice theirValues index =>
    match theirValues[index]? with
    | some value => if values.contains value then return else throw (.shapeMismatch name)
    | none => throw (.shapeMismatch name)
  | .integer _ min max, .integer value _ _ => requireBounds name (within value min max)
  | .long _ min max, .long value _ _ => requireBounds name (within value min max)
  | .float _ min max, .float value _ _ => requireBounds name (within value min max)
  | .double _ min max, .double value _ _ => requireBounds name (within value min max)
  | .string _ min max, .string value _ _ => requireBounds name (within value.length min max)
  | .optional x _, .optional y _
  | .primaryKey _ x _, .primaryKey _ y _
  | .base64 x, .base64 y => check x y
  | _, _ => return

def assessCopyWithin (t src : GeneTree) : Nat → NodeId → NodeId → Except GeneError Unit
  | 0, id, _ => .error (.cyclicOwnership id)
  | depth + 1, id, srcId => do
    let mine ← t.node id
    let theirs ← src.node srcId
    if mine.variant ≠ theirs.variant then throw (.variantMismatch mine.variant theirs.variant)
    else assessGenes (assessCopyWithin t src depth) mine.name mine.gene theirs.gene

/-- Can the value of a node be copied to a node of this tree? -/
def assessCopy (t : GeneTree) (id : NodeId) (src : GeneTree) (srcId : NodeId) :
    Except GeneError Unit :=
  assessCopyWithin t src (t.pairBound src) id srcId

/-- The target gene with the source's own value; what lies below is left as it is. -/
def takeValue : Gene → Gene → Gene
  | .integer _ min max, .integer value _ _ => .integer value min max
  | .long _ min max, .long value _ _ => .long value min max
  | .float _ min max, .float value _ _ => .float value min max
  | .double _ min max, .double value _ _ => .double value min max
  | .boolean _, .boolean value => .boolean value
  | .string _ min max, .string value _ _ => .string value min max
  | .immutableData _, .immutableData value => .immutableData value
  | .choice values index, .choice theirs theirIndex =>
    match theirs[theirIndex]?.bind fun value => values.findIdx? (· = value) with
    | some position => .choice values position
    | none => .choice values index
  | .date _, .date value => .date value
  | .time _, .time value => .time value
  | .moment _, .moment value => .moment value
  | .foreignKey table _ nullable, .foreignKey _ value _ => .foreignKey table value nullable
  | .optional gene _, .optional _ active => .optional gene active
  | mine, _ => mine

/-- The pairs of nodes through which a copy goes on, collections apart. -/
def copyPairs : Gene → Gene → List (NodeId × NodeId)
  | .object xs _, .object ys _ => xs.zip ys
  | .optional x _, .optional y _ => [(x, y)]
  | .primaryKey _ x _, .primaryKey _ y _ => [(x, y)]
  | .base64 x, .base64 y => [(x, y)]
  | _, _ => []

end GeneTree

namespace Edit

/-- Releases the members of a collection and imports others in their place. -/
def replaceMembers (id : NodeId) (old : List NodeId) (src : GeneTree) (new : List NodeId) :
    Edit Unit := do
  releaseAll old
  let items ← new.mapM fun e => transplant src e (some id)
  setMembers id items

/-- Copies pairs in order. -/
def copyEach (copy : NodeId → NodeId → Edit Unit) : List (NodeId × NodeId) → Edit Unit
  | [] => return
  | (x, y) :: rest => do
    copy x y
    copyEach copy rest

def writeCopyWithin (src : GeneTree) : Nat → NodeId → NodeId → Edit Unit
  | 0, id, _ => throw (.cyclicOwnership id)
  | depth + 1, id, srcId => do
    let theirs ← query fun _ => src.gene srcId
    let mine ← query (·.gene id)
    update (·.setGene id (GeneTree.takeValue mine theirs))
    match mine, theirs with
    | .array _ old _, .array _ new _
    | .map _ old _, .map _ new _ => replaceMembers id old src new
    | _, _ => copyEach (writeCopyWithin src depth) (GeneTree.copyPairs mine theirs)

/-- Makes the value at `id` equal to the value at `srcId` of another tree. -/
def copyFrom (id : NodeId) (src : GeneTree) (srcId : NodeId) : Edit Unit := do
  query (·.assessCopy id src srcId)
  let t ← get
  writeCopyWithin src (t.pairBound src) id srcId

end Edit
end CallEvolution
