import CallEvolution.Gene.Subtree

/-!
Building gene trees. Bounds given in the wrong order are swapped, and a number starts at the point of
its range that is nearest to zero. A composite tree has its root in slot zero and its parts grafted
behind it in order.
-/

namespace CallEvolution
namespace GeneTree

def leaf (name : String) (g : Gene) : GeneTree where
  slots := #[some { name, gene := g, parent := none }]
  free := []
  root := ⟨0⟩

/-- Grafts trees below the root of `t`, in order. -/
def graftAll : List GeneTree → GeneTree → List NodeId × GeneTree
  | [], t => ([], t)
  | part :: parts, t =>
    let (id, t) := t.graft part (some t.root)
    let (ids, t) := graftAll parts t
    (id :: ids, t)

/-- Does grafting trees in order stay inside the arena? -/
def canGraftAll : List GeneTree → GeneTree → Bool
  | [], _ => true
  | part :: parts, t => t.canGraft part && canGraftAll parts (t.graft part (some t.root)).2

/-- Can trees become the parts of one? -/
def canJoin (parts : List GeneTree) : Bool := canGraftAll parts (leaf "" .limitPlaceholder)

/-- A tree whose root is made from the ids of its parts. -/
def composite (name : String) (parts : List GeneTree) (make : List NodeId → Gene) : GeneTree :=
  let (ids, t) := graftAll parts (leaf name .limitPlaceholder)
  t.setGene t.root (make ids)

/-- A tree whose root wraps one part. -/
def wrapper (name : String) (part : GeneTree) (make : NodeId → Gene) : GeneTree :=
  let t := leaf name .limitPlaceholder
  let (id, t) := t.graft part (some t.root)
  t.setGene t.root (make id)

def ordered {α : Type} [LE α] [DecidableLE α] (a b : α) : α × α := if a ≤ b then (a, b) else (b, a)

/-- The whole number of `[low, high]` nearest to zero. -/
def nearestToZero (low high : Int) : Int := if 0 < low then low else if high < 0 then high else 0

def integerIn (name : String) (a b : Int32) : GeneTree :=
  let (low, high) := ordered a b
  leaf name (.integer (.ofInt (nearestToZero low.toInt high.toInt)) low high)

def integer (name : String) : GeneTree := integerIn name Int32.minValue Int32.maxValue

def longIn (name : String) (a b : Int64) : GeneTree :=
  let (low, high) := ordered a b
  leaf name (.long (.ofInt (nearestToZero low.toInt high.toInt)) low high)

def long (name : String) : GeneTree := longIn name Int64.minValue Int64.maxValue

/-- A bound that is no number is refused. -/
def floatIn (name : String) (a b : Single) : Except Fault GeneTree :=
  let (low, high) := ordered a b
  if low ≤ high then .ok (leaf name (.float (Binary.clamp 0 low high) low high))
  else .error .unorderedBounds

def float (name : String) : GeneTree := leaf name (.float 0 (-1000000) 1000000)

/-- A bound that is no number is refused. -/
def doubleIn (name : String) (a b : Double) : Except Fault GeneTree :=
  let (low, high) := ordered a b
  if low ≤ high then .ok (leaf name (.double (Binary.clamp 0 low high) low high))
  else .error .unorderedBounds

def double (name : String) : GeneTree := leaf name (.double 0 (-1000000) 1000000)

def boolean (name : String) : GeneTree := leaf name (.boolean false)

/-- The length up to which a text without bounds of its own may grow. -/
def defaultMaxLength : Nat := 16

def stringIn (name : String) (a b : Nat) : GeneTree :=
  let (low, high) := ordered a b
  leaf name (.string ("".pushn 'a' low) low high)

def string (name : String) : GeneTree := stringIn name 0 defaultMaxLength

/-- A text gene that holds `value`, with bounds that admit it. -/
def stringWith (name value : String) : GeneTree :=
  leaf name (.string value 0 (max value.length defaultMaxLength))

def choice (name : String) (values : List String) : GeneTree := leaf name (.choice values 0)

def date (name : String) : GeneTree := leaf name (.date .epoch)

def time (name : String) : GeneTree := leaf name (.time .midnight)

def moment (name : String) : GeneTree := leaf name (.moment .epoch)

def base64 (name : String) : GeneTree := wrapper name (string "data") .base64

def object (name : String) (fields : List GeneTree) : GeneTree :=
  composite name fields (.object · none)

/-- An object that is tagged with the type it was built from. -/
def objectOf (name refType : String) (fields : List GeneTree) : GeneTree :=
  composite name fields (.object · (some refType))

/-- An empty array whose elements are copies of `template`. -/
def array (name : String) (template : GeneTree) (maxSize : Nat) : GeneTree :=
  wrapper name template (.array · [] maxSize)

def optional (name : String) (inner : GeneTree) (active : Bool) : GeneTree :=
  wrapper name inner (.optional · active)

/-- An empty map whose entries are copies of `template`. -/
def map (name : String) (template : GeneTree) (maxSize : Nat) : GeneTree :=
  wrapper name template (.map · [] maxSize)

def primaryKey (name table : String) (inner : GeneTree) (uniqueId : Nat) : GeneTree :=
  wrapper name inner (.primaryKey table · uniqueId)

def foreignKey (name targetTable : String) (nullable : Bool) : GeneTree :=
  leaf name (.foreignKey targetTable none nullable)

def autoIncrement (name : String) : GeneTree := leaf name .autoIncrement

def immutable (name value : String) : GeneTree := leaf name (.immutableData value)

def cyclePlaceholder (name : String) : GeneTree := leaf name .cyclePlaceholder

def limitPlaceholder (name : String) : GeneTree := leaf name .limitPlaceholder

end GeneTree
end CallEvolution
