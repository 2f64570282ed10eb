import CallEvolution.Calendar.Time
import CallEvolution.Number.Binary

/-!
Genes: the values that the nodes of a gene tree carry. A composite gene refers to the nodes below it
by id. The template of a collection is owned like a member, but is no part of the value.
-/

namespace CallEvolution

/-- The place of a node in its tree. -/
structure NodeId where
  index : Nat
  deriving DecidableEq, Hashable

instance : ToString NodeId := ⟨fun id => "#" ++ toString id.index⟩

/-- What kind of gene a node carries. -/
inductive Variant where
  | integer
  | long
  | float
  | double
  | boolean
  | string
  | choice
  | date
  | time
  | moment
  | base64
  | primaryKey
  | foreignKey
  | autoIncrement
  | immutableData
  | object
  | array
  | optional
  | map
  | cyclePlaceholder
  | limitPlaceholder
  deriving DecidableEq

namespace Variant

/-- All variants with their written names. -/
def names : List (String × Variant) :=
  [("Integer", integer), ("Long", long), ("Float", float), ("Double", double),
    ("Boolean", boolean), ("String", string), ("Enum", choice), ("Date", date), ("Time", time),
    ("DateTime", moment), ("Base64", base64), ("SqlPrimaryKey", primaryKey),
    ("SqlForeignKey", foreignKey), ("SqlAutoIncrement", autoIncrement),
    ("ImmutableData", immutableData), ("Object", object), ("Array", array),
    ("Optional", optional), ("Map", map), ("CyclePlaceholder", cyclePlaceholder),
    ("LimitPlaceholder", limitPlaceholder)]

def name (v : Variant) : String := ((names.find? fun n => n.2 = v).map (·.1)).getD ""

instance : ToString Variant := ⟨name⟩

/-- Does a gene of this variant stand for a part that was cut off? -/
def isPlaceholder (v : Variant) : Bool := v = cyclePlaceholder || v = limitPlaceholder

def isSqlKey (v : Variant) : Bool := v = primaryKey || v = foreignKey || v = autoIncrement

def isTemporal (v : Variant) : Bool := v = date || v = time || v = moment

end Variant

inductive Gene where
  | integer (value min max : Int32)
  | long (value min max : Int64)
  | float (value min max : Single)
  | double (value min max : Double)
  | boolean (value : Bool)
  | string (value : String) (minLength maxLength : Nat)
  /-- One of several texts, by position. -/
  | choice (values : List String) (index : Nat)
  | date (value : Date)
  | time (value : Time)
  | moment (value : Moment)
  /-- The base-64 form of the text below. -/
  | base64 (data : NodeId)
  | primaryKey (table : String) (gene : NodeId) (uniqueId : Nat)
  /-- A reference to a row of a table, assigned by repair and never by mutation. -/
  | foreignKey (targetTable : String) (value : Option Int64) (nullable : Bool)
  | autoIncrement
  /-- Data that exists already and must not be altered. -/
  | immutableData (value : String)
  | object (fields : List NodeId) (refType : Option String)
  | array (template : NodeId) (elements : List NodeId) (maxSize : Nat)
  | optional (gene : NodeId) (active : Bool)
  /-- Entries are keyed by the names of their nodes. -/
  | map (template : NodeId) (entries : List NodeId) (maxSize : Nat)
  /-- Stands for a field that would enter an object type a second time. -/
  | cyclePlaceholder
  /-- Stands for a part below the depth limit. -/
  | limitPlaceholder
  deriving DecidableEq

namespace Gene

def variant : Gene → Variant
  | integer .. => .integer
  | long .. => .long
  | float .. => .float
  | double .. => .double
  | boolean .. => .boolean
  | string .. => .string
  | choice .. => .choice
  | date .. => .date
  | time .. => .time
  | moment .. => .moment
  | base64 .. => .base64
  | primaryKey .. => .primaryKey
  | foreignKey .. => .foreignKey
  | autoIncrement => .autoIncrement
  | immutableData .. => .immutableData
  | object .. => .object
  | array .. => .array
  | optional .. => .optional
  | map .. => .map
  | cyclePlaceholder => .cyclePlaceholder
  | limitPlaceholder => .limitPlaceholder

/-- The nodes that make up the value, in order. -/
def children : Gene → List NodeId
  | base64 data => [data]
  | primaryKey _ gene _ => [gene]
  | object fields _ => fields
  | array _ elements _ => elements
  | optional gene _ => [gene]
  | map _ entries _ => entries
  | _ => []

/-- The nodes that belong to this one, templates included. -/
def owned : Gene → List NodeId
  | array template elements _ => template :: elements
  | map template entries _ => template :: entries
  | gene => gene.children

/-- Gives every owned node another id. -/
def rename (f : NodeId → NodeId) : Gene → Gene
  | base64 data => base64 (f data)
  | primaryKey table gene uniqueId => primaryKey table (f gene) uniqueId
  | object fields refType => object (fields.map f) refType
  | array template elements maxSize => array (f template) (elements.map f) maxSize
  | optional gene active => optional (f gene) active
  | map template entries maxSize => map (f template) (entries.map f) maxSize
  | gene => gene

/-- Equality of genes in which binary numbers are compared as numbers. -/
def same : Gene → Gene → Bool
  | float v l h, float w m i => v.same w && l.same m && h.same i
  | double v l h, double w m i => v.same w && l.same m && h.same i
  | a, b => decide (a = b)

end Gene

structure GeneNode where
  /-- The name of the field or parameter. -/
  name : String
  gene : Gene
  /-- The node that owns this one. -/
  parent : Option NodeId
  deriving DecidableEq

def GeneNode.variant (n : GeneNode) : Variant := n.gene.variant

end CallEvolution
