import CallEvolution.Description.Member
import CallEvolution.Gene.Build
import CallEvolution.Gene.Codec

/-!
Short descriptions of gene trees, and of places in them.
-/

namespace CallEvolution

namespace GeneTree

open Description

/-- Gives the root another gene. -/
def withRoot (t : GeneTree) (f : Gene → Gene) : GeneTree :=
  t.modify t.root fun n => { n with gene := f n.gene }

/-- Replaces the value of the root if there is one to put in its place; bounds are not looked at. -/
def withValue {α : Type} (t : GeneTree) (j : Json) (read : Json → Option α)
    (put : Gene → α → Gene) : Described GeneTree := do
  match ← optionally .malformed j "value" read with
  | some v => return t.withRoot (put · v)
  | none => return t

/-- A number with bounds. A bound that is missing is the limit of the type; without bounds the gene
is a plain one. -/
def describedNumber {α : Type} (j : Json) (read : Json → Option α) (least greatest : α)
    (plain : GeneTree) (bounded : α → α → GeneTree) : Described GeneTree := do
  let min ← optionally .malformed j "min" read
  let max ← optionally .malformed j "max" read
  return if min.isNone && max.isNone then plain
    else bounded (min.getD least) (max.getD greatest)

/-- A binary number, bounded if both bounds are given. -/
def describedReal {α : Type} (j : Json) (read : Json → Option α) (plain : GeneTree)
    (bounded : α → α → Except Fault GeneTree) : Described GeneTree := do
  match ← optionally .malformed j "min" read, ← optionally .malformed j "max" read with
  | some min, some max => (bounded min max).mapError .fault
  | _, _ => return plain

/-- A text with or without bounds; there has to be room for the shortest one. -/
def describedText (name : String) (j : Json) : Described GeneTree := do
  let value ← optionally .malformed j "value" Json.text?
  let least ← optionally .malformed j "min_len" nat64?
  let most ← optionally .malformed j "max_len" nat64?
  match least, most, value with
  | none, none, none => return .string name
  | none, none, some v => return .stringWith name v
  | least, most, _ =>
    let (a, b) := (least.getD 0, most.getD defaultMaxLength)
    if textRoom ≤ min a b then throw (.fault .unboundedRoom)
    (stringIn name a b).withValue j Json.text? fun
      | .string _ min max, v => .string v min max
      | g, _ => g

def describedBase64 (name : String) (j : Json) : Described GeneTree := do
  let t := base64 name
  match ← optionally .malformed j "value" Json.text?, (t.children t.root).toOption with
  | some v, some [data] => return t.setGene data (.string v 0 defaultMaxLength)
  | _, _ => return t

/-- The genes without parts that are described themselves. -/
def describedLeaf (kind name : String) (j : Json) : Described GeneTree := do
  match kind with
  | "integer" =>
    let t ← describedNumber j Int32.ofJson? Int32.minValue Int32.maxValue (integer name)
      (integerIn name)
    t.withValue j Int32.ofJson? fun | .integer _ a b, v => .integer v a b | g, _ => g
  | "long" =>
    let t ← describedNumber j Int64.ofJson? Int64.minValue Int64.maxValue (long name) (longIn name)
    t.withValue j Int64.ofJson? fun | .long _ a b, v => .long v a b | g, _ => g
  | "float" =>
    let t ← describedReal j single? (float name) (floatIn name)
    t.withValue j single? fun | .float _ a b, v => .float v a b | g, _ => g
  | "double" =>
    let t ← describedReal j number? (double name) (doubleIn name)
    t.withValue j number? fun | .double _ a b, v => .double v a b | g, _ => g
  | "boolean" => (boolean name).withValue j Json.bool? fun _ v => .boolean v
  | "string" => describedText name j
  | "enum" =>
    let values ← withDefault .malformed j "values" [] (Json.listOf? Json.text?)
    (choice name values).withValue j nat64? fun _ i => .choice values i
  | "date" => (date name).withValue j Date.ofJson? fun _ v => .date v
  | "time" => (time name).withValue j Time.ofJson? fun _ v => .time v
  | "datetime" => (moment name).withValue j Moment.ofJson? fun _ v => .moment v
  | "base64" => describedBase64 name j
  | "fk" =>
    let table ← textOr j "table" ""
    let nullable ← withDefault .malformed j "nullable" false Json.bool?
    (foreignKey name table nullable).withValue j Int64.ofJson? fun _ v =>
      .foreignKey table (some v) nullable
  | "auto" => return .autoIncrement name
  | "cycle" => return .cyclePlaceholder name
  | "limit" => return .limitPlaceholder name
  | "immutable" =>
    return .immutable name ((← optionally .malformed j "value" Json.text?).getD "")
  | "raw" => orElse .unreadable ((given? j "tree").bind GeneTree.ofDump?)
  | _ => throw .malformed

/-- Parts of one tree have to be such that they can be joined. -/
def joinable (parts : List GeneTree) : Described Unit :=
  if canJoin parts then .ok () else .error (.fault .outOfRange)

/-- A collection with members; their number is not looked at. Members are entered in the JSON form of
the tree, so all numbers next to them have to be finite. -/
def describedMembers (t : GeneTree) (items : List GeneTree) : Described GeneTree := do
  if items.isEmpty then return t
  if !canGraftAll items t then throw (.fault .outOfRange)
  let (ids, t) := graftAll items t
  let filled := t.withRoot fun
    | .array template _ maxSize => .array template ids maxSize
    | .map template _ maxSize => .map template ids maxSize
    | g => g
  orElse .unreadable (ofDump? filled.dump)

def describedWithin : Nat → Json → Described GeneTree
  | 0, _ => throw .malformed
  | depth + 1, j => do
    let name ← textOr j "name" ""
    let kind ← needed .malformed j "k" Json.text?
    let inner (key : String) : Described GeneTree := do
      let t ← part j key (describedWithin depth)
      joinable [t]
      return t
    match kind with
    | "object" =>
      let fields ← parts j "fields" (describedWithin depth)
      joinable fields
      match ← optionally .malformed j "type" Json.text? with
      | some type => return .objectOf name type fields
      | none => return .object name fields
    | "array" | "map" =>
      let template ← inner "template"
      let maxSize ← withDefault .malformed j "max" 5 nat64?
      let t := if kind = "array" then .array name template maxSize else .map name template maxSize
      describedMembers t (← parts j "items" (describedWithin depth))
    | "optional" =>
      let active ← withDefault .malformed j "active" true Json.bool?
      return .optional name (← inner "gene") active
    | "pk" =>
      let table ← textOr j "table" ""
      let uniqueId ← withDefault .malformed j "uid" 1 nat64?
      return .primaryKey name table (← inner "gene") uniqueId
    | kind => describedLeaf kind name j

/-- How deep descriptions of genes may be nested. -/
def describedDepth : Nat := 128

/-- The gene tree of a description. -/
def ofDescription (j : Json) : Described GeneTree := describedWithin describedDepth j

/-- The node that one step leads to: a child by its position, or the template by `"t"`. -/
def next? (t : GeneTree) (id : NodeId) (step : Json) : Option NodeId := do
  let g ← (t.gene id).toOption
  match step, g with
  | .string "t", .array template _ _ | .string "t", .map template _ _ => some template
  | step, g => (nat64? step).bind fun i => g.children[i]?

/-- The node at the end of some steps. -/
def follow? (t : GeneTree) (id : NodeId) (steps : List Json) : Option NodeId :=
  steps.foldlM t.next? id

/-- The node that is meant by steps from the root or by an id, the root if nothing is said. -/
def locate? (t : GeneTree) : Option Json → Option NodeId
  | none | some .null => some t.root
  | some (.array steps) => t.follow? t.root steps
  | some j => NodeId.ofJson? j

end GeneTree
end CallEvolution
