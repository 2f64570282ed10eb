import CallEvolution.Calendar.Text
import CallEvolution.Gene.MutationSettings
import CallEvolution.Gene.Schema
import CallEvolution.Json.Record

/-!
The JSON forms of gene trees, of declared types and of mutation settings.
-/

namespace CallEvolution

open Json (Record)

namespace NodeId

def toJson (id : NodeId) : Json := .ofNat id.index

def ofJson? (j : Json) : Option NodeId := (j.nat? 32).map NodeId.mk

end NodeId

def Variant.ofJson? : Json → Option Variant := Json.oneOf? Variant.names

/-- A number of the 32-bit format: a whole number is rounded once, any other one from its 64 bits. -/
def Single.ofJson? : Json → Option Single
  | .integer n => some (Binary.ofInt n)
  | j => j.double?.map Binary.convert

def Single.toJson (x : Single) : Json := .ofDouble x.convert

def Int32.ofJson? (j : Json) : Option Int32 :=
  (j.integer? Int32.minValue.toInt Int32.maxValue.toInt).map Int32.ofInt

def Int64.ofJson? (j : Json) : Option Int64 :=
  (j.integer? Int64.minValue.toInt Int64.maxValue.toInt).map Int64.ofInt

def Date.ofJson? (j : Json) : Option Date := j.text?.bind (Calendar.date? .everywhere)

def Time.ofJson? (j : Json) : Option Time := j.text?.bind Calendar.shortTime?

def Moment.ofJson? (j : Json) : Option Moment := j.text?.bind (Calendar.moment? .everywhere)

namespace Gene

/-- Value and bounds of a number. -/
def boundedJson {α : Type} (f : α → Json) (value min max : α) : Json :=
  .object [("value", f value), ("min", f min), ("max", f max)]

def tag (v : Variant) (j : Json) : Json := .object [(v.name, j)]

def toJson (g : Gene) : Json :=
  match g with
  | integer value min max => tag g.variant (boundedJson (.integer ·.toInt) value min max)
  | long value min max => tag g.variant (boundedJson (.integer ·.toInt) value min max)
  | float value min max => tag g.variant (boundedJson Single.toJson value min max)
  | double value min max => tag g.variant (boundedJson .ofDouble value min max)
  | boolean value => tag g.variant (.bool value)
  | string value min max =>
    tag g.variant (.object [("value", .string value), ("min_len", .ofNat min),
      ("max_len", .ofNat max)])
  | choice values index =>
    tag g.variant (.object [("values", .ofList .string values), ("index", .ofNat index)])
  | date value => tag g.variant (.string (Calendar.dateText value))
  | time value => tag g.variant (.string (Calendar.fullTimeText value))
  | moment value => tag g.variant (.string (Calendar.fullMomentText value))
  | base64 data => tag g.variant (.object [("data", data.toJson)])
  | primaryKey table gene uniqueId =>
    tag g.variant (.object [("table", .string table), ("gene", gene.toJson),
      ("unique_id", .ofNat uniqueId)])
  | foreignKey table value nullable =>
    tag g.variant (.object [("target_table", .string table),
      ("value", .ofOption (.integer ·.toInt) value), ("nullable", .bool nullable)])
  | immutableData value => tag g.variant (.object [("value", .string value)])
  | object fields refType =>
    tag g.variant (.object [("fields", .ofList NodeId.toJson fields),
      ("ref_type", .ofOption .string refType)])
  | array template elements maxSize =>
    tag g.variant (.object [("template", template.toJson),
      ("elements", .ofList NodeId.toJson elements), ("max_size", .ofNat maxSize)])
  | optional gene active =>
    tag g.variant (.object [("gene", gene.toJson), ("active", .bool active)])
  | map template entries maxSize =>
    tag g.variant (.object [("template", template.toJson),
      ("entries", .ofList NodeId.toJson entries), ("max_size", .ofNat maxSize)])
  | autoIncrement | cyclePlaceholder | limitPlaceholder => .string g.variant.name

/-- Value and bounds of a number. -/
def ofBounded? {α : Type} (f : Json → Option α) (make : α → α → α → Gene) (j : Option Json) :
    Option Gene := do
  let r ← Record.ofTag? ["value", "min", "max"] j
  return make (← r.required "value" f) (← r.required "min" f) (← r.required "max" f)

/-- A gene of a variant from what its tag carries. -/
def ofTag? (v : Variant) (j : Option Json) : Option Gene :=
  match v with
  | .integer => ofBounded? Int32.ofJson? integer j
  | .long => ofBounded? Int64.ofJson? long j
  | .float => ofBounded? Single.ofJson? float j
  | .double => ofBounded? Json.double? double j
  | .boolean => (j.bind Json.bool?).map boolean
  | .string => do
    let r ← Record.ofTag? ["value", "min_len", "max_len"] j
    return string (← r.required "value" Json.text?) (← r.required "min_len" (Json.nat? 64))
      (← r.required "max_len" (Json.nat? 64))
  | .choice => do
    let r ← Record.ofTag? ["values", "index"] j
    return choice (← r.required "values" (Json.listOf? Json.text?))
      (← r.required "index" (Json.nat? 64))
  | .date => (j.bind Date.ofJson?).map date
  | .time => (j.bind Time.ofJson?).map time
  | .moment => (j.bind Moment.ofJson?).map moment
  | .base64 => do
    let r ← Record.ofTag? ["data"] j
    return base64 (← r.required "data" NodeId.ofJson?)
  | .primaryKey => do
    let r ← Record.ofTag? ["table", "gene", "unique_id"] j
    return primaryKey (← r.required "table" Json.text?) (← r.required "gene" NodeId.ofJson?)
      (← r.required "unique_id" (Json.nat? 64))
  | .foreignKey => do
    let r ← Record.ofTag? ["target_table", "value", "nullable"] j
    return foreignKey (← r.required "target_table" Json.text?)
      (← r.optional "value" Int64.ofJson?) (← r.required "nullable" Json.bool?)
  | .immutableData => do
    let r ← Record.ofTag? ["value"] j
    return immutableData (← r.required "value" Json.text?)
  | .object => do
    let r ← Record.ofTag? ["fields", "ref_type"] j
    return object (← r.required "fields" (Json.listOf? NodeId.ofJson?))
      (← r.optional "ref_type" Json.text?)
  | .array => do
    let r ← Record.ofTag? ["template", "elements", "max_size"] j
    return array (← r.required "template" NodeId.ofJson?)
      (← r.required "elements" (Json.listOf? NodeId.ofJson?))
      (← r.required "max_size" (Json.nat? 64))
  | .optional => do
    let r ← Record.ofTag? ["gene", "active"] j
    return optional (← r.required "gene" NodeId.ofJson?) (← r.required "active" Json.bool?)
  | .map => do
    let r ← Record.ofTag? ["template", "entries", "max_size"] j
    return map (← r.required "template" NodeId.ofJson?)
      (← r.required "entries" (Json.listOf? NodeId.ofJson?))
      (← r.required "max_size" (Json.nat? 64))
  | .autoIncrement => (Json.bareTag? j).map fun _ => autoIncrement
  | .cyclePlaceholder => (Json.bareTag? j).map fun _ => cyclePlaceholder
  | .limitPlaceholder => (Json.bareTag? j).map fun _ => limitPlaceholder

def ofJson? (j : Json) : Option Gene := do
  let (tag, rest) ← j.tagged?
  let v ← Variant.names.lookup tag
  ofTag? v rest

end Gene

namespace GeneNode

def toJson (n : GeneNode) : Json :=
  .object [("name", .string n.name), ("kind", n.gene.toJson),
    ("parent", .ofOption NodeId.toJson n.parent)]

def ofJson? (j : Json) : Option GeneNode := do
  let r ← Json.record? ["name", "kind", "parent"] j
  return {
    name := ← r.required "name" Json.text?
    gene := ← r.required "kind" Gene.ofJson?
    parent := ← r.optional "parent" NodeId.ofJson? }

end GeneNode

namespace GeneTree

/-- The form of a tree lists the freed slots with the one to be used next at the end. -/
def dump (t : GeneTree) : Json :=
  .object [("nodes", .array (t.slots.toList.map (Json.ofOption GeneNode.toJson))),
    ("free", .ofList NodeId.toJson t.free.reverse), ("root", t.root.toJson)]

def ofDump? (j : Json) : Option GeneTree := do
  let r ← Json.record? ["nodes", "free", "root"] j
  let nodes ← r.required "nodes" (Json.listOf? (Json.nullable? GeneNode.ofJson?))
  let free ← r.required "free" (Json.listOf? NodeId.ofJson?)
  let root ← r.required "root" NodeId.ofJson?
  return { slots := nodes.toArray, free := free.reverse, root }

end GeneTree

namespace FieldType

/-- The types that are written by their name alone. -/
def simple : List (String × FieldType) :=
  [("Integer", integer), ("Long", long), ("Float", float), ("Double", double),
    ("Boolean", boolean), ("String", string), ("Date", date), ("Time", time),
    ("DateTime", moment), ("Base64", base64)]

def simpleName (ty : FieldType) : String := ((simple.find? fun n => n.2 = ty).map (·.1)).getD ""

def toJson : FieldType → Json
  | choice values => .object [("Enum", .ofList .string values)]
  | ref target => .object [("Ref", .string target)]
  | array inner maxSize => .object [("Array", .array [inner.toJson, .ofNat maxSize])]
  | map inner maxSize => .object [("Map", .array [inner.toJson, .ofNat maxSize])]
  | ty => .string ty.simpleName

def ofJsonWithin? : Nat → Json → Option FieldType
  | 0, _ => none
  | depth + 1, j => do
    let (tag, rest) ← j.tagged?
    match tag, rest with
    | "Enum", some j => choice <$> Json.listOf? Json.text? j
    | "Ref", some j => ref <$> j.text?
    | "Array", some (.array [inner, size]) =>
      return array (← ofJsonWithin? depth inner) (← size.nat? 64)
    | "Map", some (.array [inner, size]) =>
      return map (← ofJsonWithin? depth inner) (← size.nat? 64)
    | tag, rest => do
      Json.bareTag? rest
      simple.lookup tag

end FieldType

/-- How deep the collections of a declared type may be nested. -/
def typeDepthLimit : Nat := 128

def FieldType.ofJson? (j : Json) : Option FieldType := ofJsonWithin? typeDepthLimit j

namespace FieldDecl

def toJson (f : FieldDecl) : Json :=
  .object [("name", .string f.name), ("ty", f.type.toJson), ("required", .bool f.required)]

def ofJson? (j : Json) : Option FieldDecl := do
  let r ← Json.record? ["name", "ty", "required"] j
  return {
    name := ← r.required "name" Json.text?
    type := ← r.required "ty" FieldType.ofJson?
    required := ← r.required "required" Json.bool? }

end FieldDecl

namespace ObjectType

def toJson (s : ObjectType) : Json :=
  .object [("name", .string s.name), ("fields", .ofList FieldDecl.toJson s.fields)]

def ofJson? (j : Json) : Option ObjectType := do
  let r ← Json.record? ["name", "fields"] j
  return {
    name := ← r.required "name" Json.text?
    fields := ← r.required "fields" (Json.listOf? FieldDecl.ofJson?) }

end ObjectType

namespace MutationSettings

def toJson (c : MutationSettings) : Json :=
  .object [("array_grow_prob", .ofDouble c.growProbability),
    ("array_shrink_prob", .ofDouble c.shrinkProbability),
    ("resample_prob", .ofDouble c.resampleProbability),
    ("max_int_delta", .integer c.maxIntDelta.toInt),
    ("optional_toggle_prob", .ofDouble c.toggleProbability),
    ("max_time_shift_secs", .integer c.maxTimeShift.toInt)]

/-- Settings that are not given keep their defaults. -/
def ofJson? (j : Json) : Option MutationSettings := do
  let d : MutationSettings := {}
  let r ← Json.record? ["array_grow_prob", "array_shrink_prob", "resample_prob", "max_int_delta",
    "optional_toggle_prob", "max_time_shift_secs"] j
  return {
    growProbability := ← r.withDefault "array_grow_prob" d.growProbability Json.double?
    shrinkProbability := ← r.withDefault "array_shrink_prob" d.shrinkProbability Json.double?
    resampleProbability := ← r.withDefault "resample_prob" d.resampleProbability Json.double?
    maxIntDelta := ← r.withDefault "max_int_delta" d.maxIntDelta Int64.ofJson?
    toggleProbability := ← r.withDefault "optional_toggle_prob" d.toggleProbability Json.double?
    maxTimeShift := ← r.withDefault "max_time_shift_secs" d.maxTimeShift Int64.ofJson? }

end MutationSettings
end CallEvolution
