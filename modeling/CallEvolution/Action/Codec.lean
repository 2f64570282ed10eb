import CallEvolution.Action.Basic
import CallEvolution.Gene.Codec

/-!
The JSON forms of actions and what they are made of.
-/

namespace CallEvolution

open Json (Record)

namespace ActionId

def toJson (id : ActionId) : Json := .ofNat id.number

def ofJson? (j : Json) : Option ActionId := (j.nat? 64).map ActionId.mk

end ActionId

/-- A table of texts, each name once. -/
def textTable? : Json → Option (Table String)
  | .object members =>
    (members.mapM fun (m : String × Json) => m.2.text?.map (Prod.mk m.1)).map Table.ofEntries
  | _ => none

def textTableJson (table : Table String) : Json :=
  .object (table.map fun (name, s) => (name, .string s))

namespace Credentials

def toJson (a : Credentials) : Json :=
  .object [("name", .string a.name), ("headers", textTableJson a.headers),
    ("cookies", textTableJson a.cookies)]

def ofJson? (j : Json) : Option Credentials := do
  let r ← Json.record? ["name", "headers", "cookies"] j
  return {
    name := ← r.required "name" Json.text?
    headers := ← r.required "headers" textTable?
    cookies := ← r.required "cookies" textTable? }

end Credentials

def HttpVerb.ofJson? (j : Json) : Option HttpVerb :=
  Json.oneOf? (HttpVerb.spellings.map fun (v, name, _) => (name, v)) j

def GraphQlOperation.name : GraphQlOperation → String
  | query => "Query"
  | mutation => "Mutation"

def GraphQlOperation.ofJson? (j : Json) : Option GraphQlOperation :=
  Json.oneOf? [("Query", .query), ("Mutation", .mutation)] j

def ParamRole.ofJson? (j : Json) : Option ParamRole :=
  Json.oneOf? (ParamRole.spellings.map fun (r, name, _) => (name, r)) j

namespace PathSegment

def toJson : PathSegment → Json
  | literal text => .object [("Literal", .string text)]
  | param name => .object [("Param", .string name)]

def ofJson? (j : Json) : Option PathSegment := do
  match ← j.tagged? with
  | ("Literal", some j) => literal <$> j.text?
  | ("Param", some j) => param <$> j.text?
  | _ => none

end PathSegment

namespace PathTemplate

def toJson (p : PathTemplate) : Json :=
  .object [("raw", .string p.raw), ("segments", .ofList PathSegment.toJson p.segments)]

def ofJson? (j : Json) : Option PathTemplate := do
  let r ← Json.record? ["raw", "segments"] j
  return {
    raw := ← r.required "raw" Json.text?
    segments := ← r.required "segments" (Json.listOf? PathSegment.ofJson?) }

end PathTemplate

namespace ActionKind

def toJson : ActionKind → Json
  | http verb path auth =>
    .object [("Http", .object [("verb", .string verb.name), ("path", path.toJson),
      ("auth", .ofOption Credentials.toJson auth)])]
  | graphQl operation name auth =>
    .object [("GraphQl", .object [("operation", .string operation.name), ("name", .string name),
      ("auth", .ofOption Credentials.toJson auth)])]
  | rpc service method =>
    .object [("Rpc", .object [("interface", .string service), ("method", .string method)])]
  | db table existing =>
    .object [("Db", .object [("table", .string table),
      ("represents_existing_data", .bool existing)])]
  | stub service => .object [("ExternalStub", .object [("service", .string service)])]

def ofJson? (j : Json) : Option ActionKind := do
  let (tag, rest) ← j.tagged?
  match tag with
  | "Http" => do
    let r ← Record.ofTag? ["verb", "path", "auth"] rest
    return http (← r.required "verb" HttpVerb.ofJson?) (← r.required "path" PathTemplate.ofJson?)
      (← r.optional "auth" Credentials.ofJson?)
  | "GraphQl" => do
    let r ← Record.ofTag? ["operation", "name", "auth"] rest
    return graphQl (← r.required "operation" GraphQlOperation.ofJson?)
      (← r.required "name" Json.text?) (← r.optional "auth" Credentials.ofJson?)
  | "Rpc" => do
    let r ← Record.ofTag? ["interface", "method"] rest
    return rpc (← r.required "interface" Json.text?) (← r.required "method" Json.text?)
  | "Db" => do
    let r ← Record.ofTag? ["table", "represents_existing_data"] rest
    return db (← r.required "table" Json.text?)
      (← r.required "represents_existing_data" Json.bool?)
  | "ExternalStub" => do
    let r ← Record.ofTag? ["service"] rest
    return stub (← r.required "service" Json.text?)
  | _ => none

end ActionKind

namespace Parameter

def toJson (p : Parameter) : Json :=
  .object [("name", .string p.name), ("role", .string p.role.name), ("gene", p.gene.dump)]

def ofJson? (j : Json) : Option Parameter := do
  let r ← Json.record? ["name", "role", "gene"] j
  return {
    name := ← r.required "name" Json.text?
    role := ← r.required "role" ParamRole.ofJson?
    gene := ← r.required "gene" GeneTree.ofDump? }

end Parameter

namespace Action

def toJson (a : Action) : Json :=
  .object [("id", a.id.toJson), ("name", .string a.name), ("kind", a.kind.toJson),
    ("params", .ofList Parameter.toJson a.params), ("counts_for_fitness", .bool a.countsForFitness)]

def ofJson? (j : Json) : Option Action := do
  let r ← Json.record? ["id", "name", "kind", "params", "counts_for_fitness"] j
  return {
    id := ← r.required "id" ActionId.ofJson?
    name := ← r.required "name" Json.text?
    kind := ← r.required "kind" ActionKind.ofJson?
    params := ← r.required "params" (Json.listOf? Parameter.ofJson?)
    countsForFitness := ← r.required "counts_for_fitness" Json.bool? }

end Action
end CallEvolution
