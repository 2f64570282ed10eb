import CallEvolution.Description.Failure
import CallEvolution.Description.Gene
import CallEvolution.Individual.Codec
import CallEvolution.Linking.Codec

/-!
Short descriptions of actions, individuals and linkers, and summaries of what they hold.
-/

namespace CallEvolution

open Description

def Credentials.ofDescription (j : Json) : Described Credentials := do
  return {
    name := ← textOr j "name" ""
    headers := ← withDefault .malformed j "headers" [] textTable?
    cookies := ← withDefault .malformed j "cookies" [] textTable? }

/-- The name of a parameter is that of its gene if none is given, and bodies are all named alike. -/
def Parameter.ofDescription (j : Json) : Described Parameter := do
  let role ← needed .unreadable j "role" ParamRole.ofJson?
  let gene ← part j "gene" GeneTree.ofDescription
  match ← optionally .malformed j "name" Json.text? with
  | some name => return ⟨name, role, gene⟩
  | none =>
    if role = .body then return .body gene
    return ⟨← (gene.name gene.root).mapError .gene, role, gene⟩

namespace Action

def ofDescription (j : Json) : Described Action := do
  let kind ← needed .malformed j "a" Json.text?
  let params ← parts j "params" Parameter.ofDescription
  let text (key : String) : Described String := textOr j key ""
  let a ← match kind with
    | "http" => do
      pure (http (← needed .unreadable j "verb" HttpVerb.ofJson?) (← text "path") params)
    | "graphql" => do
      let operation ← needed .unreadable j "operation" GraphQlOperation.ofJson?
      pure (graphQl operation (← text "name") params)
    | "rpc" => do pure (rpc (← text "interface") (← text "method") params)
    | "db" => do pure (db (← text "table") params)
    | "stub" => do pure (stub (← text "service") params)
    | _ => throw .malformed
  let a := if ← withDefault .malformed j "existing" false Json.bool? then a.asExisting else a
  match given? j "auth" with
  | some auth => return a.withAuth (some (← Credentials.ofDescription auth))
  | none => return a

/-- The request text of each parameter, or why it has none. -/
def texts (a : Action) : List Json :=
  a.params.map fun p => .ofResult .string GeneError.failure (p.gene.printable p.gene.root)

def brief (a : Action) : Json :=
  .array [.ofNat a.id.number, .string a.name, .ofOption (fun c => .string c.name) a.auth?,
    .array a.texts]

end Action

namespace Link

def addressOf? : Json → Option GeneAddress
  | .array [a, p, n] => return ⟨⟨← nat64? a⟩, ← nat64? p, ← NodeId.ofJson? n⟩
  | _ => none

def ofDescription : Json → Described Link
  | .array [source, target, origin] =>
    return ⟨← orElse .malformed (addressOf? source), ← orElse .malformed (addressOf? target),
      ← orElse .unreadable (LinkOrigin.ofJson? origin)⟩
  | _ => throw .malformed

def brief (l : Link) : Json := .string (toString l ++ " " ++ l.origin.name)

end Link

namespace Linker

/-- Reads a score for two names. -/
def scoreRow? : Json → Option (String × String × Double)
  | .array [a, b, x] => return (← a.text?, ← b.text?, ← number? x)
  | _ => none

/-- The similarity that a list of scores gives: zero for names that are not in it. -/
def listedSimilarity (rows : List (String × String × Double)) (a b : String) : Double :=
  ((rows.find? fun row => row.1 = a && row.2.1 = b).map (·.2.2)).getD 0

def ofDescription (j : Json) : Described Linker := do
  let config ← form j "config" {} LinkSettings.ofJson?
  let knownTables ← optionally .malformed j "known_tables" (Json.listOf? Json.text?)
  match ← optionally .malformed j "similar" (Json.listOf? scoreRow?) with
  | none => return { config, knownTables }
  | some rows => return { config, knownTables, similarity := listedSimilarity rows }

end Linker

namespace Individual

/-- Adds links in order. -/
def addAllLinks (ind : Individual) (links : List Link) : Except ActionError Individual :=
  links.foldlM (fun ind l => (ind.addLink l).map (·.2)) ind

/-- The individual of a description, which may also be its full JSON form. -/
def ofDescription (identity : Nat) (j : Json) : Described Individual := do
  match given? j "raw" with
  | some raw => orElse .unreadable (Individual.ofJson? identity raw)
  | none =>
    let ind := Individual.new (← form j "sample_type" .random Provenance.ofJson?) identity
    let structureMutable ← withDefault .malformed j "structure_mutable" true Json.bool?
    let init ← parts j "init" Action.ofDescription
    let main ← parts j "main" Action.ofDescription
    let links ← parts j "links" Link.ofDescription
    let ind := init.foldl (fun ind a => (ind.addInit a).2) { ind with structureMutable }
    let ind := main.foldl (fun ind a => (ind.addMain a).2) ind
    (ind.addAllLinks links).mapError .action

def summary (ind : Individual) : Json :=
  .object [("init", .ofList Action.brief ind.init), ("main", .ofList Action.brief ind.main),
    ("links", .ofList Link.brief ind.links), ("size", .ofNat ind.size),
    ("sample", .string ind.provenance.name), ("structure_mutable", .bool ind.structureMutable),
    ("repaired", .bool ind.removedByRepair),
    ("operators", .ofList .string ind.descent.operators),
    ("has_parent", .bool ind.descent.parent.isSome),
    ("is_origin", .bool (ind.descent.id == ind.descent.lineage))]

end Individual
end CallEvolution
