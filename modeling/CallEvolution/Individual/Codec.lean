import CallEvolution.Action.Codec
import CallEvolution.Individual.Basic

/-!
The JSON forms of individuals and their links. The descent of an individual is not written.
-/

namespace CallEvolution

namespace GeneAddress

def toJson (a : GeneAddress) : Json :=
  .object [("action", a.action.toJson), ("param", .ofNat a.param), ("node", a.node.toJson)]

def ofJson? (j : Json) : Option GeneAddress := do
  let r ← Json.record? ["action", "param", "node"] j
  return {
    action := ← r.required "action" ActionId.ofJson?
    param := ← r.required "param" (Json.nat? 64)
    node := ← r.required "node" NodeId.ofJson? }

end GeneAddress

def LinkOrigin.name : LinkOrigin → String
  | params => "Params"
  | database => "Database"

def LinkOrigin.ofJson? (j : Json) : Option LinkOrigin :=
  Json.oneOf? [("Params", .params), ("Database", .database)] j

namespace Link

def toJson (l : Link) : Json :=
  .object [("source", l.source.toJson), ("target", l.target.toJson),
    ("origin", .string l.origin.name)]

def ofJson? (j : Json) : Option Link := do
  let r ← Json.record? ["source", "target", "origin"] j
  return {
    source := ← r.required "source" GeneAddress.ofJson?
    target := ← r.required "target" GeneAddress.ofJson?
    origin := ← r.required "origin" LinkOrigin.ofJson? }

end Link

def Provenance.name : Provenance → String
  | random => "Random"
  | smart => "Smart"
  | seeded => "Seeded"

def Provenance.ofJson? (j : Json) : Option Provenance :=
  Json.oneOf? [("Random", .random), ("Smart", .smart), ("Seeded", .seeded)] j

namespace Individual

def toJson (ind : Individual) : Json :=
  .object [("init_actions", .ofList Action.toJson ind.init),
    ("main_actions", .ofList Action.toJson ind.main),
    ("links", .ofList Link.toJson ind.links),
    ("sample_type", .string ind.provenance.name),
    ("structure_mutable", .bool ind.structureMutable),
    ("db_removed_by_repair", .bool ind.removedByRepair),
    ("next_action_id", .ofNat ind.nextId)]

/-- Reads an individual that gets a descent of its own. Its fields have to be named. -/
def ofJson? (identity : Nat) (j : Json) : Option Individual := do
  let r ← Json.namedRecord? ["init_actions", "main_actions", "links", "sample_type",
    "structure_mutable", "db_removed_by_repair", "next_action_id"] j
  return {
    init := ← r.required "init_actions" (Json.listOf? Action.ofJson?)
    main := ← r.required "main_actions" (Json.listOf? Action.ofJson?)
    links := ← r.required "links" (Json.listOf? Link.ofJson?)
    descent := .new identity
    provenance := ← r.required "sample_type" Provenance.ofJson?
    structureMutable := ← r.required "structure_mutable" Json.bool?
    removedByRepair := ← r.required "db_removed_by_repair" Json.bool?
    nextId := ← r.required "next_action_id" (Json.nat? 64) }

end Individual
end CallEvolution
