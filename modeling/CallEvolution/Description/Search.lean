import CallEvolution.Description.Individual
import CallEvolution.Evaluation.Simulation
import CallEvolution.Petstore
import CallEvolution.Search.Codec
import CallEvolution.Search.Loop

/-!
Short descriptions of reports, impact records, samplers and simulations, and summaries of what a search
keeps.
-/

namespace CallEvolution

open Description

def CallResult.names : List (String × CallResult) :=
  [("Success", success), ("Failure", failure), ("TransportError", transportError)]

def CallResult.name (r : CallResult) : String :=
  ((names.find? fun n => n.2 = r).map (·.1)).getD ""

namespace Report

/-- A score of a target and the position of its action, zero if it is not given. -/
def rowOf? : Json → Option (String × Double × Nat)
  | .array [target, score] => return (← target.text?, ← number? score, 0)
  | .array [target, score, action] => return (← target.text?, ← number? score, ← nat64? action)
  | _ => none

/-- Scores are normalized unless the description says that they are to be taken as they are. -/
def ofDescription (j : Json) : Described Report := do
  let raw ← withDefault .malformed j "raw" false Json.bool?
  let results ← form j "results" [] (Json.listOf? (Json.oneOf? CallResult.names))
  let rows ← parts j "coverage" fun row => orElse .malformed (rowOf? row)
  let score (target : String) (score : Double) (action : Nat) : TargetScore :=
    if raw then ⟨target, score, action⟩ else .ofRaw target score action
  return { results, coverage := rows.map fun (t, x, i) => score t x i }

def summary (r : Report) : Json :=
  .object [("results", .ofList (fun c => .string c.name) r.results),
    ("coverage", .ofList (fun t => .array [.string t.target, .ofNumber t.score, .ofNat t.action])
      r.coverage),
    ("scores", .object (r.scores.map fun (target, x) => (target, .ofNumber x))),
    ("stopped_early", .bool r.stoppedEarly)]

end Report

/-- The holdings of an archive, each holder as `about` tells. -/
def Archive.summary (a : Archive) (about : Evaluated → List Json) : Json :=
  .object (a.holdings.map fun (target, h) => (target, .array ([.ofNumber h.score,
    .ofNat h.improvements, .ofNat h.lastImprovement] ++ about h.holder)))

def Outcome.summary (o : Outcome) : Json :=
  .object [("improved", .bool o.improved), ("improvement", .ofNumber o.improvement),
    ("added", .ofList .string o.added), ("removed", .ofList .string o.removed),
    ("impact", .bool o.hasImpact)]

namespace ImpactRecord

/-- A record; what is not given is zero. -/
def ofJson? (j : Json) : Option ImpactRecord := do
  let r ← Json.record? ["id", "degree", "times_to_manipulate", "times_of_impact",
    "times_of_no_impacts", "no_impact_streak", "no_improvement_streak"] j
  let count (key : String) : Option Nat := r.withDefault key 0 (Json.nat? 32)
  return {
    id := ← r.required "id" Json.text?
    degree := ← r.withDefault "degree" 0 Json.double?
    manipulations := ← count "times_to_manipulate"
    impacts := ← count "times_of_impact"
    idle := ← count "times_of_no_impacts"
    idleStreak := ← count "no_impact_streak"
    vainStreak := ← count "no_improvement_streak" }

def summary (r : ImpactRecord) : Except Fault Json := do
  return .array [.string r.id, .ofNumber r.degree, .ofNat r.manipulations, .ofNat r.impacts,
    .ofNat r.idle, .ofNat r.idleStreak, .ofNat r.vainStreak, .ofNat r.staleness,
    .ofNumber (← r.weight)]

end ImpactRecord

namespace ImpactHistory

def ofDescriptions (records : List ImpactRecord) : ImpactHistory := records.foldl insert {}

def summary (h : ImpactHistory) : Except Fault Json :=
  return .array (← h.records.values.mapM ImpactRecord.summary)

end ImpactHistory

def Seed.ofDescription (j : Json) : Described Seed := do
  return {
    name := ← textOr j "name" ""
    init := ← parts j "init" Action.ofDescription
    main := ← withDefault .malformed j "main" [] (Json.listOf? Json.text?)
    links := ← form j "db_bindings" [] (Json.listOf? SeedLinks.ofJson?) }

namespace Sampler

/-- A list of descriptions, or the part of the pet store that is named in its place. -/
def listOrPetstore {α : Type} (j : Json) (key : String) (petstore : Described (List α))
    (f : Json → Described α) : Described (List α) :=
  match given? j key with
  | some (.string "petstore") => petstore
  | _ => parts j key f

def describedCatalog (j : Json) : Described (Table Action) := do
  return catalogOf (← listOrPetstore j "catalog" (Petstore.catalog.mapError .gene)
    Action.ofDescription)

/-- A sampler with a linker, and with the catalog, the credentials and the seeds that are described. -/
def equipped (settings : SamplerSettings) (linker : Described Linker) (j : Json) :
    Described Sampler := do
  let sampler ← (Sampler.new settings (← describedCatalog j)).mapError .settings
  let linker ← linker
  let credentials ← listOrPetstore j "auth" (.ok Petstore.credentials) Credentials.ofDescription
  let seeds ← listOrPetstore j "seeds" (.ok Petstore.seeds) Seed.ofDescription
  ({ sampler with linker, credentials }.withSeeds seeds).mapError .settings

def ofDescription (j : Json) : Described Sampler := do
  let settings ← form j "config" {} SamplerSettings.ofJson?
  equipped settings (Linker.ofDescription ((given? j "resolver").getD .null)) j

end Sampler

def Simulation.ofDescription (j : Json) : Described Simulation := do
  return {
    restricted := ← withDefault .malformed j "requires_auth" [] (Json.listOf? Json.text?)
    failureEvery := ← optionally .malformed j "fail_every" nat64?
    delay := ← withDefault .malformed j "delay_ms" 0 nat64? }

/-- An answer that is told: a report, or the text of a transport failure. What cannot be read fails in
transport, too. -/
def Answer.ofDescription (j : Json) : Answer :=
  let told : Described (Except EvaluationError Report) := do
    match ← optionally .malformed j "transport" Json.text? with
    | some text => return .error (.transport text)
    | none => return .ok (← Report.ofDescription j)
  let result := match told with
    | .ok result => result
    | .error e => .error (.transport e.name)
  { result, delay := ((given? j "delay_ms").bind nat64?).getD 0 }

def SearchSummary.toJson (s : SearchSummary) : Json :=
  .object [("evaluations", .ofNat s.evaluations), ("abandoned", .ofNat s.abandoned),
    ("targets", .ofNat s.targets), ("covered", .ofNat s.covered),
    ("coverage", .ofNumber s.coverage)]

end CallEvolution
