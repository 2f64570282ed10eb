import CallEvolution.Individual.Repair
import CallEvolution.Sampling.Seed
import CallEvolution.Search.Attempt

/-!
The sampler makes fresh actions from the templates of a catalog, and fresh individuals from such actions
or from seeds. Individuals leave it linked and with equal values along all links.
-/

namespace CallEvolution

structure Sampler where
  settings : SamplerSettings
  /-- Templates of actions by name. -/
  catalog : Table Action
  credentials : List Credentials := []
  seeds : List Seed := []
  linker : Linker := {}

namespace Sampler

/-- The catalog of a list of templates, of which later ones count. -/
def catalogOf (templates : List Action) : Table Action :=
  Table.ofEntries (templates.map fun a => (a.name, a))

/-- A sampler for a catalog that has templates. -/
def new (settings : SamplerSettings) (catalog : Table Action) : Except SettingsError Sampler := do
  settings.validate
  if catalog.isEmpty then throw .emptyCatalog
  return { settings, catalog }

def checkSeed (s : Sampler) (seed : Seed) : Except SettingsError Unit :=
  match seed.main.find? fun name => (s.catalog.at? name).isNone with
  | some missing => throw (.unknownSeedAction seed.name missing)
  | none => return

/-- Gives the sampler seeds whose main actions are all in the catalog. -/
def withSeeds (s : Sampler) (seeds : List Seed) : Except SettingsError Sampler := do
  seeds.forM s.checkSeed
  return { s with seeds }

/-- Can seeds be used at all? -/
def usesSeeds (s : Sampler) : Bool := !s.seeds.isEmpty && 0 < s.settings.seedProbability

variable {γ : Type} [RandomSource γ]

/-- No authentication by chance, or else any one. -/
def drawCredentials (s : Sampler) : Draw γ (Option Credentials) := do
  if s.credentials.isEmpty then return none
  if ← Draw.chance s.settings.noAuthProbability then return none
  Draw.member? s.credentials

/-- A template with random values and an authentication. -/
def fromTemplate (s : Sampler) (template : Action) : Attempt γ Action := do
  let ((), a) ← Attempt.ofChange .gene template.randomize
  if a.isRequest then return a.withAuth (← (s.drawCredentials : Draw γ _)) else return a

/-- A random action of the catalog. -/
def randomAction (s : Sampler) : Attempt γ Action := do
  let i ← (Draw.index s.catalog.length : Draw γ Nat)
  match s.catalog.values[i]? with
  | some template => s.fromTemplate template
  | none => throw (.settings .emptyCatalog)

/-- Appends random main actions. -/
def addRandomActions (s : Sampler) : Nat → Individual → Attempt γ Individual
  | 0, ind => return ind
  | n + 1, ind => do
    let a ← s.randomAction
    addRandomActions s n (ind.addMain a).2

/-- An individual of random actions. -/
def randomIndividual (s : Sampler) (identity : Nat) : Attempt γ Individual := do
  let size ← (Draw.count 1 s.settings.maxSize : Draw γ Nat)
  let ind ← s.addRandomActions size (.new .random identity)
  let (_, ind) ← Attempt.link ind s.linker.linkAll
  return (← Attempt.revise ind Revision.sync).2

/-- Appends initializing actions with random values. -/
def addInit : List Action → Individual → Attempt γ Individual
  | [], ind => return ind
  | a :: rest, ind => do
    let ((), a) ← Attempt.ofChange .gene a.randomize
    addInit rest (ind.addInit a).2

/-- Appends main actions by name, and gives their ids. -/
def addNamed (s : Sampler) (seed : Seed) :
    List String → Individual → Attempt γ (List ActionId × Individual)
  | [], ind => return ([], ind)
  | name :: rest, ind =>
    match s.catalog.at? name with
    | none => throw (.settings (.unknownSeedAction seed.name name))
    | some template => do
      let (id, ind) := ind.addMain (← s.fromTemplate template)
      let (ids, ind) ← addNamed s seed rest ind
      return (id :: ids, ind)

/-- Follows the directives of a seed. Those for a position without a main action are passed over. -/
def followLinks (s : Sampler) (ids : List ActionId) :
    List SeedLinks → Individual → Attempt γ Individual
  | [], ind => return ind
  | l :: rest, ind =>
    match ids[l.main]? with
    | none => followLinks s ids rest ind
    | some id => do
      let (_, ind) ← Attempt.link ind (s.linker.linkRows id l.directives)
      followLinks s ids rest ind

/-- An individual made from a seed. -/
def fromSeed (s : Sampler) (seed : Seed) (identity : Nat) : Attempt γ Individual := do
  let ind ← addInit seed.init (.new .smart identity)
  let (ids, ind) ← s.addNamed seed seed.main ind
  let (_, ind) ← (ind.repair : Draw γ (Bool × Individual))
  let (_, ind) ← Attempt.link ind s.linker.linkAll
  let ind ← s.followLinks ids seed.links ind
  return (← Attempt.revise ind Revision.sync).2

/-- A fresh individual: from a seed by chance, or else of random actions. -/
def individual (s : Sampler) (identity : Nat) : Attempt γ Individual := do
  let seeded ← if s.usesSeeds then (Draw.chance s.settings.seedProbability : Draw γ Bool)
    else pure false
  if seeded then
    match ← (Draw.member? s.seeds : Draw γ (Option Seed)) with
    | some seed => s.fromSeed seed identity
    | none => s.randomIndividual identity
  else s.randomIndividual identity

end Sampler
end CallEvolution
