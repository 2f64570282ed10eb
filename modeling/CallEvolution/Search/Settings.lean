import CallEvolution.Evaluation.Archive
import CallEvolution.Gene.MutationSettings
import CallEvolution.Linking.Settings

/-!
The settings of a search, and what can be wrong with them.
-/

namespace CallEvolution

inductive SettingsError where
  | setting (problem : SettingProblem)
  | emptyCatalog
  /-- A seed names an action that the catalog does not have. -/
  | unknownSeedAction (seed action : String)
  | operatorWeights
  | stalenessWeight
  | zeroTimeout
  | gene (error : GeneError)
  | linking (error : LinkError)
  deriving DecidableEq

namespace SettingsError

/-- What is said of settings that are wrong in another way than being no chance. -/
def invalid (reason : String) : String := "invalid configuration: " ++ reason

def message : SettingsError → String
  | setting problem => problem.message
  | emptyCatalog => "action catalog is empty"
  | unknownSeedAction seed action =>
    "seed '" ++ seed ++ "' refers to unknown action '" ++ action ++ "'"
  | operatorWeights =>
    invalid "structural operator weights must be finite, non-negative and not all zero"
  | stalenessWeight => invalid "staleness_weight must be >= 0"
  | zeroTimeout => invalid "evaluation_timeout_ms must be > 0"
  | gene error => invalid error.message
  | linking error => invalid error.message

end SettingsError

structure SamplerSettings where
  /-- The chance that a call is sent without authentication. -/
  noAuthProbability : Double := 0.05
  /-- The chance that an individual is made from a seed, where there are seeds. -/
  seedProbability : Double := 0.5
  /-- The greatest number of main actions of a random individual. -/
  maxSize : Nat := 10
  deriving DecidableEq

def SamplerSettings.validate (s : SamplerSettings) : Except SettingsError Unit := do
  (requireChance "no_auth_prob" s.noAuthProbability).mapError .setting
  (requireChance "prob_smart_sampling" s.seedProbability).mapError .setting
  if s.maxSize < 1 then throw (.setting (.belowOne "max_test_size"))

/-- How the gene that a mutation changes is drawn. -/
inductive Strategy where
  /-- All genes alike. -/
  | standard
  /-- By the weights of the impact records. -/
  | adaptive
  deriving DecidableEq

structure MutatorSettings where
  strategy : Strategy := .standard
  /-- The chance that the sequence of actions changes instead of a gene. -/
  structureProbability : Double := 0.2
  addWeight : Double := 1
  removeWeight : Double := 1
  swapWeight : Double := 1
  /-- The length of the streak from which on a record is stale. -/
  staleThreshold : Nat := 5
  /-- What each stale manipulation of a collection adds to the chance that its size changes. -/
  staleResizeStep : Double := 0.1
  gene : MutationSettings := {}
  deriving DecidableEq

namespace MutatorSettings

def operatorWeights (s : MutatorSettings) : List Double := [s.addWeight, s.removeWeight, s.swapWeight]

def usableOperators (s : MutatorSettings) : Bool :=
  s.operatorWeights.all (fun w => w.isFinite && !decide (w < 0)) &&
    !decide (s.operatorWeights.foldl (· + ·) 0 ≤ 0)

def validate (s : MutatorSettings) : Except SettingsError Unit := do
  (requireChance "structure_mutation_prob" s.structureProbability).mapError .setting
  (requireChance "stale_resize_step" s.staleResizeStep).mapError .setting
  if !s.usableOperators then throw .operatorWeights
  s.gene.validate.mapError .gene

end MutatorSettings

def ArchiveSettings.validate (s : ArchiveSettings) : Except SettingsError Unit := do
  (requireChance "covered_threshold" s.coveredThreshold).mapError .setting
  if s.stalenessWeight < 0 ∨ !s.stalenessWeight.isFinite then throw .stalenessWeight

structure SearchSettings where
  sampler : SamplerSettings := {}
  mutator : MutatorSettings := {}
  linking : LinkSettings := {}
  archive : ArchiveSettings := {}
  /-- The chance that a fresh individual is sampled instead of mutating an archived one. -/
  freshProbability : Double := 0.5
  maxEvaluations : Nat := 1000
  /-- How many milliseconds an evaluation may take. -/
  timeout : Nat := 10000
  /-- The seed of the random words, for runs that can be repeated. -/
  seed : Option UInt64 := none
  deriving DecidableEq

def SearchSettings.validate (s : SearchSettings) : Except SettingsError Unit := do
  s.sampler.validate
  s.mutator.validate
  s.archive.validate
  s.linking.validate.mapError .linking
  (requireChance "prob_random" s.freshProbability).mapError .setting
  if s.timeout = 0 then throw .zeroTimeout

end CallEvolution
