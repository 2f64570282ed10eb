import CallEvolution.Gene.Codec
import CallEvolution.Linking.Codec
import CallEvolution.Search.Settings

/-!
The JSON forms of the settings of a search. Settings that are not given keep their defaults.
-/

namespace CallEvolution

namespace SamplerSettings

def toJson (s : SamplerSettings) : Json :=
  .object [("no_auth_prob", .ofDouble s.noAuthProbability),
    ("prob_smart_sampling", .ofDouble s.seedProbability), ("max_test_size", .ofNat s.maxSize)]

def ofJson? (j : Json) : Option SamplerSettings := do
  let d : SamplerSettings := {}
  let r ← Json.record? ["no_auth_prob", "prob_smart_sampling", "max_test_size"] j
  return {
    noAuthProbability := ← r.withDefault "no_auth_prob" d.noAuthProbability Json.double?
    seedProbability := ← r.withDefault "prob_smart_sampling" d.seedProbability Json.double?
    maxSize := ← r.withDefault "max_test_size" d.maxSize (Json.nat? 64) }

end SamplerSettings

def Strategy.name : Strategy → String
  | standard => "standard"
  | adaptive => "impact_adaptive"

def Strategy.ofJson? (j : Json) : Option Strategy :=
  Json.oneOf? [("standard", .standard), ("impact_adaptive", .adaptive)] j

namespace MutatorSettings

def toJson (s : MutatorSettings) : Json :=
  .object [("strategy", .string s.strategy.name),
    ("structure_mutation_prob", .ofDouble s.structureProbability),
    ("add_action_weight", .ofDouble s.addWeight), ("remove_action_weight", .ofDouble s.removeWeight),
    ("swap_actions_weight", .ofDouble s.swapWeight),
    ("stale_streak_threshold", .ofNat s.staleThreshold),
    ("stale_resize_step", .ofDouble s.staleResizeStep), ("gene", s.gene.toJson)]

def ofJson? (j : Json) : Option MutatorSettings := do
  let d : MutatorSettings := {}
  let r ← Json.record? ["strategy", "structure_mutation_prob", "add_action_weight",
    "remove_action_weight", "swap_actions_weight", "stale_streak_threshold", "stale_resize_step",
    "gene"] j
  return {
    strategy := ← r.withDefault "strategy" d.strategy Strategy.ofJson?
    structureProbability :=
      ← r.withDefault "structure_mutation_prob" d.structureProbability Json.double?
    addWeight := ← r.withDefault "add_action_weight" d.addWeight Json.double?
    removeWeight := ← r.withDefault "remove_action_weight" d.removeWeight Json.double?
    swapWeight := ← r.withDefault "swap_actions_weight" d.swapWeight Json.double?
    staleThreshold := ← r.withDefault "stale_streak_threshold" d.staleThreshold (Json.nat? 32)
    staleResizeStep := ← r.withDefault "stale_resize_step" d.staleResizeStep Json.double?
    gene := ← r.withDefault "gene" d.gene MutationSettings.ofJson? }

end MutatorSettings

namespace ArchiveSettings

def toJson (s : ArchiveSettings) : Json :=
  .object [("covered_threshold", .ofDouble s.coveredThreshold),
    ("staleness_weight", .ofDouble s.stalenessWeight)]

def ofJson? (j : Json) : Option ArchiveSettings := do
  let d : ArchiveSettings := {}
  let r ← Json.record? ["covered_threshold", "staleness_weight"] j
  return {
    coveredThreshold := ← r.withDefault "covered_threshold" d.coveredThreshold Json.double?
    stalenessWeight := ← r.withDefault "staleness_weight" d.stalenessWeight Json.double? }

end ArchiveSettings

namespace SearchSettings

def toJson (s : SearchSettings) : Json :=
  .object [("sampler", s.sampler.toJson), ("mutator", s.mutator.toJson),
    ("binding", s.linking.toJson), ("archive", s.archive.toJson),
    ("prob_random", .ofDouble s.freshProbability), ("max_evaluations", .ofNat s.maxEvaluations),
    ("evaluation_timeout_ms", .ofNat s.timeout),
    ("seed", .ofOption (fun seed => .ofNat seed.toNat) s.seed)]

def ofJson? (j : Json) : Option SearchSettings := do
  let d : SearchSettings := {}
  let r ← Json.record? ["sampler", "mutator", "binding", "archive", "prob_random",
    "max_evaluations", "evaluation_timeout_ms", "seed"] j
  let seed? (j : Json) : Option UInt64 := (j.nat? 64).map UInt64.ofNat
  return {
    sampler := ← r.withDefault "sampler" d.sampler SamplerSettings.ofJson?
    mutator := ← r.withDefault "mutator" d.mutator MutatorSettings.ofJson?
    linking := ← r.withDefault "binding" d.linking LinkSettings.ofJson?
    archive := ← r.withDefault "archive" d.archive ArchiveSettings.ofJson?
    freshProbability := ← r.withDefault "prob_random" d.freshProbability Json.double?
    maxEvaluations := ← r.withDefault "max_evaluations" d.maxEvaluations (Json.nat? 64)
    timeout := ← r.withDefault "evaluation_timeout_ms" d.timeout (Json.nat? 64)
    seed := ← r.withDefault "seed" none (Json.nullable? seed?) }

end SearchSettings
end CallEvolution
