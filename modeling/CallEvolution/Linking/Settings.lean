import CallEvolution.Action.Error

/-!
Settings of the search for links, and what can be wrong with a request for links.
-/

namespace CallEvolution

inductive LinkError where
  | unknownTable (table : String)
  | invalidConfig (problem : SettingProblem)
  | action (error : ActionError)
  | gene (error : GeneError)
  deriving DecidableEq

def LinkError.message : LinkError → String
  | unknownTable table => "binding directive refers to unknown table '" ++ table ++ "'"
  | invalidConfig problem => "invalid binding config: " ++ problem.message
  | action error => "action error: " ++ error.message
  | gene error => "gene error: " ++ error.message

structure LinkSettings where
  /-- The least similarity of names that counts as a match. -/
  similarityThreshold : Double := 0.6
  /-- The chance that an inactive optional takes part in the matching of objects. -/
  inactiveOptionalProbability : Double := 0.5
  deriving DecidableEq

namespace LinkSettings

def check (c : LinkSettings) : Except SettingProblem Unit := do
  requireChance "similarity_threshold" c.similarityThreshold
  requireChance "inactive_optional_bind_prob" c.inactiveOptionalProbability

def validate (c : LinkSettings) : Except LinkError Unit := c.check.mapError .invalidConfig

end LinkSettings
end CallEvolution
