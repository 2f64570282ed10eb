import CallEvolution.Action.Basic

/-!
What can be wrong with a request to an individual.
-/

namespace CallEvolution

inductive ActionError where
  /-- Positions that are no main actions. -/
  | swapOutOfRange (a b size : Nat)
  | unknownAction (id : ActionId)
  | unknownParameter (id : ActionId) (index : Nat)
  | gene (error : GeneError)
  deriving DecidableEq

def ActionError.message : ActionError → String
  | swapOutOfRange a b size =>
    "invariant violation: swap of " ++ toString a ++ " and " ++ toString b ++
      " out of range for " ++ toString size ++ " main actions"
  | unknownAction id => "unknown action: " ++ toString id
  | unknownParameter id index =>
    "action " ++ toString id ++ " has no parameter #" ++ toString index
  | gene error => "gene error: " ++ error.message

end CallEvolution
