import CallEvolution.Evaluation.Report
import CallEvolution.Text.Duration

/-!
Evaluators execute individuals against a tested system. A call gives a report or fails as a whole, and
takes some time; one that takes too long counts as failed.
-/

namespace CallEvolution

/-- Why an individual has no report. -/
inductive EvaluationError where
  | transport (detail : String)
  | timeout (milliseconds : Nat)
  deriving DecidableEq

def EvaluationError.message : EvaluationError → String
  | transport detail => "transport failure: " ++ detail
  | timeout milliseconds => "evaluation timed out after " ++ Text.durationText milliseconds

/-- What a call gives, and after how many milliseconds. -/
structure Answer where
  result : Except EvaluationError Report
  delay : Nat := 0

/-- The answer if one waits no longer than `limit` milliseconds. -/
def Answer.within (a : Answer) (limit : Nat) : Except EvaluationError Report :=
  if limit < a.delay then .error (.timeout limit) else a.result

/-- An evaluator whose calls depend on a state. -/
structure Evaluator (σ : Type) where
  name : String
  call : Individual → σ → Answer × σ

end CallEvolution
