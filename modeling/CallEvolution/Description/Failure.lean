import CallEvolution.Description.Member
import CallEvolution.Evaluation.Evaluator
import CallEvolution.Search.Attempt

/-!
Failures in JSON: the name of the cause, behind the names of the layers it was passed through, and the
message.
-/

namespace CallEvolution

/-- A failure that its name says all about. -/
def bareFailure (name : String) : Json := .object [("error", .string name)]

def failure (name message : String) : Json :=
  .object [("error", .string name), ("message", .string message)]

def GeneError.name : GeneError → String
  | variantMismatch .. => "InvalidGeneType"
  | shapeMismatch _ => "IncompatibleStructure"
  | outOfBounds _ => "OutOfBounds"
  | immutable _ => "ImmutableGene"
  | notPrintable _ => "NotPrintable"
  | unknownNode _ => "UnknownNode"
  | unknownSchema _ => "UnknownSchema"
  | tooManyMembers .. => "SizeBoundExceeded"
  | invalidConfig _ => "InvalidConfig"
  | cyclicOwnership _ => "CyclicOwnership"

def GeneError.failure (e : GeneError) : Json := CallEvolution.failure e.name e.message

def ActionError.name : ActionError → String
  | swapOutOfRange .. => "InvariantViolation"
  | unknownAction _ => "UnknownAction"
  | unknownParameter .. => "UnknownParameter"
  | gene e => "Gene." ++ e.name

def ActionError.failure (e : ActionError) : Json := CallEvolution.failure e.name e.message

def LinkError.name : LinkError → String
  | unknownTable _ => "UnknownTable"
  | invalidConfig _ => "InvalidConfig"
  | action e => "Action." ++ e.name
  | gene e => "Gene." ++ e.name

def LinkError.failure (e : LinkError) : Json := CallEvolution.failure e.name e.message

def SettingsError.name : SettingsError → String
  | setting (.probability ..) => "InvalidProbability"
  | setting (.belowOne _) => "InvalidTestSize"
  | emptyCatalog => "EmptyCatalog"
  | unknownSeedAction .. => "UnknownSeedAction"
  | operatorWeights | stalenessWeight | zeroTimeout | gene _ | linking _ => "Invalid"

def SettingsError.failure (e : SettingsError) : Json := CallEvolution.failure e.name e.message

def SearchError.name : SearchError → String
  | settings e => "Config." ++ e.name
  | linking e => "Binding." ++ e.name
  | action e => "Action." ++ e.name
  | gene e => "Gene." ++ e.name

def SearchError.failure (e : SearchError) : Json := CallEvolution.failure e.name e.message

def EvaluationError.failure (e : EvaluationError) : Json :=
  let name := match e with
    | transport _ => "Transport"
    | timeout _ => "Timeout"
  CallEvolution.failure name e.message

/-- The failure of a computation that was given up. -/
def Fault.failure (_ : Fault) : Json := bareFailure "panic"

def DescriptionError.name : DescriptionError → String
  | malformed => "BadSpec"
  | unreadable => "Parse"
  | fault _ => "panic"
  | gene e => e.name
  | action e => e.name
  | settings e => e.name

def DescriptionError.failure : DescriptionError → Json
  | gene e => e.failure
  | action e => e.failure
  | settings e => e.failure
  | e => bareFailure e.name

/-- A result, or the failure in its place. -/
def Json.ofResult {ε α : Type} (f : α → Json) (g : ε → Json) : Except ε α → Json
  | .ok x => f x
  | .error e => g e

end CallEvolution
