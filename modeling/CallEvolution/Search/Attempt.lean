import CallEvolution.Linking.Directive
import CallEvolution.Search.Settings

/-!
Attempts to make individuals. They draw random words and may fail; what a failed attempt has drawn
stays drawn.
-/

namespace CallEvolution

inductive SearchError where
  | settings (error : SettingsError)
  | linking (error : LinkError)
  | action (error : ActionError)
  | gene (error : GeneError)
  deriving DecidableEq

def SearchError.message : SearchError → String
  | settings error => "configuration error: " ++ error.message
  | linking error => "binding error: " ++ error.message
  | action error => "action error: " ++ error.message
  | gene error => "gene error: " ++ error.message

abbrev Attempt (γ : Type) := ExceptT SearchError (Draw γ)

namespace Attempt

variable {γ α : Type}

def ofGene (r : Except GeneError α) : Attempt γ α := ExceptT.mk (return r.mapError .gene)

/-- Runs a step that gives a result together with what it worked on, which is lost if it fails. -/
def ofChange {ε β : Type} (wrap : ε → SearchError) (m : Draw γ (Except ε α × β)) :
    Attempt γ (α × β) :=
  ExceptT.mk do
    let (r, b) ← m
    return (r.mapError wrap).map fun x => (x, b)

/-- Changes an individual. -/
def revise (ind : Individual) (m : Revision γ α) : Attempt γ (α × Individual) :=
  ofChange .action (m.run ind)

/-- Links the genes of an individual. -/
def link (ind : Individual) (m : Linking γ α) : Attempt γ (α × Individual) :=
  ofChange .linking (m.run ind)

end Attempt
end CallEvolution
