import CallEvolution.Action.Basic
import CallEvolution.Gene.Mutation
import CallEvolution.Impact.Record

/-!
Identities under which impacts are recorded, and mutations that are steered by the records. An identity
names the action, the role of the parameter and the path to the gene, so it holds for all individuals.
-/

namespace CallEvolution

/-- The identity of the sequence of actions. -/
def structureIdentity : String := "individual::structure"

/-- What the identities of all genes of a parameter begin with. -/
def parameterIdentity (a : Action) (p : Parameter) : String := a.name ++ "::" ++ p.role.text

/-- The identity of a gene, given what the identities of its parameter begin with. -/
def geneIdentity (parameter : String) (t : GeneTree) (id : NodeId) : Except GeneError String :=
  return parameter ++ "::" ++ (← t.pathOf id)

namespace ImpactHistory

/-- The record of a gene. -/
def recordOf? (h : ImpactHistory) (parameter : String) (t : GeneTree) (id : NodeId) :
    Option ImpactRecord :=
  (geneIdentity parameter t id).toOption.bind h.record?

/-- The greatest chance that a collection changes its size. -/
def resizeCeiling : Double := 0.95

/-- The chance that a collection changes its size, once its record is stale: a half and more with
every step beyond the threshold. -/
def staleResize (threshold : Nat) (step : Double) (r : ImpactRecord) :
    Except Fault (Option Double) :=
  if r.staleness < threshold then .ok none
  else do
    let steps ← counted (r.staleness - threshold + 1)
    return some ((0.5 + Binary.ofInt steps * step : Double).min resizeCeiling)

def isCollection (t : GeneTree) (id : NodeId) : Bool :=
  match t.variant id with
  | .ok v => v = .array || v = .map
  | .error _ => false

/-- Steers the mutation of a parameter: children weigh as their records say, and collections with stale
records change their size more often. -/
def steering (h : ImpactHistory) (parameter : String) (threshold : Nat) (step : Double) :
    Steering where
  childWeight t id :=
    match h.recordOf? parameter t id with
    | some r => r.weight
    | none => .ok 1
  resizeProbability t id :=
    match if isCollection t id then h.recordOf? parameter t id else none with
    | some r => staleResize threshold step r
    | none => .ok none

end ImpactHistory
end CallEvolution
