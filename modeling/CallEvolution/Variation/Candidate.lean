import CallEvolution.Impact.Identity
import CallEvolution.Individual.Basic
import CallEvolution.Search.Settings

/-!
The genes of an individual that a mutation may change, and how they and changes of the sequence of
actions are weighed against each other.
-/

namespace CallEvolution

/-- A parameter whose gene is open to mutation. -/
structure Candidate where
  action : ActionId
  param : Nat
  identity : String
  deriving DecidableEq

namespace Individual

/-- Does a link determine the whole value of a parameter? -/
def isDetermined (ind : Individual) (a : Action) (param : Nat) (root core : NodeId) : Bool :=
  ind.links.any fun l =>
    l.target.action = a.id && l.target.param = param &&
      (l.target.node = root || l.target.node = core)

def candidate? (ind : Individual) (a : Action) (param : Nat) (p : Parameter) :
    Except GeneError (Option Candidate) := do
  let root := p.gene.root
  if !(← p.gene.isMutable root) then return none
  if ind.isDetermined a param root (← p.gene.coreNode root) then return none
  let identity ← geneIdentity (parameterIdentity a p) p.gene root
  return some { action := a.id, param, identity }

/-- The candidates of some parameters, which stand at `param` and behind it. -/
def candidatesFrom (ind : Individual) (a : Action) :
    Nat → List Parameter → Except GeneError (List Candidate)
  | _, [] => return []
  | param, p :: rest => do
    let candidate ← ind.candidate? a param p
    return candidate.toList ++ (← candidatesFrom ind a (param + 1) rest)

/-- The parameters whose genes can change, those of rows that exist already left out, and also those
whose whole value is determined by a link. -/
def candidates (ind : Individual) : Except GeneError (List Candidate) := do
  let perAction ← (ind.actions.filter (!·.isExisting)).mapM fun a => ind.candidatesFrom a 0 a.params
  return perAction.flatten

end Individual

namespace MutatorSettings

/-- The records that choices are made by, if they are made by records. -/
def records? (s : MutatorSettings) (impacts : Option ImpactHistory) : Option ImpactHistory :=
  match s.strategy with
  | .adaptive => impacts
  | .standard => none

/-- The weights of candidates in the draw. -/
def candidateWeights (s : MutatorSettings) (impacts : Option ImpactHistory)
    (candidates : List Candidate) : Except Fault (List Double) :=
  match s.records? impacts with
  | some h => candidates.mapM fun c => h.weight c.identity
  | none => .ok (candidates.map fun _ => 1)

def isStale (s : MutatorSettings) (h : ImpactHistory) (c : Candidate) : Bool :=
  match h.record? c.identity with
  | some r => s.staleThreshold ≤ r.staleness
  | none => false

/-- The chance that the sequence of actions changes: with records, the more candidates are stale, the
greater it is. -/
def structureChance (s : MutatorSettings) (impacts : Option ImpactHistory)
    (candidates : List Candidate) : Double :=
  let base := s.structureProbability
  match s.records? impacts with
  | none => base
  | some h =>
    if candidates.isEmpty then base
    else
      let stale := (candidates.filter (s.isStale h)).length
      base + (1 - base) * Binary.ofInt (stale : Nat) / Binary.ofInt (candidates.length : Nat)

end MutatorSettings
end CallEvolution
