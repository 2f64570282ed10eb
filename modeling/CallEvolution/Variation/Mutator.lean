import CallEvolution.Sampling.Sampler
import CallEvolution.Variation.Candidate

/-!
The mutator makes a child from an individual by one change: of the sequence of actions or of one gene.
-/

namespace CallEvolution

/-- What led from an individual to its child. -/
inductive Operator where
  | addAction
  | removeAction
  | swapActions
  | gene
  /-- Nothing could be changed. -/
  | unchanged
  deriving DecidableEq

def Operator.name : Operator → String
  | addAction => "add_action"
  | removeAction => "remove_action"
  | swapActions => "swap_actions"
  | gene => "gene"
  | unchanged => "none"

/-- A child, and the identities that were changed. -/
structure Mutant where
  individual : Individual
  touched : List String
  operator : Operator

structure Mutator where
  settings : MutatorSettings

namespace Mutator

def new (settings : MutatorSettings) : Except SettingsError Mutator := do
  settings.validate
  return { settings }

/-- The changes of a sequence of `size` actions that are possible, with their weights. -/
def possibleOperators (m : Mutator) (size maxSize : Nat) : List (Operator × Double) :=
  let choices := [(Operator.addAction, m.settings.addWeight, decide (size < maxSize)),
    (.removeAction, m.settings.removeWeight, decide (1 < size)),
    (.swapActions, m.settings.swapWeight, decide (1 < size))]
  (choices.filter fun (_, weight, possible) => possible && 0 < weight).map fun (o, weight, _) =>
    (o, weight)

variable {γ : Type} [RandomSource γ]

/-- Links the main action at a position anew. -/
def relinkAt (s : Sampler) (i : Nat) (ind : Individual) : Attempt γ Individual :=
  match ind.main[i]? with
  | some a => do return (← Attempt.link ind (s.linker.relink a.id)).2
  | none => return ind

/-- Inserts a random action anywhere. -/
def addAction (s : Sampler) (ind : Individual) : Attempt γ Individual := do
  let a ← s.randomAction
  let i ← (Draw.count 0 ind.size : Draw γ Nat)
  if !ind.hasFreshId then (Draw.fault .overflow : Draw γ Unit)
  let (id, ind) := ind.insertMain i a
  return (← Attempt.link ind (s.linker.relink id)).2

/-- Removes any main action. -/
def removeAction (ind : Individual) : Attempt γ Individual := do
  let i ← (Draw.index ind.size : Draw γ Nat)
  match ind.removeMain i with
  | some (_, ind) => return ind
  | none => return ind

/-- Swaps any two main actions. -/
def swapActions (s : Sampler) (ind : Individual) : Attempt γ Individual := do
  let a ← (Draw.index ind.size : Draw γ Nat)
  let shift ← (Draw.integer .bits64 1 ((ind.size : Int) - 1) : Draw γ Int)
  let b := (a + shift.toNat) % ind.size
  match ind.swapMain a b with
  | .error e => throw (.action e)
  | .ok ind => do
    let ind ← relinkAt s a ind
    relinkAt s b ind

def applyOperator (s : Sampler) (ind : Individual) : Operator → Attempt γ Individual
  | .addAction => addAction s ind
  | .removeAction => removeAction ind
  | .swapActions => swapActions s ind
  | .gene | .unchanged => return ind

/-- Changes the sequence of actions by one of the operators. -/
def mutateStructure (s : Sampler) (operators : List (Operator × Double)) (ind : Individual) :
    Attempt γ Mutant := do
  let i ← (Draw.weighted (operators.map (·.2)) : Draw γ Nat)
  match operators[i]? with
  | some (operator, _) => do
    let individual ← applyOperator s ind operator
    return { individual, touched := [structureIdentity], operator }
  | none => (Draw.fault .outOfRange : Draw γ Mutant)

/-- Leaves out neighbours that are the same. -/
def withoutRepeats : List String → List String
  | [] => []
  | [x] => [x]
  | x :: y :: rest => if x = y then withoutRepeats (y :: rest) else x :: withoutRepeats (y :: rest)

/-- The identities of the nodes that are still there. -/
def identities (parameter : String) (t : GeneTree) (ids : List NodeId) :
    Except GeneError (List String) := do
  return withoutRepeats (← (ids.filter t.contains).mapM (geneIdentity parameter t))

/-- What steers the mutation of a parameter. -/
def steering (m : Mutator) (impacts : Option ImpactHistory) (parameter : String) : Steering :=
  match m.settings.records? impacts with
  | some h => h.steering parameter m.settings.staleThreshold m.settings.staleResizeStep
  | none => .uniform

/-- Changes the gene of a candidate. -/
def mutateGene (m : Mutator) (impacts : Option ImpactHistory) (c : Candidate) (ind : Individual) :
    Attempt γ Mutant := do
  match ind.action? c.action with
  | none => throw (.action (.unknownAction c.action))
  | some a =>
    match a.param? c.param with
    | none => throw (.action (.unknownParameter c.action c.param))
    | some p => do
      let parameter := parameterIdentity a p
      let change := RandomEdit.mutate m.settings.gene (m.steering impacts parameter) p.gene.root
      let (ids, t) ← Attempt.ofChange .gene (change.run p.gene)
      let touched ← Attempt.ofGene (identities parameter t ids)
      return { individual := ind.setGene c.action c.param t, touched, operator := .gene }

/-- Changes the gene of a candidate that is drawn. -/
def mutateCandidate (m : Mutator) (impacts : Option ImpactHistory) (candidates : List Candidate)
    (ind : Individual) : Attempt γ Mutant := do
  let weights ← (Draw.ofExcept (m.settings.candidateWeights impacts candidates) : Draw γ _)
  let i ← (Draw.weighted weights : Draw γ Nat)
  match candidates[i]? with
  | some c => m.mutateGene impacts c ind
  | none => (Draw.fault .outOfRange : Draw γ Mutant)

/-- Does the sequence of actions change, and not a gene? -/
def changesStructure (m : Mutator) (impacts : Option ImpactHistory) (candidates : List Candidate)
    (operators : List (Operator × Double)) : Draw γ Bool :=
  if operators.isEmpty then pure false
  else if candidates.isEmpty then pure true
  else Draw.chance (m.settings.structureChance impacts candidates)

/-- Changes the sequence of actions or one gene, if there is one to be changed. -/
def change (m : Mutator) (s : Sampler) (impacts : Option ImpactHistory) (parent : Individual) :
    Attempt γ Mutant := do
  let candidates ← Attempt.ofGene parent.candidates
  let operators :=
    if parent.structureMutable then m.possibleOperators parent.size s.settings.maxSize else []
  let structural ← (m.changesStructure impacts candidates operators : Draw γ Bool)
  if structural then mutateStructure s operators parent
  else if candidates.isEmpty then
    return { individual := parent, touched := [], operator := .unchanged }
  else m.mutateCandidate impacts candidates parent

/-- Makes a child of an individual. -/
def mutate (m : Mutator) (s : Sampler) (impacts : Option ImpactHistory) (identity : Nat)
    (parent : Individual) : Attempt γ Mutant := do
  let mutant ← m.change s impacts parent
  let (_, ind) ← Attempt.revise mutant.individual Revision.sync
  let descent := ind.descent.evolve mutant.operator.name identity
  return { mutant with individual := { ind with descent } }

end Mutator
end CallEvolution
