import CallEvolution.Evaluation.Evaluator
import CallEvolution.Variation.Mutator

/-!
The search. Each step takes a fresh individual or a child of an archived one, has it evaluated, offers it
to the archive and records the impact of the mutation. A step whose evaluation fails leaves archive and
records alone.
-/

namespace CallEvolution

/-- The parts of a search that do not change. -/
structure Search (σ : Type) where
  settings : SearchSettings
  sampler : Sampler
  mutator : Mutator
  evaluator : Evaluator σ

/-- How far a search has come. -/
structure SearchState (σ : Type) where
  archive : Archive
  impacts : ImpactHistory := {}
  /-- The state of the evaluator. -/
  evaluator : σ
  evaluations : Nat := 0
  /-- The evaluations that failed. -/
  abandoned : Nat := 0
  /-- The identity of the next individual. -/
  nextIdentity : Nat := 0

/-- What one step did. -/
inductive StepOutcome where
  | evaluated (improved : Nat) (mutated : Bool)
  | abandoned (error : EvaluationError)
  deriving DecidableEq

structure SearchSummary where
  evaluations : Nat
  abandoned : Nat
  targets : Nat
  covered : Nat
  coverage : Double
  deriving DecidableEq

/-- Steps of a search. What a failing step has done stays done. -/
abbrev Progress (σ γ : Type) := ExceptT SearchError (StateT (SearchState σ) (Draw γ))

namespace Progress

variable {σ γ α : Type}

def draw (m : Draw γ α) : Progress σ γ α := ExceptT.lift (StateT.lift m)

def attempt (m : Attempt γ α) : Progress σ γ α := ExceptT.mk (StateT.lift m.run)

end Progress

/-- An individual to be evaluated, and of a child also where it comes from. -/
structure Trial where
  individual : Individual
  /-- The report on the parent and what the mutation touched. -/
  lineage : Option (Report × List String)

namespace Search

variable {σ γ : Type}

def new (settings : SearchSettings) (sampler : Sampler) (evaluator : Evaluator σ) :
    Except SettingsError (Search σ) := do
  settings.validate
  return { settings, sampler, evaluator, mutator := ← Mutator.new settings.mutator }

/-- The state before the first step. -/
def start (s : Search σ) (evaluator : σ) : SearchState σ where
  archive := { settings := s.settings.archive }
  evaluator := evaluator

variable [RandomSource γ]

/-- The archived individual to mutate, if one is to be mutated. -/
def drawParent (s : Search σ) (archive : Archive) : Draw γ (Option Evaluated) := do
  if archive.holdings.isEmpty then return none
  if ← Draw.chance s.settings.freshProbability then return none
  archive.sample

/-- The individual of the next evaluation. -/
def drawTrial (s : Search σ) (state : SearchState σ) : Attempt γ Trial := do
  match ← (s.drawParent state.archive : Draw γ (Option Evaluated)) with
  | none => do
    let individual ← s.sampler.individual state.nextIdentity
    return { individual, lineage := none }
  | some parent => do
    let mutant ←
      s.mutator.mutate s.sampler (some state.impacts) state.nextIdentity parent.individual
    return { individual := mutant.individual, lineage := some (parent.report, mutant.touched) }

/-- Evaluates an individual. -/
def evaluate (s : Search σ) (ind : Individual) (state : SearchState σ) :
    Except EvaluationError Report × SearchState σ :=
  let (answer, evaluator) := s.evaluator.call ind state.evaluator
  (answer.within s.settings.timeout, { state with
    evaluator, evaluations := state.evaluations + 1, nextIdentity := state.nextIdentity + 1 })

/-- The impacts after the evaluation of a child. -/
def recordLineage (impacts : ImpactHistory) (lineage : Option (Report × List String))
    (report : Report) (i : Improvement) : Except Fault ImpactHistory :=
  match lineage with
  | none => .ok impacts
  | some (parent, touched) =>
    impacts.record touched (.between parent.scores report.scores i.isReal i.gain)

/-- Evaluates one individual, and takes in what it reached. -/
def step (s : Search σ) : Progress σ γ StepOutcome := do
  modify fun state => { state with archive := state.archive.tick }
  let trial ← Progress.attempt (s.drawTrial (← get))
  let (answer, state) := s.evaluate trial.individual (← get)
  match answer with
  | .error e => do
    set { state with abandoned := state.abandoned + 1 }
    return .abandoned e
  | .ok report => do
    let (improvement, archive) := state.archive.offer ⟨trial.individual, report⟩
    let impacts ← Progress.draw
      (Draw.ofExcept (recordLineage state.impacts trial.lineage report improvement))
    set { state with archive, impacts }
    return .evaluated improvement.targets.length trial.lineage.isSome

/-- Takes a number of steps. -/
def steps (s : Search σ) : Nat → Progress σ γ Unit
  | 0 => return
  | n + 1 => do
    let _ ← s.step
    steps s n

omit [RandomSource γ] in
def summary (state : SearchState σ) : SearchSummary where
  evaluations := state.evaluations
  abandoned := state.abandoned
  targets := state.archive.holdings.length
  covered := state.archive.coveredTargets.length
  coverage := state.archive.coverage

/-- Takes steps until there have been as many evaluations as are allowed. -/
def run (s : Search σ) : Progress σ γ SearchSummary := do
  s.steps (s.settings.maxEvaluations - (← get).evaluations)
  return summary (← get)

end Search
end CallEvolution
