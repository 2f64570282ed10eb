import CallEvolution.Evaluation.Report
import CallEvolution.Random.Weighted

/-!
The archive keeps for each coverage target the best individual that was offered. It gives way only to a
better score, or to the same score reached by fewer main actions, so scores never fall.
-/

namespace CallEvolution

structure ArchiveSettings where
  /-- The score from which on a target counts as covered. -/
  coveredThreshold : Double := 1
  /-- The weight that a target gains in each iteration without improvement. -/
  stalenessWeight : Double := 0.1
  deriving DecidableEq

/-- The best individual for a target. -/
structure Holding where
  holder : Evaluated
  score : Double
  /-- How often the target changed hands, the first time included. -/
  improvements : Nat
  /-- The iteration in which the holder came in. -/
  lastImprovement : Nat
  deriving DecidableEq

structure Archive where
  settings : ArchiveSettings := {}
  holdings : Table Holding := []
  iteration : Nat := 0
  deriving DecidableEq

/-- What an offer changed. -/
structure Improvement where
  /-- The targets that the individual holds now. -/
  targets : List String := []
  /-- The sum of what the scores gained. -/
  gain : Double := 0
  deriving DecidableEq

def Improvement.isReal (i : Improvement) : Bool := !i.targets.isEmpty

namespace Archive

/-- Counts an iteration. -/
def tick (a : Archive) : Archive := { a with iteration := a.iteration + 1 }

def bestScore? (a : Archive) (target : String) : Option Double :=
  (a.holdings.at? target).map (·.score)

/-- Does a score reached by `size` actions take a target over? -/
def yields (a : Archive) (target : String) (score : Double) (size : Nat) : Bool :=
  match a.holdings.at? target with
  | none => true
  | some h => h.score < score || (score.same h.score && size < h.holder.size)

/-- Would the individual take over some target? -/
def wouldImprove (a : Archive) (e : Evaluated) : Bool :=
  e.scores.any fun (target, score) => a.yields target score e.size

/-- Hands a target over. -/
def handOver (a : Archive) (target : String) (score : Double) (e : Evaluated) : Archive :=
  let improvements := ((a.holdings.at? target).map (·.improvements)).getD 0 + 1
  let holding := { holder := e, score, improvements, lastImprovement := a.iteration }
  { a with holdings := a.holdings.put target holding }

/-- Offers an individual for one target. A score that is no finite number is passed over. -/
def offerFor (e : Evaluated) (state : Improvement × Archive) (entry : String × Double) :
    Improvement × Archive :=
  let (i, a) := state
  let (target, score) := entry
  if score.isFinite && a.yields target score e.size then
    let gain := score - (a.bestScore? target).getD 0
    (⟨i.targets ++ [target], i.gain + gain⟩, a.handOver target score e)
  else (i, a)

/-- Offers an individual for every target that it reached. -/
def offer (a : Archive) (e : Evaluated) : Improvement × Archive :=
  e.scores.foldl (offerFor e) ({}, a)

def isCovered (a : Archive) (h : Holding) : Bool := a.settings.coveredThreshold ≤ h.score

/-- The weight of a target in the draw of a parent. Targets without recent improvement weigh more,
targets that changed hands often less. -/
def weight (a : Archive) (h : Holding) : Double :=
  (1 + Binary.ofInt (a.iteration - h.lastImprovement : Nat) * a.settings.stalenessWeight) /
    Binary.ofInt (1 + h.improvements : Nat)

/-- The holdings that parents are drawn from: those of uncovered targets if there are any. -/
def pool (a : Archive) : List Holding :=
  let uncovered := a.holdings.values.filter (!a.isCovered ·)
  if uncovered.isEmpty then a.holdings.values else uncovered

/-- Draws an individual to start from. -/
def sample {γ : Type} [RandomSource γ] (a : Archive) : Draw γ (Option Evaluated) :=
  if a.pool.isEmpty then pure none
  else do
    let i ← Draw.weighted (a.pool.map a.weight)
    match a.pool[i]? with
    | some h => return some h.holder
    | none => Draw.fault .outOfRange

def coveredTargets (a : Archive) : List String :=
  (a.holdings.filter fun entry => a.isCovered entry.2).map (·.1)

/-- The part of the known targets that is covered. -/
def coverage (a : Archive) : Double :=
  if a.holdings.isEmpty then 0
  else Binary.ofInt (a.coveredTargets.length : Nat) / Binary.ofInt (a.holdings.length : Nat)

/-- Drops holders of an identity that is in front already. -/
def distinct : List Nat → List Evaluated → List Evaluated
  | _, [] => []
  | seen, e :: rest =>
    if seen.contains e.individual.descent.id then distinct seen rest
    else e :: distinct (e.individual.descent.id :: seen) rest

/-- The individuals that cover the covered targets, each once. -/
def solution (a : Archive) : List Evaluated :=
  distinct [] ((a.holdings.values.filter a.isCovered).map (·.holder))

end Archive
end CallEvolution
