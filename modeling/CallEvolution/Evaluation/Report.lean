import CallEvolution.Individual.Basic

/-!
Reports of evaluations: what became of the calls and how near the individual came to each coverage
target. Scores lie in `[0, 1]`, and one means that the target is covered.
-/

namespace CallEvolution

/-- What became of one main action. -/
inductive CallResult where
  | success
  /-- The tested system turned the call down. -/
  | failure
  /-- The call was not delivered, and no later one was made. -/
  | transportError
  deriving DecidableEq

/-- A score as it counts: inside `[0, 1]`, and zero if it is no finite number. -/
def normalizedScore (score : Double) : Double := if score.isFinite then score.clamp 0 1 else 0

structure TargetScore where
  target : String
  score : Double
  /-- The position of the main action that reached the target. -/
  action : Nat
  deriving DecidableEq

def TargetScore.ofRaw (target : String) (score : Double) (action : Nat) : TargetScore :=
  ⟨target, normalizedScore score, action⟩

structure Report where
  results : List CallResult
  coverage : List TargetScore
  deriving DecidableEq

namespace Report

/-- Keeps the better one of an old and a new score. -/
def keepBest (best : Table Double) (target : String) (score : Double) : Table Double :=
  match best.at? target with
  | some old => if old < score then best.put target score else best
  | none => best.put target score

/-- The best score of each target. -/
def scores (r : Report) : Table Double :=
  r.coverage.foldl (fun best t => keepBest best t.target (normalizedScore t.score)) []

/-- Did the execution end before the last action? -/
def stoppedEarly (r : Report) : Bool := r.results.contains .transportError

end Report

/-- An individual with the report of its evaluation. -/
structure Evaluated where
  individual : Individual
  report : Report
  deriving DecidableEq

namespace Evaluated

def scores (e : Evaluated) : Table Double := e.report.scores

def score? (e : Evaluated) (target : String) : Option Double := e.scores.at? target

def size (e : Evaluated) : Nat := e.individual.size

end Evaluated
end CallEvolution
