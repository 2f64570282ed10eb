import CallEvolution.Evaluation.Evaluator
import CallEvolution.Gene.Render
import CallEvolution.Gene.Traversal

/-!
A simulated system. Every call covers a target of its name; whole numbers add targets that are near
when the number is near a positive one; path parameters that repeat a value of an earlier action add a
target for the thing they found.
-/

namespace CallEvolution

structure Simulation where
  /-- The names of actions that fail without authentication. -/
  restricted : List String := []
  /-- Every so many calls one fails as a whole. -/
  failureEvery : Option Nat := none
  /-- The milliseconds that a call takes. -/
  delay : Nat := 0

namespace Simulation

/-- How near a whole number is to a positive one. -/
def nearness (v : Int) : Double :=
  if 0 < v then 1 else 1 / (2 + Binary.ofInt v.natAbs)

def wholeNumber? : Gene → Option Int
  | .integer value _ _ => some value.toInt
  | .long value _ _ => some value.toInt
  | _ => none

/-- The targets of the whole numbers of a parameter. -/
def numberScores (name : String) (index : Nat) (t : GeneTree) : List TargetScore :=
  (t.preorder t.root fun _ => false).filterMap fun (id, n) =>
    (wholeNumber? n.gene).map fun v =>
      let path := (t.pathOf id).toOption.getD ""
      .ofRaw (name ++ "::" ++ path ++ ">0") (nearness v) index

/-- Does a path parameter repeat one of the values? -/
def isFound (p : Parameter) (earlier : List String) : Bool :=
  p.role = .path &&
    match p.gene.variant p.gene.root, p.gene.printable p.gene.root with
    | .ok v, .ok text => v ≠ .object && earlier.contains text
    | _, _ => false

def parameterScores (name : String) (index : Nat) (earlier : List String) (p : Parameter) :
    List TargetScore :=
  numberScores name index p.gene ++
    if isFound p earlier then [.ofRaw (name ++ "::" ++ p.name ++ "::found") 1 index] else []

/-- The targets of an action, given the values of those before it. -/
def actionScores (index : Nat) (earlier : List String) (a : Action) : List TargetScore :=
  .ofRaw a.name 1 index :: a.params.flatMap (parameterScores a.name index earlier)

/-- The texts of all genes of an action that have no genes below them. -/
def produced (a : Action) : List String :=
  a.params.flatMap fun p =>
    (p.gene.preorder p.gene.root fun _ => false).filterMap fun (id, n) =>
      if n.gene.children.isEmpty && !n.variant.isPlaceholder then (p.gene.printable id).toOption
      else none

/-- Executes main actions from a position on. -/
def execute (s : Simulation) : Nat → List String → List Action → Report
  | _, _, [] => ⟨[], []⟩
  | index, earlier, a :: rest =>
    let (result, scores, values) :=
      if !a.countsForFitness then (CallResult.success, [], [])
      else if s.restricted.contains a.name && a.auth?.isNone then
        (.failure, [TargetScore.ofRaw (a.name ++ "::unauthorized") 1 index], [])
      else (.success, actionScores index earlier a, produced a)
    let later := execute s (index + 1) (earlier ++ values) rest
    ⟨result :: later.results, scores ++ later.coverage⟩

/-- The report on an individual. -/
def report (s : Simulation) (ind : Individual) : Report :=
  s.execute 0 (ind.init.flatMap produced) ind.main

/-- Does a call fail as a whole? -/
def fails (s : Simulation) (call : Nat) : Bool :=
  match s.failureEvery with
  | some n => call % max n 1 = 0
  | none => false

/-- The simulation as an evaluator that counts its calls. -/
def evaluator (s : Simulation) : Evaluator Nat where
  name := "simulated"
  call ind calls :=
    let call := calls + 1
    let result :=
      if s.fails call then .error (.transport ("connection reset on call " ++ toString call))
      else .ok (s.report ind)
    (⟨result, s.delay⟩, call)

end Simulation
end CallEvolution
