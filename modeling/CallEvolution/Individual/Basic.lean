import CallEvolution.Action.Error
import CallEvolution.Individual.Link

/-!
Individuals: candidate tests. Initializing actions come before the main actions; links keep related
genes equal. Every change that moves actions drops the links whose order no longer holds.
-/

namespace CallEvolution

/-- How an individual came about. -/
inductive Provenance where
  | random
  | smart
  | seeded
  deriving DecidableEq

/-- The descent of an individual. Identities are numbers that the caller does not use twice. -/
structure Descent where
  id : Nat
  lineage : Nat
  parent : Option Nat
  /-- The operators that led here, first one first. -/
  operators : List String
  deriving DecidableEq

namespace Descent

def new (identity : Nat) : Descent :=
  { id := identity, lineage := identity, parent := none, operators := [] }

/-- The descent of a copy that an operator changed. -/
def evolve (t : Descent) (operator : String) (identity : Nat) : Descent :=
  { t with id := identity, parent := some t.id, operators := t.operators ++ [operator] }

end Descent

/-- The position of an action. -/
inductive ActionPosition where
  | init (index : Nat)
  | main (index : Nat)
  deriving DecidableEq

namespace ActionPosition

/-- Initializing actions come before main actions. -/
def notAfter : ActionPosition → ActionPosition → Bool
  | init i, init j => i ≤ j
  | init _, main _ => true
  | main _, init _ => false
  | main i, main j => i ≤ j

def isMain : ActionPosition → Bool
  | main _ => true
  | init _ => false

end ActionPosition

structure Individual where
  init : List Action
  main : List Action
  /-- The links in the order of their registration. -/
  links : List Link
  descent : Descent
  provenance : Provenance
  structureMutable : Bool
  /-- Did a repair remove rows? -/
  removedByRepair : Bool
  nextId : Nat
  deriving DecidableEq

namespace Individual

def new (provenance : Provenance) (identity : Nat) : Individual where
  init := []
  main := []
  links := []
  descent := .new identity
  provenance := provenance
  structureMutable := true
  removedByRepair := false
  nextId := 1

/-- All actions, initializing ones first. -/
def actions (ind : Individual) : List Action := ind.init ++ ind.main

/-- The number of main actions. -/
def size (ind : Individual) : Nat := ind.main.length

def position? (ind : Individual) (id : ActionId) : Option ActionPosition :=
  match ind.init.findIdx? (·.id = id) with
  | some i => some (.init i)
  | none => (ind.main.findIdx? (·.id = id)).map .main

def action? (ind : Individual) (id : ActionId) : Option Action := ind.actions.find? (·.id = id)

/-- Can an action be added? Ids have 64 bits, and one that is not used up has to be left. -/
def hasFreshId (ind : Individual) : Bool := ind.nextId + 1 < twoPow 64

/-- The id of the next action, which is then used up. -/
def freshId (ind : Individual) : ActionId × Individual :=
  (⟨ind.nextId⟩, { ind with nextId := ind.nextId + 1 })

def addInit (ind : Individual) (a : Action) : ActionId × Individual :=
  let (id, ind) := ind.freshId
  (id, { ind with init := ind.init ++ [{ a with id }] })

def addMain (ind : Individual) (a : Action) : ActionId × Individual :=
  let (id, ind) := ind.freshId
  (id, { ind with main := ind.main ++ [{ a with id }] })

/-- May the target take its value from the source? Along a parameter link values flow from earlier
actions to later ones or within an action. A database link joins a row and a main action in either
direction, since its values are aligned before anything runs. -/
def allows (ind : Individual) (l : Link) : Bool :=
  match ind.position? l.source.action, ind.position? l.target.action with
  | some source, some target =>
    match l.origin with
    | .params => source.notAfter target
    | .database => !(source.isMain && target.isMain)
  | _, _ => false

def keepOrdered (ind : Individual) : Individual :=
  { ind with links := ind.links.filter ind.allows }

/-- Inserts a main action; a position behind the end stands for the end. -/
def insertMain (ind : Individual) (index : Nat) (a : Action) : ActionId × Individual :=
  let (id, ind) := ind.freshId
  let main := ind.main.take index ++ { a with id } :: ind.main.drop index
  (id, { ind with main }.keepOrdered)

def linksAt (ind : Individual) (id : ActionId) : List Link :=
  ind.links.filter (·.involves id)

def detach (ind : Individual) (id : ActionId) : Individual :=
  { ind with links := ind.links.filter fun l => !l.involves id }

def withoutLinks (ind : Individual) : Individual := { ind with links := [] }

/-- Removes a main action and every link that touches it. -/
def removeMain (ind : Individual) (index : Nat) : Option (Action × Individual) :=
  match ind.main[index]? with
  | some a => some (a, { ind with main := ind.main.eraseIdx index }.detach a.id)
  | none => none

/-- Swaps two main actions. -/
def swapMain (ind : Individual) (a b : Nat) : Except ActionError Individual :=
  match ind.main[a]?, ind.main[b]? with
  | some x, some y => .ok { ind with main := (ind.main.set a y).set b x }.keepOrdered
  | _, _ => .error (.swapOutOfRange a b ind.main.length)

/-- The gene tree of a parameter. -/
def gene (ind : Individual) (id : ActionId) (param : Nat) : Except ActionError GeneTree :=
  match ind.action? id with
  | none => .error (.unknownAction id)
  | some a =>
    match a.param? param with
    | none => .error (.unknownParameter id param)
    | some p => .ok p.gene

/-- Changes the first action with an id. -/
def modifyFirst (id : ActionId) (f : Action → Action) : List Action → List Action
  | [] => []
  | a :: rest => if a.id = id then f a :: rest else a :: modifyFirst id f rest

def modifyAction (ind : Individual) (id : ActionId) (f : Action → Action) : Individual :=
  if ind.init.any (·.id = id) then { ind with init := modifyFirst id f ind.init }
  else { ind with main := modifyFirst id f ind.main }

/-- Gives a parameter another gene tree. -/
def setGene (ind : Individual) (id : ActionId) (param : Nat) (t : GeneTree) : Individual :=
  ind.modifyAction id (·.setGene param t)

end Individual

/-- Steps that may change an individual and draw random words. What a failing step leaves behind is
kept. -/
abbrev Revision (γ : Type) := ExceptT ActionError (StateT Individual (Draw γ))

namespace Revision

variable {γ : Type}

/-- Looks at the individual. -/
def query {α : Type} (q : Individual → Except ActionError α) : Revision γ α := do
  ExceptT.mk (return q (← get))

/-- Runs a change on the gene tree of a parameter. -/
def editGene {α : Type} (id : ActionId) (param : Nat) (m : RandomEdit γ α) : Revision γ α := do
  let t ← query (·.gene id param)
  let (result, t) ← (StateT.lift (m.run t) : StateT Individual (Draw γ) _)
  modify (·.setGene id param t)
  ExceptT.mk (return result.mapError .gene)

/-- Gives all genes random values. -/
def randomize [RandomSource γ] : Revision γ Unit := do
  let ind ← get
  let (result, init) ← (StateT.lift (Action.randomizeAll ind.init) : StateT Individual (Draw γ) _)
  match result with
  | .error e => do
    set { ind with init }
    throw (.gene e)
  | .ok () => do
    let (result, main) ← (StateT.lift (Action.randomizeAll ind.main) : StateT Individual (Draw γ) _)
    set { ind with init, main }
    ExceptT.mk (return result.mapError .gene)

end Revision
end CallEvolution
