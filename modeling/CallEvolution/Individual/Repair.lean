import CallEvolution.Gene.Adopt
import CallEvolution.Gene.Traversal
import CallEvolution.Individual.Basic

/-!
Foreign keys of the initializing actions. Each has to equal a primary key of an earlier row of its
table, or may be null where that is allowed; repair sees to it, and removes rows that cannot be mended.
-/

namespace CallEvolution

/-- A foreign key and where it stands. -/
structure KeyReference where
  param : Nat
  node : NodeId
  table : String
  value : Option Int64
  nullable : Bool

namespace Action

/-- The nodes of a gene tree that belong to its value, in pre-order. -/
def valueNodes (t : GeneTree) : List (NodeId × GeneNode) := t.preorder t.root fun _ => false

/-- The foreign keys of an action, in order. -/
def keyReferences (a : Action) : List KeyReference :=
  a.params.zipIdx.flatMap fun (p, i) =>
    (valueNodes p.gene).filterMap fun (id, n) =>
      match n.gene with
      | .foreignKey table value nullable => some ⟨i, id, table, value, nullable⟩
      | _ => none

/-- The number that a primary key prints as, if it has 64 bits. -/
def keyNumber? (t : GeneTree) (id : NodeId) : Option Int64 :=
  match t.printable id with
  | .ok s => (Decimal.integer? s).bind int64?
  | .error _ => none

/-- The whole-number primary keys of an action, in order. -/
def primaryKeys (a : Action) : List Int64 :=
  a.params.flatMap fun p =>
    (valueNodes p.gene).filterMap fun (id, n) =>
      match n.gene with
      | .primaryKey .. => keyNumber? p.gene id
      | _ => none

end Action

namespace Individual

/-- The primary keys that earlier rows give to a table. -/
def keysOf (earlier : List Action) (table : String) : List Int64 :=
  (earlier.filter fun a => a.table? = some table).flatMap Action.primaryKeys

/-- Does a key point at an earlier row, or is it rightly null? -/
def isSatisfied (earlier : List Action) (k : KeyReference) : Bool :=
  match k.value with
  | some v => (keysOf earlier k.table).contains v
  | none => k.nullable

def verifyFrom (earlier : List Action) : List Action → Bool
  | [] => true
  | a :: rest => a.keyReferences.all (isSatisfied earlier) && verifyFrom (earlier ++ [a]) rest

/-- Are all foreign keys of the initializing actions in order? -/
def verify (ind : Individual) : Bool := verifyFrom [] ind.init

/-- Gives a foreign key another value. -/
def setKey (a : Action) (k : KeyReference) (value : Option Int64) : Action :=
  match a.param? k.param with
  | some p => a.setGene k.param (p.gene.setGene k.node (.foreignKey k.table value k.nullable))
  | none => a

variable {γ : Type} [RandomSource γ]

/-- Mends the foreign keys of a row in order; no row is left if one of them cannot be mended. The
second part says whether a key was given another value. -/
def mendKeys (earlier : List Action) (a : Action) :
    List KeyReference → Draw γ (Option Action × Bool)
  | [] => return (some a, false)
  | k :: rest => do
    if isSatisfied earlier k then mendKeys earlier a rest
    else
      let keys := keysOf earlier k.table
      if keys.isEmpty && !k.nullable then return (none, false)
      let value ← if keys.isEmpty then pure none else (keys[·]?) <$> Draw.index keys.length
      let (mended, _) ← mendKeys earlier (setKey a k value) rest
      return (mended, true)

/-- Mends the rows behind `earlier`; gives all rows that are left, the ids of those that are removed,
and whether anything changed. -/
def repairFrom (earlier : List Action) :
    List Action → Draw γ (List Action × List ActionId × Bool)
  | [] => return (earlier, [], false)
  | a :: rest => do
    match ← mendKeys earlier a a.keyReferences with
    | (some mended, changed) =>
      let (rows, removed, changedLater) ← repairFrom (earlier ++ [mended]) rest
      return (rows, removed, changed || changedLater)
    | (none, _) =>
      let (rows, removed, _) ← repairFrom earlier rest
      return (rows, a.id :: removed, true)

/-- Points dangling foreign keys at earlier rows, makes them null where that is allowed, or else
removes their row with all its links. The answer says whether anything changed. -/
def repair (ind : Individual) : Draw γ (Bool × Individual) := do
  let (init, removed, changed) ← repairFrom [] ind.init
  let ind := removed.foldl detach { ind with init }
  return (changed, { ind with removedByRepair := ind.removedByRepair || !removed.isEmpty })

end Individual
end CallEvolution
