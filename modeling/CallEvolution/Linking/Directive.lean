import CallEvolution.Linking.Sequence

/-!
Directives that join the columns of inserted rows to parameters of main actions.
-/

namespace CallEvolution

structure DbDirective where
  table : String
  column : String
  /-- The name of the parameter. -/
  param : String
  /-- Does the column belong to a field of the parameter? -/
  intoField : Bool := false
  /-- The name of the field, where it is not that of the column. -/
  field : Option String := none
  deriving DecidableEq

namespace Matching

/-- The gene of a parameter that a directive speaks of. -/
def directedNode? (d : DbDirective) (t : GeneTree) : Except GeneError (Option NodeId) := do
  let value ← t.coreNode t.root
  if !d.intoField then return some value
  if (← t.variant value) ≠ .object then return none
  match ← t.field value (d.field.getD d.column) with
  | some f => return some (← t.coreNode f)
  | none => return none

/-- The link between a column and a parameter, as the ranks of their genes have it. A row that exists
already is the source. -/
def directedLink? (d : DbDirective) (row a : Action) (column : Nat × Parameter)
    (param : Nat × Parameter) : Except GeneError (Option Link) := do
  match ← directedNode? d param.2.gene with
  | none => return none
  | some node =>
    let columnTree := column.2.gene
    let columnAddress : GeneAddress := ⟨row.id, column.1, columnTree.root⟩
    let existing := if row.isExisting then some ExistingSide.source else none
    let columnVariant ← columnTree.variant columnTree.root
    match direction columnVariant (← param.2.gene.variant node) existing with
    | .asProposed =>
      let target ← entryPoint param.2.gene node
      return some ⟨columnAddress, ⟨a.id, param.1, target⟩, .database⟩
    | .reversed => return some ⟨⟨a.id, param.1, node⟩, columnAddress, .database⟩

/-- The first parameter that satisfies a condition, with its position. -/
def findParam (a : Action) (p : Parameter → Bool) : Option (Nat × Parameter) := do
  let i ← a.params.findIdx? p
  return (i, ← a.param? i)

/-- The link that a directive makes, if the last row of its table, the column and the parameter are
there. -/
def linkOfDirective? (ind : Individual) (a : Action) (d : DbDirective) :
    Except GeneError (Option Link) :=
  let parts := do
    let row ← ind.init.reverse.find? fun r => r.table? = some d.table
    let column ← findParam row fun p => p.role = .dbColumn && p.name = d.column
    let param ← findParam a fun p => p.name = d.param
    return (row, column, param)
  match parts with
  | some (row, column, param) => directedLink? d row a column param
  | none => .ok none

end Matching

namespace Linker

variable {γ : Type}

/-- May directives name a table? -/
def knowsTable (r : Linker) (table : String) : Bool :=
  match r.knownTables with
  | some tables => tables.contains table
  | none => true

/-- The links that directives make, in their order. -/
def directedLinks (r : Linker) (ind : Individual) (a : Action) :
    List DbDirective → Except LinkError (List Link)
  | [] => return []
  | d :: rest => do
    if !r.knowsTable d.table then throw (.unknownTable d.table)
    let link ← (Matching.linkOfDirective? ind a d).mapError .gene
    let links ← directedLinks r ind a rest
    return link.toList ++ links

/-- Links rows to the parameters of an action, and counts the links that are new. -/
def linkRows (r : Linker) (id : ActionId) (directives : List DbDirective) :
    Linking γ Nat := do
  let ind ← get
  match ind.action? id with
  | none => throw (.action (.unknownAction id))
  | some a =>
    let links ← ExceptT.mk (return r.directedLinks ind a directives)
    Linking.revise (Revision.addLinks links)

end Linker
end CallEvolution
