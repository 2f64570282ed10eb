import CallEvolution.Gene.Adopt
import CallEvolution.Individual.Basic

/-!
Registering links, and the pass that copies values along all of them in the order of registration.
-/

namespace CallEvolution

namespace Individual

def checkAddress (ind : Individual) (a : GeneAddress) : Except ActionError Unit := do
  let t ← ind.gene a.action a.param
  match t.node a.node with
  | .ok _ => return
  | .error e => throw (.gene e)

/-- Registers a link between genes that exist. It is turned away if it is there already, joins a gene
to itself or breaks the order of actions. -/
def addLink (ind : Individual) (l : Link) : Except ActionError (Bool × Individual) := do
  ind.checkAddress l.source
  ind.checkAddress l.target
  if l.source = l.target || ind.links.contains l || !ind.allows l then return (false, ind)
  else return (true, { ind with links := ind.links ++ [l] })

/-- The value at the source of a link, if the gene exists. -/
def sourceValue? (ind : Individual) (l : Link) : Option GeneTree :=
  match ind.gene l.source.action l.source.param with
  | .ok t => (t.extract l.source.node).toOption
  | .error _ => none

end Individual

namespace Revision

variable {γ : Type}

/-- Registers links in order and counts those that are taken. -/
def addLinks : List Link → Revision γ Nat
  | [] => return 0
  | l :: rest => do
    let (taken, ind) ← query (·.addLink l)
    set ind
    let count ← addLinks rest
    return (if taken then 1 else 0) + count

/-- Copies the value along a link. A source or target gene that is gone makes it do nothing. -/
def applyLink (l : Link) : Revision γ Bool := do
  match (← get).sourceValue? l with
  | none => return false
  | some source =>
    let target ← query (·.gene l.target.action l.target.param)
    if target.contains l.target.node then
      editGene l.target.action l.target.param
        (RandomEdit.lift (Edit.adopt l.target.node source source.root))
    else return false

/-- Applies links in order and counts those that had an effect. -/
def applyAll : List Link → Revision γ Nat
  | [] => return 0
  | l :: rest => do
    let applied ← applyLink l
    let count ← applyAll rest
    return (if applied then 1 else 0) + count

/-- Copies values along every link. -/
def sync : Revision γ Nat := do
  applyAll (← get).links

end Revision
end CallEvolution
