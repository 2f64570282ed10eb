import CallEvolution.Individual.Link
import CallEvolution.Linking.Rank
import CallEvolution.Linking.Settings

/-!
Parameters with the place where they stand, and links between their genes.
-/

namespace CallEvolution

/-- A parameter and where it stands. -/
structure ParamSite where
  action : ActionId
  index : Nat
  param : Parameter
  path : Option PathTemplate

namespace ParamSite

/-- All parameters of an action. -/
def ofAction (a : Action) : List ParamSite :=
  a.params.zipIdx.map fun (p, i) => ⟨a.id, i, p, a.path?⟩

def tree (v : ParamSite) : GeneTree := v.param.gene

def address (v : ParamSite) (node : NodeId) : GeneAddress := ⟨v.action, v.index, node⟩

/-- The literal parts of the path, last one first. -/
def tokens (v : ParamSite) : List String :=
  match v.path with
  | some path => path.tokens.reverse
  | none => []

def coreNode (v : ParamSite) : Except GeneError NodeId := v.tree.coreNode v.tree.root

end ParamSite

namespace Matching

variable {γ : Type}

/-- Steps that look for links: they may draw random words and fail. -/
abbrev Proposal (γ : Type) := ExceptT LinkError (Draw γ)

def ofGene {α : Type} (r : Except GeneError α) : Proposal γ α :=
  ExceptT.mk (return r.mapError .gene)

/-- A value that is put into an optional goes to the optional itself, which makes it active. -/
def entryPoint (t : GeneTree) (id : NodeId) : Except GeneError NodeId := do
  match (← t.node id).parent with
  | some p => if (← t.variant p) = .optional then return p else return id
  | none => return id

/-- A link between two genes. Inside one action it is turned round if the target has the better
rank. -/
def orientedLink (source : ParamSite) (sourceNode : NodeId) (target : ParamSite)
    (targetNode : NodeId) : Except GeneError Link := do
  let reversed ←
    if source.action = target.action then do
      let s ← source.tree.variant sourceNode
      let t ← target.tree.variant targetNode
      pure (decide (direction s t none = .reversed))
    else pure false
  if reversed then
    let node ← entryPoint source.tree sourceNode
    return ⟨target.address targetNode, source.address node, .params⟩
  else
    let node ← entryPoint target.tree targetNode
    return ⟨source.address sourceNode, target.address node, .params⟩

/-- The link between the values of two whole parameters. -/
def valueLink (source target : ParamSite) : Except GeneError Link := do
  orientedLink source (← source.coreNode) target (← target.coreNode)

end Matching
end CallEvolution
