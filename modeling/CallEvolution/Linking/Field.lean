import CallEvolution.Linking.Key
import CallEvolution.Linking.Site

/-!
Links between a body and a parameter that is none, by the names of the body's fields.
-/

namespace CallEvolution.Matching

/-- A link between a gene of a body and one of another parameter. -/
def bodyLink (body : ParamSite) (bodyNode : NodeId) (other : ParamSite) (otherNode : NodeId)
    (bodyIsTarget : Bool) : Except GeneError Link :=
  if bodyIsTarget then orientedLink other otherNode body bodyNode
  else orientedLink body bodyNode other otherNode

/-- The value of the first field that goes by a name and has a variant. -/
def fieldCalled? (t : GeneTree) (type : Option String) (name : String) (v : Variant) :
    List NodeId → Except GeneError (Option NodeId)
  | [] => return none
  | f :: rest => do
    let value ← t.coreNode f
    if isFieldCalled (← t.name f) type name && (← t.variant value) = v then return some value
    else fieldCalled? t type name v rest

/-- Links by key: each gene of the other parameter and the body's gene with the same key, or else the
first whose key names the same thing. -/
def linksByKey (body other : ParamSite) (bodyIsTarget : Bool) :
    Except GeneError (List Link) := do
  let otherMap ← keyTable other.tree other.tokens
  let bodyMap ← keyTable body.tree body.tokens
  let pairs := otherMap.filterMap fun (key, otherNode) =>
    ((bodyMap.find? (·.1 = key)).or (bodyMap.find? fun m => nameDistance key m.1 = 0)).map
      fun m => (m.2, otherNode)
  pairs.mapM fun (bodyNode, otherNode) => bodyLink body bodyNode other otherNode bodyIsTarget

/-- Matches a body with a parameter that is none. A parameter whose name tells what it is belongs to
the field of that name; otherwise the genes of both are matched by key. -/
def linksWithBody (body other : ParamSite) (bodyIsTarget : Bool) :
    Except GeneError (List Link) := do
  let otherNode ← other.coreNode
  let name ← other.tree.name otherNode
  let variant ← other.tree.variant otherNode
  let bodyValue ← body.coreNode
  let field ←
    if isGeneral name then pure none
    else do
      match ← body.tree.gene bodyValue with
      | .object fields type => fieldCalled? body.tree type name variant fields
      | _ => pure none
  match field with
  | some field => return [← bodyLink body field other otherNode bodyIsTarget]
  | none => linksByKey body other bodyIsTarget

end CallEvolution.Matching
