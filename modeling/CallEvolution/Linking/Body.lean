import CallEvolution.Linking.Key
import CallEvolution.Linking.Linker
import CallEvolution.Linking.Site

/-!
Links between two bodies. Fields take values from fields of the same variant whose names, qualified
where they say nothing alone, are the same or similar.
-/

namespace CallEvolution.Linker

open Matching

variable {γ : Type} [RandomSource γ]

/-- The first field of a body that takes the value of a body that is no object. -/
def fieldFor? (r : Linker) (t : GeneTree) (object : NodeId) (name : String) (v : Variant) :
    List NodeId → Except GeneError (Option NodeId)
  | [] => return none
  | f :: rest => do
    let qualified ← qualifiedName t object f
    if (← t.variant f) = v && (Text.sameLetters (← t.name f) name || r.isSimilar qualified name) then
      return some f
    else fieldFor? r t object name v rest

/-- The value of the first field of an object that matches a name and a variant. -/
def matchingField? (r : Linker) (t : GeneTree) (object : NodeId) (name : String)
    (v : Variant) : List NodeId → Except GeneError (Option NodeId)
  | [] => return none
  | f :: rest => do
    let value ← t.coreNode f
    if (← t.variant value) ≠ v then matchingField? r t object name v rest
    else if r.namesMatch name (← qualifiedName t object value) then return some value
    else matchingField? r t object name v rest

/-- Does a field take part in the matching? An inactive optional does by chance. -/
def isEligible (r : Linker) (g : Gene) : Draw γ Bool :=
  match g with
  | .optional _ false => Draw.chance r.config.inactiveOptionalProbability
  | _ => pure true

/-- Collects the links of all fields in order. -/
def collectLinks (linksOf : NodeId → Proposal γ (List Link)) :
    List NodeId → Proposal γ (List Link)
  | [] => return []
  | f :: rest => do
    let links ← linksOf f
    return links ++ (← collectLinks linksOf rest)

def objectLinksWithin (r : Linker) (target source : ParamSite) :
    Nat → NodeId → NodeId → Proposal γ (List Link)
  | 0, id, _ => throw (.gene (.cyclicOwnership id))
  | depth + 1, targetObject, sourceObject => do
    let linksOf (f : NodeId) : Proposal γ (List Link) := do
      if !(← (r.isEligible (← ofGene (target.tree.gene f)) : Draw γ Bool)) then return []
      let value ← ofGene (target.tree.coreNode f)
      let variant ← ofGene (target.tree.variant value)
      let name ← ofGene (qualifiedName target.tree targetObject value)
      let fields ← ofGene (source.tree.children sourceObject)
      match ← ofGene (r.matchingField? source.tree sourceObject name variant fields) with
      | none => return []
      | some found =>
        if variant = .object then objectLinksWithin r target source depth value found
        else return [← ofGene (orientedLink source found target value)]
    collectLinks linksOf (← ofGene (target.tree.children targetObject))

/-- Matches two objects: fields take values from fields of the same variant whose names match, and
objects inside are matched in turn. Objects that own each other are matched again until the draws
leave an inactive optional out. -/
def objectLinks (r : Linker) (target : ParamSite) (targetObject : NodeId)
    (source : ParamSite) (sourceObject : NodeId) : Proposal γ (List Link) :=
  objectLinksWithin r target source (target.tree.pairBound source.tree + Draw.redrawLimit)
    targetObject sourceObject

/-- Matches two bodies. -/
def bodyLinks (r : Linker) (target candidate : ParamSite) :
    Proposal γ (List Link) := do
  let targetValue ← ofGene target.coreNode
  let sourceValue ← ofGene candidate.coreNode
  if (← ofGene (target.tree.variant targetValue)) ≠ .object then return []
  let variant ← ofGene (candidate.tree.variant sourceValue)
  if variant = .object then r.objectLinks target targetValue candidate sourceValue
  else
    let name ← ofGene (candidate.tree.name sourceValue)
    let fields ← ofGene (target.tree.children targetValue)
    match ← ofGene (r.fieldFor? target.tree targetValue name variant fields) with
    | some f => return [← ofGene (orientedLink candidate sourceValue target f)]
    | none => return []

end CallEvolution.Linker
