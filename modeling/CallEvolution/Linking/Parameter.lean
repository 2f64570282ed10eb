import CallEvolution.Linking.Body
import CallEvolution.Linking.Field

/-!
The links that give one parameter values from others. Path, form and header parameters take values from
parameters of the same role and name, query parameters from those of the same name; bodies are matched
field by field.
-/

namespace CallEvolution.Linker

open Matching

variable {γ : Type} [RandomSource γ]

/-- The first candidate that has a property, and the link from it. -/
def linkFrom (target : ParamSite) (candidate : Option ParamSite) :
    Except GeneError (List Link) := do
  match candidate with
  | some source => return [← valueLink source target]
  | none => return []

/-- The links that give `target` values from `candidates`. -/
def linksInto (r : Linker) (target : ParamSite) (candidates : List ParamSite) :
    Proposal γ (List Link) := do
  let allBodies := !candidates.isEmpty && candidates.all (·.param.isBody)
  match target.param.role with
  | .path | .form | .header =>
    let twin := candidates.find? fun c =>
      c.param.role = target.param.role && c.param.name = target.param.name
    match twin, candidates with
    | none, body :: _ =>
      if allBodies && target.param.role = .path then ofGene (linksWithBody body target false)
      else return []
    | twin, _ => ofGene (linkFrom target twin)
  | .query =>
    match allBodies, candidates with
    | true, body :: _ => ofGene (linksWithBody body target false)
    | _, _ =>
      ofGene (linkFrom target
        (candidates.find? fun c => !c.param.isBody && c.param.name = target.param.name))
  | .body =>
    let others := candidates.filter fun c => !c.param.isBody
    match others, candidates with
    | [], [] => return []
    | [], first :: _ => r.bodyLinks target first
    | others, _ => do
      let links ← ofGene (others.mapM fun c => linksWithBody target c true)
      return links.flatten
  | .dbColumn | .result => return []

end CallEvolution.Linker
