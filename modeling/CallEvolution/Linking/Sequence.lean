import CallEvolution.Individual.Sync
import CallEvolution.Linking.Parameter

/-!
Links between the main actions of an individual: each takes values from those before it.
-/

namespace CallEvolution

namespace Linker

open Matching

variable {γ : Type} [RandomSource γ]

/-- The links that give the parameters of an action values from an earlier one. -/
def linksBetween (r : Linker) (earlier : Action) (target : ParamSite) :
    Proposal γ (List Link) :=
  r.linksInto target (ParamSite.ofAction earlier)

/-- The proposals for parameters against actions, all actions for one parameter at a time. -/
def proposals (r : Linker) : List ParamSite → List Action → Proposal γ (List Link)
  | [], _ => return []
  | target :: targets, earlier => do
    let links ← earlier.mapM fun a => r.linksBetween a target
    return links.flatten ++ (← proposals r targets earlier)

/-- The proposals for all actions against the actions before them. -/
def allProposals (r : Linker) (earlier : List Action) :
    List Action → Proposal γ (List Link)
  | [] => return []
  | a :: rest => do
    let links ← r.proposals (ParamSite.ofAction a) earlier
    return links ++ (← allProposals r (earlier ++ [a]) rest)

/-- The proposals for one main action against those before it, and for those behind it against it. -/
def proposalsAround (r : Linker) (before : List Action) (a : Action) (after : List Action) :
    Proposal γ (List Link) := do
  let links ← r.proposals (ParamSite.ofAction a) before
  let later ← after.mapM fun b => r.proposals (ParamSite.ofAction b) [a]
  return links ++ later.flatten

end Linker

/-- Steps that link the genes of an individual. -/
abbrev Linking (γ : Type) := ExceptT LinkError (StateT Individual (Draw γ))

namespace Linking

variable {γ : Type}

/-- A search for links in the individual. -/
def search {α : Type} (s : Matching.Proposal γ α) : Linking γ α :=
  ExceptT.mk (StateT.lift s.run)

/-- A change of the individual. -/
def revise {α : Type} (m : Revision γ α) : Linking γ α :=
  ExceptT.mk do return (← m.run).mapError LinkError.action

end Linking

namespace Linker

variable {γ : Type} [RandomSource γ]

/-- Links every main action to the main actions before it, and counts the links that are new. -/
def linkAll (r : Linker) : Linking γ Nat := do
  let ind ← get
  let links ← Linking.search (r.allProposals [] ind.main)
  Linking.revise (Revision.addLinks links)

/-- Searches anew for the links of one main action, and counts those that are new. -/
def relink (r : Linker) (id : ActionId) : Linking γ Nat := do
  let ind ← get
  match ind.main.dropWhile (·.id ≠ id) with
  | [] => return 0
  | a :: after =>
    let links ← Linking.search (r.proposalsAround (ind.main.takeWhile (·.id ≠ id)) a after)
    Linking.revise (Revision.addLinks links)

end Linker
end CallEvolution
