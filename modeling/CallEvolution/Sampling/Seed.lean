import CallEvolution.Action.Codec
import CallEvolution.Linking.Codec

/-!
Seeds: outlines of individuals, made by hand, that reflect how resources depend on each other.
-/

namespace CallEvolution

/-- The directives for one main action of a seed. -/
structure SeedLinks where
  /-- The position of the main action. -/
  main : Nat
  directives : List DbDirective
  deriving DecidableEq

structure Seed where
  name : String
  /-- The actions that come before the main actions. -/
  init : List Action := []
  /-- The names of the main actions in the catalog. -/
  main : List String
  links : List SeedLinks := []
  deriving DecidableEq

namespace SeedLinks

def toJson (l : SeedLinks) : Json :=
  .object [("main_index", .ofNat l.main), ("directives", .ofList DbDirective.toJson l.directives)]

def ofJson? (j : Json) : Option SeedLinks := do
  let r ← Json.record? ["main_index", "directives"] j
  return {
    main := ← r.required "main_index" (Json.nat? 64)
    directives := ← r.required "directives" (Json.listOf? DbDirective.ofJson?) }

end SeedLinks

def Seed.toJson (s : Seed) : Json :=
  .object [("name", .string s.name), ("init", .ofList Action.toJson s.init),
    ("main", .ofList .string s.main), ("db_bindings", .ofList SeedLinks.toJson s.links)]

end CallEvolution
