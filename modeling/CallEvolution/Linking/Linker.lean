import CallEvolution.Linking.Name
import CallEvolution.Linking.Settings

/-!
A linker: the settings and the notion of similarity by which links are searched for.
-/

namespace CallEvolution

/-- How links are searched for. -/
structure Linker where
  config : LinkSettings := {}
  similarity : String → String → Double := Matching.nameSimilarity
  /-- The tables that directives may name; any if not given. -/
  knownTables : Option (List String) := none

namespace Linker

def isSimilar (r : Linker) (a b : String) : Bool :=
  r.config.similarityThreshold ≤ r.similarity a b

/-- Do two qualified names match? -/
def namesMatch (r : Linker) (target source : String) : Bool :=
  Text.sameLetters source target || r.isSimilar target source

end Linker
end CallEvolution
