import CallEvolution.Gene.Basic
import CallEvolution.Setting

/-!
What can be wrong with a request to a gene tree.
-/

namespace CallEvolution

inductive GeneError where
  | variantMismatch (expected found : Variant)
  /-- Composite genes of one variant but different shape. -/
  | shapeMismatch (name : String)
  | outOfBounds (name : String)
  | immutable (name : String)
  /-- The gene has no value. -/
  | notPrintable (name : String)
  | unknownNode (id : NodeId)
  | unknownSchema (name : String)
  | tooManyMembers (name : String) (size maxSize : Nat)
  | invalidConfig (problem : SettingProblem)
  /-- Ownership comes back to a node above. -/
  | cyclicOwnership (id : NodeId)
  deriving DecidableEq

def GeneError.message : GeneError → String
  | variantMismatch expected found =>
    "invalid gene type: expected " ++ expected.name ++ ", found " ++ found.name
  | shapeMismatch name => "incompatible gene structure at '" ++ name ++ "'"
  | outOfBounds name => "value out of bounds for gene '" ++ name ++ "'"
  | immutable name => "gene '" ++ name ++ "' is immutable"
  | notPrintable name => "gene '" ++ name ++ "' has no printable value"
  | unknownNode id => "unknown gene node: " ++ toString id
  | unknownSchema name => "unknown object schema: " ++ name
  | tooManyMembers name size maxSize =>
    "collection '" ++ name ++ "' bound exceeded: " ++ toString size ++ " > " ++ toString maxSize
  | invalidConfig problem => "invalid gene mutation config: " ++ problem.message
  | cyclicOwnership id => "gene node " ++ toString id ++ " is owned by itself"

end CallEvolution
