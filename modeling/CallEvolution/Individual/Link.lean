import CallEvolution.Action.Basic

/-!
Links between genes of an individual: the target takes its value from the source.
-/

namespace CallEvolution

/-- The place of a gene in an individual. -/
structure GeneAddress where
  action : ActionId
  param : Nat
  node : NodeId
  deriving DecidableEq

instance : ToString GeneAddress :=
  ⟨fun a => toString a.action ++ ".p" ++ toString a.param ++ toString a.node⟩

/-- How a link was found. -/
inductive LinkOrigin where
  /-- Two parameters match. -/
  | params
  /-- A directive joins a row and a parameter. -/
  | database
  deriving DecidableEq

structure Link where
  source : GeneAddress
  target : GeneAddress
  origin : LinkOrigin
  deriving DecidableEq

instance : ToString Link := ⟨fun l => toString l.source ++ " -> " ++ toString l.target⟩

/-- Does the link start or end in an action? -/
def Link.involves (l : Link) (id : ActionId) : Bool :=
  l.source.action = id || l.target.action = id

end CallEvolution
