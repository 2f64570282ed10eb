/-!
Templates of paths such as `/users/\x7bid\x7d/orders`: a part in braces stands for a parameter.
-/

namespace CallEvolution

inductive PathSegment where
  | literal (text : String)
  | param (name : String)
  deriving DecidableEq

structure PathTemplate where
  raw : String
  segments : List PathSegment
  deriving DecidableEq

namespace PathSegment

/-- A part of a path; braces around it make it a parameter. -/
def ofText (text : String) : PathSegment :=
  match text.toList with
  | '\x7b' :: inner => if inner.getLast? = some '\x7d' then param (.ofList inner.dropLast) else literal text
  | _ => literal text

end PathSegment

namespace PathTemplate

/-- Parts that are empty do not count. -/
def parse (raw : String) : PathTemplate where
  raw := raw
  segments := ((raw.splitOn "/").filter (· ≠ "")).map PathSegment.ofText

/-- The literal parts in order. -/
def tokens (p : PathTemplate) : List String :=
  p.segments.filterMap fun
    | .literal text => some text
    | .param _ => none

def endsWithParam (p : PathTemplate) : Bool :=
  match p.segments.getLast? with
  | some (.param _) => true
  | _ => false

end PathTemplate
end CallEvolution
