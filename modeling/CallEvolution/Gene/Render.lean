import CallEvolution.Calendar.Text
import CallEvolution.Gene.Tree
import CallEvolution.Json.Printer
import CallEvolution.Text.Base64

/-!
The value of a gene as JSON and as request text. Objects leave out inactive optionals and
placeholders; texts stand bare, everything else as JSON text.
-/

namespace CallEvolution
namespace GeneTree

/-- Is a field left out of its object? -/
def isLeftOut (t : GeneTree) (id : NodeId) : Except GeneError Bool := do
  match ← t.gene id with
  | .optional _ false => return true
  | _ => return (← t.variant (← t.coreNode id)).isPlaceholder

/-- The request text of a JSON value. -/
def requestText : Json → String
  | .string s => s
  | j => j.write

def toJsonWithin (t : GeneTree) : Nat → NodeId → Except GeneError Json
  | 0, id => .error (.cyclicOwnership id)
  | depth + 1, id => do
    let n ← t.node id
    match n.gene with
    | .integer value _ _ => return .integer value.toInt
    | .long value _ _ => return .integer value.toInt
    | .float value _ _ => return .ofDouble value.convert
    | .double value _ _ => return .ofDouble value
    | .boolean value => return .bool value
    | .string value _ _ | .immutableData value => return .string value
    | .choice values index =>
      match values[index]? with
      | some value => return .string value
      | none => throw (.notPrintable n.name)
    | .date value => return .string (Calendar.dateText value)
    | .time value => return .string (Calendar.timeText value)
    | .moment value => return .string (Calendar.momentText value)
    | .base64 data =>
      match ← t.gene data with
      | .string value _ _ => return .string (Text.Base64.ofText value)
      | _ => return .string (Text.Base64.ofText (requestText (← t.toJsonWithin depth data)))
    | .primaryKey _ gene _ => t.toJsonWithin depth gene
    | .foreignKey _ value _ => return .ofOption (.integer ·.toInt) value
    | .autoIncrement => return .null
    | .optional gene active => if active then t.toJsonWithin depth gene else return .null
    | .object fields _ =>
      let members ← fields.mapM fun f => do
        if ← t.isLeftOut f then return none
        return some (← t.name f, ← t.toJsonWithin depth f)
      return .ofMembers (members.filterMap fun m => m)
    | .array _ elements _ => return .array (← elements.mapM (t.toJsonWithin depth))
    | .map _ entries _ =>
      let members ← entries.mapM fun e => return (← t.name e, ← t.toJsonWithin depth e)
      return .ofMembers members
    | .cyclePlaceholder | .limitPlaceholder => throw (.notPrintable n.name)

/-- The value of a node as JSON. -/
def toJson (t : GeneTree) (id : NodeId) : Except GeneError Json := t.toJsonWithin t.depthBound id

/-- The value of a node as it stands in a request. -/
def printable (t : GeneTree) (id : NodeId) : Except GeneError String :=
  (t.toJson id).map requestText

/-- The text of a node that stands in for a text. -/
def rawText (t : GeneTree) (id : NodeId) : Except GeneError String := do
  match ← t.gene id with
  | .string value _ _ => return value
  | _ => t.printable id

end GeneTree
end CallEvolution
