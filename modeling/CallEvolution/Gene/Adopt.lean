import CallEvolution.Decimal.Reader
import CallEvolution.Gene.Copy
import CallEvolution.Gene.Render

/-!
Genes that adopt the value of another gene, of whatever variant. Genes of one variant are copied; else
the source is read as a scalar and converted, where the target admits the result. A value that the
target cannot hold is no error.
-/

namespace CallEvolution

/-- A source value on its way to another variant. -/
inductive Scalar where
  | whole (value : Int)
  | real (value : Double)
  | bool (value : Bool)
  | text (value : String)
  | date (value : Date)
  | time (value : Time)
  | moment (value : Moment)

namespace Scalar

def toText : Scalar → String
  | whole n => toString n
  | real x => Decimal.Layout.plain.write x
  | bool b => if b then "true" else "false"
  | text s => s
  | date d => Calendar.dateText d
  | time t => Calendar.timeText t
  | moment m => Calendar.momentText m

/-- A whole number of 64 bits: that of a number without its fraction, one for true, or one that is
written. Numbers beyond the range go to its ends. -/
def toWhole? : Scalar → Option Int
  | whole n => some n
  | real x => x.truncate?.map fun n => max Int64.minValue.toInt (min n Int64.maxValue.toInt)
  | bool b => some (if b then 1 else 0)
  | text s => (Decimal.integer? (Text.trim s)).filter fun n =>
    Int64.minValue.toInt ≤ n && n ≤ Int64.maxValue.toInt
  | _ => none

def toReal? : Scalar → Option Double
  | whole n => some (Binary.ofInt n)
  | real x => some x
  | text s => Decimal.real? .double (Text.trim s)
  | _ => none

def toBool? : Scalar → Option Bool
  | bool b => some b
  | whole n => some (n ≠ 0)
  | text s =>
    let s := Text.trim s
    if s = "true" then some true else if s = "false" then some false else none
  | _ => none

def toDate? : Scalar → Option Date
  | date d => some d
  | moment m => some m.date
  | s => Calendar.date? .beforeNumbers s.toText

def toTime? : Scalar → Option Time
  | time t => some t
  | moment m => some m.time
  | s => Calendar.time? .beforeNumbers s.toText

/-- A day stands for its first moment. -/
def toMoment? : Scalar → Option Moment
  | moment m => some m
  | date d => some ⟨d, .midnight⟩
  | s => Calendar.moment? .beforeNumbers s.toText

end Scalar

namespace GeneTree

/-- The scalar that a node holds below its wrappers; placeholders, empty keys and keys that the
database assigns hold none. -/
def scalar (t : GeneTree) (id : NodeId) : Except GeneError (Option Scalar) := do
  let id ← t.coreNode id
  match ← t.gene id with
  | .integer value _ _ => return some (.whole value.toInt)
  | .long value _ _ => return some (.whole value.toInt)
  | .float value _ _ => return some (.real value.convert)
  | .double value _ _ => return some (.real value)
  | .boolean value => return some (.bool value)
  | .foreignKey _ value _ => return value.map (.whole ·.toInt)
  | .date value => return some (.date value)
  | .time value => return some (.time value)
  | .moment value => return some (.moment value)
  | .cyclePlaceholder | .limitPlaceholder | .autoIncrement => return none
  | _ => return some (.text (← t.rawText id))

end GeneTree

open GeneTree (within)

/-- The 32-bit number for a whole number, if it has one. -/
def int32? (n : Int) : Option Int32 :=
  if Int32.minValue.toInt ≤ n ∧ n ≤ Int32.maxValue.toInt then some (.ofInt n) else none

/-- The 64-bit number for a whole number, if it has one. -/
def int64? (n : Int) : Option Int64 :=
  if Int64.minValue.toInt ≤ n ∧ n ≤ Int64.maxValue.toInt then some (.ofInt n) else none

/-- A leaf with the value of a scalar, if it can take it. -/
def Gene.assign? (s : Scalar) : Gene → Option Gene
  | .integer _ min max =>
    ((s.toWhole?.bind int32?).filter (within · min max)).map (.integer · min max)
  | .long _ min max =>
    ((s.toWhole?.bind int64?).filter (within · min max)).map (.long · min max)
  | .float _ min max =>
    ((s.toReal?.map fun x => (x.convert : Single)).filter (within · min max)).map (.float · min max)
  | .double _ min max => (s.toReal?.filter (within · min max)).map (.double · min max)
  | .boolean _ => s.toBool?.map .boolean
  | .string _ min max =>
    if within s.toText.length min max then some (.string s.toText min max) else none
  | .choice values _ => (values.findIdx? (· = s.toText)).map (.choice values ·)
  | .foreignKey table _ nullable =>
    (s.toWhole?.bind int64?).map fun n => .foreignKey table (some n) nullable
  | .date _ => s.toDate?.map .date
  | .time _ => s.toTime?.map .time
  | .moment _ => s.toMoment?.map .moment
  | _ => none

namespace Edit

/-- Copies a value of the same variant; one that does not fit is left. -/
def copyIfFits (id : NodeId) (src : GeneTree) (srcId : NodeId) : Edit Bool :=
  tryCatch (do copyFrom id src srcId; return true) fun e =>
    match e with
    | .shapeMismatch _ | .tooManyMembers .. | .outOfBounds _ => return false
    | e => throw e

/-- Puts a scalar, decoded if it can be, into the text below a gene in base 64. -/
def assignDecoded (data : NodeId) (s : Scalar) : Edit Bool := do
  let text := s.toText
  let decoded := (Text.Base64.toText? text).getD text
  match ← query (·.gene data) with
  | .string _ min max =>
    if within decoded.length min max then
      update (·.setGene data (.string decoded min max))
      return true
    else return false
  | _ => return false

/-- Gives a gene that is no wrapper a value of another variant. -/
def assignFrom (id : NodeId) (src : GeneTree) (srcId : NodeId) : Edit Bool := do
  let some s ← query fun _ => src.scalar srcId | return false
  match ← query (·.gene id) with
  | .base64 data => assignDecoded data s
  | g =>
    match g.assign? s with
    | some g => do
      update (·.setGene id g)
      return true
    | none => return false

/-- Does a gene take no value of another variant? -/
def refusesOthers (v : Variant) : Bool :=
  v = .autoIncrement || v = .immutableData || v.isPlaceholder

/-- Is the value taken over by copying? -/
def adoptsByCopy (target source : Variant) : Bool := target = source && !target.isPlaceholder

/-- Takes over a value into a gene below all wrappers. -/
def adoptInner (id : NodeId) (src : GeneTree) (srcId : NodeId) : Edit Bool := do
  let target ← query (·.variant id)
  let source ← query fun _ => src.variant srcId
  if adoptsByCopy target source then copyIfFits id src srcId
  else if refusesOthers target then return false
  else assignFrom id src srcId

/-- Takes over the value at `srcId` of another tree. The answer is false, and nothing is changed, if the
gene cannot hold the value. An optional whose inner gene adopts a value becomes active. -/
def adopt (id : NodeId) (src : GeneTree) (srcId : NodeId) : Edit Bool := do
  let target ← query (·.variant id)
  let source ← query fun _ => src.variant srcId
  if adoptsByCopy target source then copyIfFits id src srcId
  else
    match target with
    | .optional => do
      let inner ← query (·.coreNode id)
      let adopted ← adoptInner inner src srcId
      if adopted then setActive id true
      return adopted
    | .primaryKey => do
      let inner ← query (·.coreNode id)
      adoptInner inner src srcId
    | _ => adoptInner id src srcId

end Edit
end CallEvolution
