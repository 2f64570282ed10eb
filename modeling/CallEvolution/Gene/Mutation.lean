import CallEvolution.Gene.MutationSettings
import CallEvolution.Gene.Randomize
import CallEvolution.Random.Weighted

/-!
One elementary change below a gene: a leaf gets another value, an optional is switched, a collection
gains or loses a member. The answer is the path from the gene to the change.
-/

namespace CallEvolution

/-- What steers the choices of a mutation. -/
structure Steering where
  /-- The weight of a child among its changeable siblings. -/
  childWeight : GeneTree → NodeId → Except Fault Double
  /-- The chance that a collection changes its size, in place of the configured ones. -/
  resizeProbability : GeneTree → NodeId → Except Fault (Option Double)

/-- All children alike, and configured chances. -/
def Steering.uniform : Steering := ⟨fun _ _ => .ok 1, fun _ _ => .ok none⟩

/-- What happens to a collection. -/
inductive Resize where
  | grow
  | shrink
  | member
  deriving DecidableEq

variable {γ : Type} [RandomSource γ]

/-- The point of `[low, high]` nearest to `x`. -/
def clampInt (x low high : Int) : Int := if x < low then low else if high < x then high else x

/-- Moves `value` by `delta` inside the bounds, the other way if a bound stands in the way. -/
def moveWithin (value delta low high : Int) : Int :=
  let moved := clampInt (value + delta) low high
  if moved ≠ value then moved else clampInt (value - delta) low high

/-- Moves `value` by `delta` inside the bounds, the other way if a bound stands in the way. -/
def moveRealWithin (value delta low high : Double) : Double :=
  let moved := (value + delta).clamp low high
  if !moved.same value then moved else (value - delta).clamp low high

namespace Draw

/-- A step of either direction, from one to `max`. -/
def signedStep (max : Int) : Draw γ Int := do
  let magnitude ← integer .bits64 1 (if max < 1 then 1 else max)
  return if ← chance half then magnitude else -magnitude

/-- A step for a binary number: up to a tenth of its size, which counts as one at least. -/
def realStep (value : Double) : Draw γ Double := do
  let scale := value.abs.max 1 * 0.1
  double (-scale) scale

/-- The edits of a text. -/
inductive TextEdit where
  | insert
  | remove
  | replace
  deriving DecidableEq

/-- The edits that keep the length of a text within its bounds. -/
def textEdits (length min max : Nat) : List TextEdit :=
  (if length < max then [.insert] else []) ++ (if min < length then [.remove] else []) ++
    if 0 < length then [.replace] else []

/-- What stands in for a letter that is there already. -/
def otherLetter (c : Char) : Char := Char.ofNat ('a'.toNat + c.toNat % 26)

/-- One character more, less or other. -/
def editText (chars : List Char) (edits : List TextEdit) : Draw γ (List Char) := do
  let letter ← letter
  match edits[← index edits.length]? with
  | some .insert => do
    let i ← count 0 chars.length
    return chars.take i ++ letter :: chars.drop i
  | some .remove => do
    let i ← index chars.length
    return chars.eraseIdx i
  | _ => do
    let i ← index chars.length
    return chars.modify i fun c => if c = letter then otherLetter letter else letter

/-- Another text within the bounds: a fresh one on request, if it differs, or else an edited one. -/
def mutatedText (value : String) (min max : Nat) (resample : Bool) : Draw γ String := do
  let edits := textEdits value.length min max
  let fresh ←
    if resample || edits.isEmpty then do
      let n ← count min max
      some <$> text n
    else pure none
  match fresh.filter (· ≠ value) with
  | some fresh => return fresh
  | none =>
    if edits.isEmpty then return value
    else return String.ofList (← editText value.toList edits)

def requireSpan (seconds : Int) : Draw γ Unit :=
  if (longestSpan : Int) < seconds ∨ seconds < -(longestSpan : Int) then fault .unboundedSpan
  else pure ()

/-- Another value for a leaf. -/
def mutatedLeaf (c : MutationSettings) (g : Gene) : Draw γ Gene := do
  let resample ← chance c.resampleProbability
  match g with
  | .integer value min max => do
    if resample then return .integer (← int32 min max) min max
    let delta ← signedStep c.maxIntDelta.toInt
    return .integer (.ofInt (moveWithin value.toInt delta min.toInt max.toInt)) min max
  | .long value min max => do
    if resample then return .long (← int64 min max) min max
    let delta ← signedStep c.maxIntDelta.toInt
    return .long (.ofInt (moveWithin value.toInt delta min.toInt max.toInt)) min max
  | .float value min max => do
    if resample then return .float (← single min max) min max
    let value : Double := value.convert
    let delta ← realStep value
    return .float (moveRealWithin value delta min.convert max.convert).convert min max
  | .double value min max => do
    if resample then return .double (← double min max) min max
    let delta ← realStep value
    return .double (moveRealWithin value delta min max) min max
  | .boolean value => return .boolean !value
  | .string value min max => return .string (← mutatedText value min max resample) min max
  | .choice values i => do
    if 1 < values.length then
      let shift ← count 1 (values.length - 1)
      if twoPow 64 ≤ i + shift then fault .overflow
      return .choice values ((i + shift) % values.length)
    else return .choice values 0
  | .date d => do
    let shift := c.maxTimeShift.toInt.tdiv 86400
    let days ← signedStep (if shift < 1 then 1 else shift)
    requireSpan (days * 86400)
    return .date ((d.addDays? days).getD d)
  | .time t => do
    let seconds ← signedStep (min c.maxTimeShift.toInt 86399)
    return .time (t.shift seconds).1
  | .moment m => do
    let seconds ← signedStep c.maxTimeShift.toInt
    requireSpan seconds
    return .moment ((m.addSeconds? seconds).getD m)
  | g => return g

end Draw

namespace RandomEdit

open Edit

/-- Decides whether a collection changes its size. An empty one grows. -/
def planResize (c : MutationSettings) (steering : Steering) (id : NodeId)
    (members : List NodeId) (maxSize : Nat) : RandomEdit γ Resize := do
  if members.isEmpty then return .grow
  let canGrow := decide (members.length < maxSize)
  let anyMutable ← query fun t => members.anyM t.isMutable
  let t ← (get : Edit GeneTree)
  match ← draw (Draw.ofExcept (steering.resizeProbability t id)) with
  | some p =>
    let resize ← draw (Draw.chance (p.clamp 0 1))
    if !resize && anyMutable then return .member
    let grow ← if canGrow then draw (Draw.chance Draw.half) else pure false
    return if grow then .grow else .shrink
  | none =>
    let grow ← if canGrow then draw (Draw.chance c.growProbability) else pure false
    if grow then return .grow
    if ← draw (Draw.chance c.shrinkProbability) then return .shrink
    if anyMutable then return .member
    return if canGrow then .grow else .shrink

/-- Draws one of the nodes that can change. -/
def pickMutable (steering : Steering) (nodes : List NodeId) : RandomEdit γ NodeId := do
  let candidates ← query fun t => nodes.filterM t.isMutable
  let t ← (get : Edit GeneTree)
  let weights ← draw (Draw.ofExcept (candidates.mapM (steering.childWeight t)))
  let i ← draw (Draw.weighted weights)
  match candidates[i]? with
  | some id => return id
  | none => fault .outOfRange

/-- Adds a random member to a collection. -/
def grow (id : NodeId) (isMap : Bool) (template : NodeId) (members : List NodeId) :
    RandomEdit γ NodeId := do
  let randomizeCopy := fun element => randomize element false
  let element ←
    if isMap then do
      let used ← query fun t => members.mapM t.name
      Prod.fst <$> freshEntry randomizeCopy id template used
    else freshElement randomizeCopy id template
  setMembers id (members ++ [element])
  return element

/-- Takes a random member out of a collection. -/
def shrink (id : NodeId) (members : List NodeId) : RandomEdit γ Unit := do
  let i ← draw (Draw.index members.length)
  setMembers id (members.eraseIdx i)
  match members[i]? with
  | some removed => release removed
  | none => fault .outOfRange

def mutateWithin (c : MutationSettings) (steering : Steering) :
    Nat → NodeId → RandomEdit γ (List NodeId)
  | 0, id => throw (.cyclicOwnership id)
  | depth + 1, id => do
    if !(← query (·.isMutable id)) then
      throw (.immutable (← query (·.name id)))
    let mutateCollection (isMap : Bool) (template : NodeId) (members : List NodeId)
        (maxSize : Nat) : RandomEdit γ (List NodeId) := do
      match ← planResize c steering id members maxSize with
      | .grow => return [id, ← grow id isMap template members]
      | .shrink => do
        shrink id members
        return [id]
      | .member => do
        let member ← pickMutable steering members
        return id :: (← mutateWithin c steering depth member)
    match ← query (·.gene id) with
    | .object fields _ => do
      let child ← pickMutable steering fields
      return id :: (← mutateWithin c steering depth child)
    | .optional gene active => do
      if !active then
        setActive id true
        return [id]
      let toggled ← draw (Draw.chance c.toggleProbability)
      let off ← if toggled then pure true else (! ·) <$> query (·.isMutable gene)
      if off then
        setActive id false
        return [id]
      else return id :: (← mutateWithin c steering depth gene)
    | .primaryKey _ gene _ => return id :: (← mutateWithin c steering depth gene)
    | .base64 data => return id :: (← mutateWithin c steering depth data)
    | .array template members maxSize => mutateCollection false template members maxSize
    | .map template members maxSize => mutateCollection true template members maxSize
    | leaf => do
      let fresh ← draw (Draw.mutatedLeaf c leaf)
      update (·.setGene id fresh)
      return [id]

/-- Changes one thing below the gene at `id`. -/
def mutate (c : MutationSettings) (steering : Steering) (id : NodeId) :
    RandomEdit γ (List NodeId) := do
  let t ← (get : Edit GeneTree)
  mutateWithin c steering (descentBound t) id

end RandomEdit
end CallEvolution
