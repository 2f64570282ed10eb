import CallEvolution.Gene.Subtree
import CallEvolution.Random.Uniform

/-!
Random values. Leaves are drawn within their bounds, collections get a new size and new members, and
keys, immutable data and placeholders stay. On request a leaf is drawn anew until its value changes.
-/

namespace CallEvolution

/-- Steps that may change a gene tree and draw random words. -/
abbrev RandomEdit (γ : Type) := ExceptT GeneError (StateT GeneTree (Draw γ))

namespace RandomEdit

variable {γ : Type} {α : Type}

/-- A step that draws nothing. -/
def lift (step : Edit α) : RandomEdit γ α :=
  ExceptT.mk fun t s => (step.run t).map fun r => (r, s)

/-- A draw that looks at no tree. -/
def draw (d : Draw γ α) : RandomEdit γ α := ExceptT.lift (StateT.lift d)

instance : MonadLift Edit (RandomEdit γ) := ⟨lift⟩

end RandomEdit

variable {γ : Type} [RandomSource γ]

namespace Draw

/-- A random day of the years 1970 to 2030, among the first 28 of its month. -/
def date : Draw γ Date := do
  let year ← integer .bits32 1970 2030
  let month ← integer .bits32 1 12
  let day ← integer .bits32 1 28
  return (Date.ofParts? year month.toNat day.toNat).getD .epoch

def time : Draw γ Time := do
  let hour ← integer .bits32 0 23
  let minute ← integer .bits32 0 59
  let second ← integer .bits32 0 59
  return (Time.ofParts? hour.toNat minute.toNat second.toNat 0).getD .midnight

def int32 (low high : Int32) : Draw γ Int32 := do
  return .ofInt (← integer .bits32 low.toInt high.toInt)

def int64 (low high : Int64) : Draw γ Int64 := do
  return .ofInt (← integer .bits64 low.toInt high.toInt)

def half : Double := Binary.ofRatio 1 2

/-- A new value for a leaf; none for other genes. -/
def leaf? : Gene → Draw γ (Option Gene)
  | .integer _ min max => return some (.integer (← int32 min max) min max)
  | .long _ min max => return some (.long (← int64 min max) min max)
  | .float _ min max => do
    if min < max then return some (.float (← single min max) min max)
    else return some (.float min min max)
  | .double _ min max => do
    if min < max then return some (.double (← double min max) min max)
    else return some (.double min min max)
  | .boolean _ => return some (.boolean (← chance half))
  | .string _ min max => do
    let length ← count min max
    return some (.string (← text length) min max)
  | .choice values _ => do
    if values.isEmpty then return some (.choice values 0)
    else return some (.choice values (← index values.length))
  | .date _ => return some (.date (← date))
  | .time _ => return some (.time (← time))
  | .moment _ => do
    let date ← date
    let time ← time
    return some (.moment ⟨date, time⟩)
  | _ => return none

/-- How often a leaf is drawn anew to get another value. -/
def newValueAttempts : Nat := 10

/-- Draws again as long as the value is the old one, at most `attempts` times. -/
def leafUnlike (old : Gene) : Nat → Gene → Draw γ Gene
  | 0, fresh => return fresh
  | attempts + 1, fresh =>
    if fresh.same old then do leafUnlike old attempts ((← leaf? old).getD fresh) else return fresh

/-- Another value in place of an unchanged one: booleans are inverted, choices moved on. -/
def moveOn : Gene → Draw γ Gene
  | .boolean b => return .boolean !b
  | .choice values i => do
    let shift ← count 1 (values.length - 1)
    return .choice values ((i + shift) % values.length)
  | g => return g

/-- A value unlike the old one, if the draws can give one. -/
def newLeaf (old fresh : Gene) : Draw γ Gene := do
  let fresh ← if fresh.same old then moveOn fresh else pure fresh
  leafUnlike old newValueAttempts fresh

/-- A key of three to eight letters that is not among `used`. -/
def key (used : List String) : Draw γ String :=
  untilSome (do
    let length ← count 3 8
    let key ← text length
    return if used.contains key then none else some key) redrawLimit

end Draw

namespace RandomEdit

open Edit

/-- From this size on no room can be made for the members of a collection. -/
def roomLimit : Nat := twoPow 61

/-- Copies `template` below `collection` and gives the copy random values. -/
def freshElement (randomizeCopy : NodeId → RandomEdit γ Unit) (collection template : NodeId) :
    RandomEdit γ NodeId := do
  let copy ← query (·.extract template)
  let element ← Edit.graft copy (some collection)
  randomizeCopy element
  return element

/-- A new element with a name of its own, and the names used then. -/
def freshEntry (randomizeCopy : NodeId → RandomEdit γ Unit) (map template : NodeId)
    (used : List String) : RandomEdit γ (NodeId × List String) := do
  let entry ← freshElement randomizeCopy map template
  let key ← draw (Draw.key used)
  update (·.modify entry fun n => { n with name := key })
  return (entry, key :: used)

def freshElements (randomizeCopy : NodeId → RandomEdit γ Unit) (collection template : NodeId) :
    Nat → RandomEdit γ (List NodeId)
  | 0 => return []
  | n + 1 => do
    let element ← freshElement randomizeCopy collection template
    return element :: (← freshElements randomizeCopy collection template n)

def freshEntries (randomizeCopy : NodeId → RandomEdit γ Unit) (map template : NodeId) :
    Nat → List String → RandomEdit γ (List NodeId)
  | 0, _ => return []
  | n + 1, used => do
    let (entry, used) ← freshEntry randomizeCopy map template used
    return entry :: (← freshEntries randomizeCopy map template n used)

/-- A size for a collection, for which there has to be room. -/
def newSize (maxSize : Nat) : RandomEdit γ Nat := do
  let n ← draw (Draw.count 0 maxSize)
  if roomLimit ≤ n then fault .unboundedRoom
  return n

def randomizeWithin (forceNew : Bool) : Nat → NodeId → RandomEdit γ Unit
  | 0, id => throw (.cyclicOwnership id)
  | depth + 1, id => do
    let old ← query (·.gene id)
    match ← draw (Draw.leaf? old) with
    | some fresh => do
      let changes ← if forceNew then query (·.isMutable id) else pure false
      let fresh ← if changes then draw (Draw.newLeaf old fresh) else pure fresh
      update (·.setGene id fresh)
    | none =>
      match old with
      | .object fields _ => fields.forM (randomizeWithin forceNew depth)
      | .optional gene _ => do
        let active ← draw (Draw.chance Draw.half)
        setActive id active
        randomizeWithin forceNew depth gene
      | .primaryKey _ gene _ => randomizeWithin forceNew depth gene
      | .base64 data => randomizeWithin forceNew depth data
      | .array template elements maxSize => do
        releaseAll elements
        let n ← newSize maxSize
        setMembers id (← freshElements (randomizeWithin false depth) id template n)
      | .map template entries maxSize => do
        releaseAll entries
        let n ← newSize maxSize
        setMembers id (← freshEntries (randomizeWithin false depth) id template n [])
      | _ => return

/-- How deep a random descent may go. A gene that owns itself is entered again and again until the
draws lead away from it, so the size of the tree alone is no bound. -/
def descentBound (t : GeneTree) : Nat := t.depthBound + Draw.redrawLimit

/-- Gives the gene at `id` and all below random values within their bounds. With `forceNew`, a leaf
that can change gets a value other than it had. -/
def randomize (id : NodeId) (forceNew : Bool) : RandomEdit γ Unit := do
  let t ← (get : Edit GeneTree)
  randomizeWithin forceNew (descentBound t) id

def randomizeAll : RandomEdit γ Unit := do
  let t ← (get : Edit GeneTree)
  randomize t.root false

end RandomEdit
end CallEvolution
