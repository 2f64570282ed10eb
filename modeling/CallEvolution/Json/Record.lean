import CallEvolution.Json.Basic

/-!
Records in JSON. A record is an object, of which unknown members are ignored, or an array that lists
its fields in the order of their declaration. A tagged value is an object with one member, or, when
there is nothing to say beside the tag, a string.
-/

namespace CallEvolution.Json

/-- The fields of a record that are given, by name or by position. -/
structure Record where
  fields : List (String × Json)
  positional : Bool

/-- Reads a record with the fields `names`; a field given twice is refused. -/
def record? (names : List String) : Json → Option Record
  | object members =>
    let known := members.filter fun m => names.contains m.1
    if (known.map (·.1)).Nodup then some ⟨known, false⟩ else none
  | array items => if items.length ≤ names.length then some ⟨names.zip items, true⟩ else none
  | _ => none

/-- Reads a record whose fields are named. -/
def namedRecord? (names : List String) : Json → Option Record
  | object members => record? names (object members)
  | _ => none

def Record.get? (r : Record) (name : String) : Option Json :=
  (r.fields.find? fun m => m.1 = name).map (·.2)

/-- A field that has to be given. -/
def Record.required {α : Type} (r : Record) (name : String) (f : Json → Option α) : Option α :=
  (r.get? name).bind f

/-- A field that stands for `fallback` when it is not given. -/
def Record.withDefault {α : Type} (r : Record) (name : String) (fallback : α)
    (f : Json → Option α) : Option α :=
  match r.get? name with
  | some j => f j
  | none => some fallback

/-- A field that may be `null`, or missing where fields are named. -/
def Record.optional {α : Type} (r : Record) (name : String) (f : Json → Option α) :
    Option (Option α) :=
  if r.positional then r.required name (nullable? f) else r.withDefault name none (nullable? f)

/-- The tag of a tagged value and what it carries. -/
def tagged? : Json → Option (String × Option Json)
  | string tag => some (tag, none)
  | object [(tag, j)] => some (tag, some j)
  | _ => none

/-- What a tag carries that may not stand alone. -/
def Record.ofTag? (names : List String) (carried : Option Json) : Option Record :=
  carried.bind (namedRecord? names)

/-- A tag that carries nothing. -/
def bareTag? : Option Json → Option Unit
  | none => some ()
  | some null => some ()
  | some _ => none

/-- One of several bare tags. -/
def oneOf? {α : Type} (tags : List (String × α)) (j : Json) : Option α := do
  let (tag, rest) ← j.tagged?
  bareTag? rest
  (tags.find? fun t => t.1 = tag).map (·.2)

end CallEvolution.Json
