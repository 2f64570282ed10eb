import CallEvolution.Gene.Build

/-!
Gene trees from declared types. Object types may refer to each other and to themselves: a reference to
a type that is being built already becomes a placeholder, and so does one below the depth limit. A
collection of cut-off parts is cut off itself.
-/

namespace CallEvolution

inductive FieldType where
  | integer
  | long
  | float
  | double
  | boolean
  | string
  | choice (values : List String)
  | date
  | time
  | moment
  | base64
  /-- The object type of a given name. -/
  | ref (target : String)
  | array (inner : FieldType) (maxSize : Nat)
  | map (inner : FieldType) (maxSize : Nat)
  deriving DecidableEq

structure FieldDecl where
  name : String
  type : FieldType
  required : Bool
  deriving DecidableEq

structure ObjectType where
  name : String
  fields : List FieldDecl
  deriving DecidableEq

/-- Object types by name, and how deep references to them are followed. -/
structure Schemas where
  objects : List ObjectType := []
  maxDepth : Nat := 5

namespace Schemas

/-- Adds an object type, in place of one of the same name. -/
def register (r : Schemas) (schema : ObjectType) : Schemas :=
  { r with objects := schema :: r.objects.filter (·.name ≠ schema.name) }

def get? (r : Schemas) (name : String) : Option ObjectType :=
  r.objects.find? (·.name = name)

/-- Is the whole tree a placeholder? -/
def isCutOff (t : GeneTree) : Bool :=
  match t.get? t.root with
  | some n => n.variant.isPlaceholder
  | none => false

/-- A collection of parts, or the placeholder that its parts are. -/
def collect (make : GeneTree → GeneTree) (template : GeneTree) : GeneTree :=
  if isCutOff template then template else make template

/-- A gene for a type on a path of object types; `expand` builds objects further down. -/
def unfoldField (maxDepth : Nat) (path : List String)
    (expand : String → String → Except GeneError GeneTree) (name : String) :
    FieldType → Except GeneError GeneTree
  | .integer => return .integer name
  | .long => return .long name
  | .float => return .float name
  | .double => return .double name
  | .boolean => return .boolean name
  | .string => return .string name
  | .choice values => return .choice name values
  | .date => return .date name
  | .time => return .time name
  | .moment => return .moment name
  | .base64 => return .base64 name
  | .ref target =>
    if path.contains target then return .cyclePlaceholder name
    else if maxDepth ≤ path.length then return .limitPlaceholder name
    else expand name target
  | .array inner maxSize => do
    return collect (.array name · maxSize) (← unfoldField maxDepth path expand name inner)
  | .map inner maxSize => do
    return collect (.map name · maxSize) (← unfoldField maxDepth path expand name inner)

/-- A field that may be missing is wrapped, unless it was cut off. -/
def wrapField (field : FieldDecl) (gene : GeneTree) : GeneTree :=
  if field.required || isCutOff gene then gene else .optional field.name gene true

/-- An object below the types of `path`, of which `unused` registered types are not part. When none
is left, the type cannot be a registered one. -/
def unfoldObject (r : Schemas) : Nat → List String → String → String →
    Except GeneError GeneTree
  | 0, _, _, typeName => .error (.unknownSchema typeName)
  | unused + 1, path, name, typeName =>
    match r.get? typeName with
    | none => .error (.unknownSchema typeName)
    | some schema => do
      let path := typeName :: path
      let fields ← schema.fields.mapM fun field => do
        let gene ← unfoldField r.maxDepth path (unfoldObject r unused path) field.name field.type
        return wrapField field gene
      return .objectOf name typeName fields

/-- An object gene called `name` of a registered type. -/
def build (r : Schemas) (typeName name : String) : Except GeneError GeneTree :=
  unfoldObject r r.objects.length [] name typeName

/-- A gene called `name` of any type. -/
def geneOfType (r : Schemas) (name : String) (type : FieldType) : Except GeneError GeneTree :=
  unfoldField r.maxDepth [] (unfoldObject r r.objects.length []) name type

end Schemas
end CallEvolution
