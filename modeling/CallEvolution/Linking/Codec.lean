import CallEvolution.Linking.Directive
import CallEvolution.Json.Record

/-!
The JSON forms of binding settings and of directives.
-/

namespace CallEvolution

namespace LinkSettings

def toJson (c : LinkSettings) : Json :=
  .object [("similarity_threshold", .ofDouble c.similarityThreshold),
    ("inactive_optional_bind_prob", .ofDouble c.inactiveOptionalProbability)]

/-- Settings that are not given keep their defaults. -/
def ofJson? (j : Json) : Option LinkSettings := do
  let d : LinkSettings := {}
  let r ← Json.record? ["similarity_threshold", "inactive_optional_bind_prob"] j
  return {
    similarityThreshold := ← r.withDefault "similarity_threshold" d.similarityThreshold Json.double?
    inactiveOptionalProbability :=
      ← r.withDefault "inactive_optional_bind_prob" d.inactiveOptionalProbability Json.double? }

end LinkSettings

namespace DbDirective

def toJson (d : DbDirective) : Json :=
  .object [("table", .string d.table), ("column", .string d.column), ("param_id", .string d.param),
    ("is_element_of_param", .bool d.intoField), ("field", .ofOption .string d.field)]

def ofJson? (j : Json) : Option DbDirective := do
  let r ← Json.record? ["table", "column", "param_id", "is_element_of_param", "field"] j
  return {
    table := ← r.required "table" Json.text?
    column := ← r.required "column" Json.text?
    param := ← r.required "param_id" Json.text?
    intoField := ← r.withDefault "is_element_of_param" false Json.bool?
    field := ← r.withDefault "field" none (Json.nullable? Json.text?) }

end DbDirective
end CallEvolution
