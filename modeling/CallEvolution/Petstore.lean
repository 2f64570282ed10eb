import CallEvolution.Sampling.Seed

/-!
A small pet store to try the search on: object types, calls, seeds and credentials. It keeps pets and
their owners in two tables.
-/

namespace CallEvolution.Petstore

def required (name : String) (type : FieldType) : FieldDecl := ⟨name, type, true⟩

def optional (name : String) (type : FieldType) : FieldDecl := ⟨name, type, false⟩

def statuses : List String := ["available", "pending", "sold"]

/-- A pet has an owner, who has pets. -/
def schemas : Schemas :=
  let pet : ObjectType := ⟨"Pet", [required "id" .long, required "name" .string,
    optional "status" (.choice statuses), optional "tags" (.array .string 4),
    optional "owner" (.ref "Owner")]⟩
  let owner : ObjectType := ⟨"Owner", [required "id" .long, required "email" .string,
    optional "pets" (.array (.ref "Pet") 2)]⟩
  ({ maxDepth := 3 : Schemas }.register pet).register owner

/-- The number of a thing that is stored. -/
def idGene (name : String) : GeneTree := .longIn name 1 10000

def idParam (name : String) : Parameter := ⟨name, .path, idGene name⟩

def catalog : Except GeneError (List Action) := do
  let pet := Parameter.body (← schemas.build "Pet" "body")
  return [
    .http .post "/pets" [pet],
    .http .get "/pets/\x7bpetId\x7d" [idParam "petId"],
    .http .put "/pets/\x7bpetId\x7d" [idParam "petId", pet],
    .http .delete "/pets/\x7bpetId\x7d" [idParam "petId"],
    .http .get "/pets" [⟨"limit", .query, .integerIn "limit" 0 100⟩,
      ⟨"status", .query, .choice "status" statuses⟩],
    .http .get "/owners/\x7bownerId\x7d" [idParam "ownerId"]]

def ownerRow : Action :=
  .db "owners" [⟨"id", .dbColumn, .primaryKey "id" "owners" (idGene "id") 1⟩,
    ⟨"email", .dbColumn, .string "email"⟩]

def seeds : List Seed :=
  [{ name := "create-read-update"
     main := ["POST:/pets", "GET:/pets/\x7bpetId\x7d", "PUT:/pets/\x7bpetId\x7d"] },
   { name := "create-delete-read"
     main := ["POST:/pets", "DELETE:/pets/\x7bpetId\x7d", "GET:/pets/\x7bpetId\x7d"] },
   { name := "stored-owner"
     init := [ownerRow]
     main := ["GET:/owners/\x7bownerId\x7d"]
     links := [⟨0, [{ table := "owners", column := "id", param := "ownerId" }]⟩] }]

def credentials : List Credentials :=
  [⟨"admin", [("Authorization", "Bearer admin-token")], []⟩,
   ⟨"customer", [], [("session", "c-42")]⟩]

end CallEvolution.Petstore
