import CallEvolution.Number.Binary
import CallEvolution.Text.Case
import CallEvolution.Text.EditDistance

/-!
What names tell about the fields they belong to: which names say nothing alone, which name the same
thing, and how similar two names are.
-/

namespace CallEvolution.Matching

open Text (sameLetters)

/-- Names that do not identify a field on their own. -/
def generalNames : List String := ["id", "name", "value", "key", "body", "data"]

def isGeneral (name : String) : Bool := generalNames.any (sameLetters · name)

/-- Is the field of an object of a given type what another side calls `other`? -/
def isFieldCalled (field : String) (type : Option String) (other : String) : Bool :=
  sameLetters field other ||
    match type with
    | some type => sameLetters (type ++ field) other
    | none => false

/-- A name in small letters without `_` and `-` and without one `s` at its end. -/
def normalized (name : String) : List Char :=
  let small := (name.toList.filter fun c => c ≠ '_' && c ≠ '-').flatMap Text.smallLetter
  if small.getLast? = some 's' && 1 < small.length then small.dropLast else small

/-- The edit distance of normalized names; zero means that they name the same thing. -/
def nameDistance (a b : String) : Nat := Text.editDistance (normalized a) (normalized b)

/-- One minus the edit distance as a part of the longer text. -/
def listSimilarity (a b : List Char) : Double :=
  if a.isEmpty && b.isEmpty then 1
  else
    1 - (Binary.ofInt (Text.editDistance a b) / Binary.ofInt (max a.length b.length : Nat) : Double)

/-- The similarity of two names, whatever the case of their letters. -/
def nameSimilarity (a b : String) : Double :=
  listSimilarity (Text.smallLetters a.toList) (Text.smallLetters b.toList)

end CallEvolution.Matching
