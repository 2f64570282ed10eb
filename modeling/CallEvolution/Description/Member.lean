import CallEvolution.Action.Error
import CallEvolution.Decimal.Reader
import CallEvolution.Json.Basic
import CallEvolution.Search.Settings

/-!
Short descriptions in JSON, as they are written by hand. A member that is missing or `null` stands for
its default, and unknown members are ignored.
-/

namespace CallEvolution

/-- Why nothing can be made from a description. -/
inductive DescriptionError where
  /-- A member is missing or of another kind than it has to be. -/
  | malformed
  /-- A part with a JSON form of its own does not have that form. -/
  | unreadable
  | fault (f : Fault)
  | gene (e : GeneError)
  | action (e : ActionError)
  | settings (e : SettingsError)

abbrev Described (α : Type) := Except DescriptionError α

namespace Description

variable {ε α : Type}

def orElse (problem : ε) : Option α → Except ε α
  | some x => .ok x
  | none => .error problem

/-- A member that is neither missing nor `null`. -/
def given? (j : Json) (key : String) : Option Json :=
  match j.member? key with
  | some .null => none
  | other => other

def needed (problem : ε) (j : Json) (key : String) (f : Json → Option α) : Except ε α :=
  orElse problem ((given? j key).bind f)

def withDefault (problem : ε) (j : Json) (key : String) (fallback : α) (f : Json → Option α) :
    Except ε α :=
  match given? j key with
  | some v => orElse problem (f v)
  | none => .ok fallback

def optionally (problem : ε) (j : Json) (key : String) (f : Json → Option α) :
    Except ε (Option α) :=
  match given? j key with
  | some v => (orElse problem (f v)).map some
  | none => .ok none

def nat64? (j : Json) : Option Nat := j.nat? 64

def textOr (j : Json) (key fallback : String) : Described String :=
  withDefault .malformed j key fallback Json.text?

def listOr (j : Json) (key : String) : Described (List Json) :=
  withDefault .malformed j key [] Json.list?

/-- A member with a description of its own. -/
def part (j : Json) (key : String) (f : Json → Described α) : Described α := do
  f (← needed .malformed j key some)

/-- Members with descriptions of their own. -/
def parts (j : Json) (key : String) (f : Json → Described α) : Described (List α) := do
  (← listOr j key).mapM f

/-- A member in a JSON form of its own. -/
def form (j : Json) (key : String) (fallback : α) (f : Json → Option α) : Described α :=
  withDefault .unreadable j key fallback f

/-- A number, or a text that writes one. -/
def number? : Json → Option Double
  | .string s => Decimal.real? .double s
  | j => j.double?

def single? (j : Json) : Option Single := (number? j).map Binary.convert

end Description
end CallEvolution
