import CallEvolution.Number.Binary
import CallEvolution.Table

/-!
Values of the JSON data format. Whole numbers of 64 bits are kept apart from all others.
-/

namespace CallEvolution

inductive Json where
  | null
  | bool (value : Bool)
  /-- A whole number written without fraction and exponent. -/
  | integer (value : Int)
  | real (value : Double)
  | string (value : String)
  /-- A string, or an object with a name, that has an escape for half of a surrogate pair, which is
  no text. -/
  | broken
  | array (items : List Json)
  | object (members : List (String × Json))
  deriving Inhabited

namespace Json

/-- The value of a member; of several with one name, the last. -/
def member? (name : String) : Json → Option Json
  | object members => (members.reverse.find? fun m => m.1 = name).map (·.2)
  | _ => none

def ofNat (n : Nat) : Json := integer n

/-- An object whose members are sorted by name, each name once. -/
def ofMembers (members : List (String × Json)) : Json := object (Table.ofEntries members)

def ofOption {α : Type} (f : α → Json) : Option α → Json
  | some x => f x
  | none => null

def ofList {α : Type} (f : α → Json) (xs : List α) : Json := array (xs.map f)

/-- A number for an answer: the special values become `null`. -/
def ofDouble (x : Double) : Json := if x.isFinite then real x else null

/-- A number for an answer: the special values are named. -/
def ofNumber (x : Double) : Json :=
  match x with
  | .nan => string "NaN"
  | .infinity negative => string (if negative then "-inf" else "inf")
  | x => real x

def text? : Json → Option String
  | string s => some s
  | _ => none

def bool? : Json → Option Bool
  | bool b => some b
  | _ => none

def list? : Json → Option (List Json)
  | array items => some items
  | _ => none

/-- A whole number of `[low, high]`. -/
def integer? (low high : Int) : Json → Option Int
  | integer n => if low ≤ n ∧ n ≤ high then some n else none
  | _ => none

/-- A whole number without sign of `bits` bits. -/
def nat? (bits : Nat) (j : Json) : Option Nat := (j.integer? 0 (twoPow bits - 1 : Nat)).map Int.toNat

/-- A finite number. -/
def double? : Json → Option Double
  | integer n => some (Binary.ofInt n)
  | real x => if x.isFinite then some x else none
  | _ => none

/-- A value that may be `null`. -/
def nullable? {α : Type} (f : Json → Option α) : Json → Option (Option α)
  | null => some none
  | j => (f j).map some

def listOf? {α : Type} (f : Json → Option α) (j : Json) : Option (List α) :=
  j.list?.bind (·.mapM f)

end Json
end CallEvolution
