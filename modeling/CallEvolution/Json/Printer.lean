import CallEvolution.Decimal.Layout
import CallEvolution.Json.Basic
import CallEvolution.Text.Digits

/-!
Compact JSON text. Members are written in the order of their names' bytes; of several members with
one name only the last is written.
-/

namespace CallEvolution.Json

/-- A character inside a string. -/
def escape (c : Char) : List Char :=
  if c = '"' then ['\\', '"']
  else if c = '\\' then ['\\', '\\']
  else if c.toNat = 8 then ['\\', 'b']
  else if c.toNat = 9 then ['\\', 't']
  else if c.toNat = 10 then ['\\', 'n']
  else if c.toNat = 12 then ['\\', 'f']
  else if c.toNat = 13 then ['\\', 'r']
  else if c.toNat < 32 then
    ['\\', 'u', '0', '0', Text.hexDigit (c.toNat / 16), Text.hexDigit (c.toNat % 16)]
  else [c]

def quote (s : String) : String :=
  "\"" ++ String.ofList (s.toList.flatMap escape) ++ "\""

mutual

/-- The text of a value. -/
def write : Json → String
  | null => "null"
  | bool b => if b then "true" else "false"
  | integer n => toString n
  | real x => if x.isFinite then Decimal.Layout.json.write x else "null"
  | string s => quote s
  | broken => "\"\""
  | array items => "[" ++ ",".intercalate (writeItems items) ++ "]"
  | object members =>
    let written := (Table.ofEntries (writeMembers members)).map fun m => quote m.1 ++ ":" ++ m.2
    "\x7b" ++ ",".intercalate written ++ "\x7d"

def writeItems : List Json → List String
  | [] => []
  | j :: rest => write j :: writeItems rest

def writeMembers : List (String × Json) → List (String × String)
  | [] => []
  | (name, j) :: rest => (name, write j) :: writeMembers rest

end

end CallEvolution.Json
