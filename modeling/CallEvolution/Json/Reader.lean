import CallEvolution.Json.Number

/-!
Reading JSON text. Each step of the grammar gives what it read and the rest of the text. The steps
are counted down from the length of the text, as every one of them takes at least one character.
-/

namespace CallEvolution.Json

def isSpace (c : Char) : Bool := c = ' ' || c = '\t' || c = '\n' || c = '\r'

def skipSpace (cs : List Char) : List Char := cs.dropWhile isSpace

/-- Four hexadecimal digits. -/
def hex4? : List Char → Option (Nat × List Char)
  | a :: b :: c :: d :: cs => do
    let a ← Text.hexValue? a
    let b ← Text.hexValue? b
    let c ← Text.hexValue? c
    let d ← Text.hexValue? d
    return (((a * 16 + b) * 16 + c) * 16 + d, cs)
  | _ => none

def simpleEscape? (c : Char) : Option Nat :=
  match c with
  | '"' => some 34
  | '\\' => some 92
  | '/' => some 47
  | 'b' => some 8
  | 'f' => some 12
  | 'n' => some 10
  | 'r' => some 13
  | 't' => some 9
  | _ => none

/-- The code units of a string up to its closing quote, last one first, and the rest. -/
def units? : Nat → List Nat → List Char → Option (List Nat × List Char)
  | 0, _, _ => none
  | steps + 1, units, cs =>
    match cs with
    | [] => none
    | '"' :: cs => some (units, cs)
    | '\\' :: 'u' :: cs => do
      let (unit, cs) ← hex4? cs
      units? steps (unit :: units) cs
    | '\\' :: c :: cs => do
      let unit ← simpleEscape? c
      units? steps (unit :: units) cs
    | c :: cs => if c.toNat < 32 then none else units? steps (c.toNat :: units) cs

/-- The characters that code units stand for; half of a surrogate pair stands for none. -/
def characters? : List Nat → Option (List Char)
  | [] => some []
  | [u] => if 0xD800 ≤ u ∧ u < 0xE000 then none else some [Char.ofNat u]
  | u :: v :: rest =>
    if 0xD800 ≤ u ∧ u < 0xDC00 then
      if 0xDC00 ≤ v ∧ v < 0xE000 then
        (characters? rest).map
          (Char.ofNat (0x10000 + (u - 0xD800) * 0x400 + (v - 0xDC00)) :: ·)
      else none
    else if 0xDC00 ≤ u ∧ u < 0xE000 then none
    else (characters? (v :: rest)).map (Char.ofNat u :: ·)

/-- A string behind its opening quote; the text is missing if the string is broken. -/
def stringBody? (cs : List Char) : Option (Option String × List Char) := do
  let (units, cs) ← units? (cs.length + 1) [] cs
  return ((characters? units.reverse).map String.ofList, cs)

def literal? (word : String) (value : Json) (cs : List Char) : Option (Json × List Char) :=
  let chars := word.toList
  if chars.isPrefixOf cs then some (value, cs.drop chars.length) else none

def stringValue? (cs : List Char) : Option (Json × List Char) := do
  let (s, cs) ← stringBody? cs
  return (match s with | some s => string s | none => broken, cs)

mutual

/-- A value, nested at most `depth` deep. -/
def value? : Nat → Nat → List Char → Option (Json × List Char)
  | 0, _, _ => none
  | steps + 1, depth, cs =>
    match skipSpace cs with
    | [] => none
    | '"' :: cs => stringValue? cs
    | '[' :: cs =>
      match depth with
      | 0 => none
      | depth + 1 => do
        let (items, cs) ← match skipSpace cs with
          | ']' :: cs => some ([], cs)
          | cs => items? steps depth cs
        return (array items, cs)
    | '\x7b' :: cs =>
      match depth with
      | 0 => none
      | depth + 1 => do
        let (members, cs) ← match skipSpace cs with
          | '\x7d' :: cs => some (some [], cs)
          | cs => members? steps depth cs
        return (match members with | some members => object members | none => broken, cs)
    | c :: cs =>
      if c = 't' then literal? "rue" (bool true) cs
      else if c = 'f' then literal? "alse" (bool false) cs
      else if c = 'n' then literal? "ull" null cs
      else number? (c :: cs)

/-- The items of an array that has one, and its end. -/
def items? : Nat → Nat → List Char → Option (List Json × List Char)
  | 0, _, _ => none
  | steps + 1, depth, cs => do
    let (item, cs) ← value? steps depth cs
    match skipSpace cs with
    | ',' :: cs => do
      let (items, cs) ← items? steps depth cs
      return (item :: items, cs)
    | ']' :: cs => return ([item], cs)
    | _ => none

/-- The members of an object that has one, and its end; they are missing if a name is broken. -/
def members? : Nat → Nat → List Char → Option (Option (List (String × Json)) × List Char)
  | 0, _, _ => none
  | steps + 1, depth, cs => do
    let (name, cs) ← match skipSpace cs with
      | '"' :: cs => stringBody? cs
      | _ => none
    let cs ← match skipSpace cs with
      | ':' :: cs => some cs
      | _ => none
    let (value, cs) ← value? steps depth cs
    let member := name.map (·, value)
    match skipSpace cs with
    | ',' :: cs => do
      let (members, cs) ← members? steps depth cs
      return (member.bind fun m => members.map (m :: ·), cs)
    | '\x7d' :: cs => return (member.map ([·]), cs)
    | _ => none

end

/-- The value that a text writes, nested at most `depth` deep. -/
def readWithin? (depth : Nat) (text : String) : Option Json := do
  let cs := text.toList
  let (value, cs) ← value? (2 * cs.length + 2) depth cs
  if (skipSpace cs).isEmpty then some value else none

/-- The value that a text writes. -/
def read? (text : String) : Option Json := readWithin? text.length text

mutual

/-- Is every string a text and every number in range? -/
def isSound : Json → Bool
  | real x => x.isFinite
  | broken => false
  | array items => areSound items
  | object members => membersSound members
  | _ => true

def areSound : List Json → Bool
  | [] => true
  | j :: rest => isSound j && areSound rest

def membersSound : List (String × Json) → Bool
  | [] => true
  | (_, j) :: rest => isSound j && membersSound rest

end

end CallEvolution.Json
