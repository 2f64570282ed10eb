import CallEvolution.Text.CaseTable

/-!
Small letters of characters and texts. A text differs from its characters in one point: a sigma at
the end of a word has a form of its own.
-/

namespace CallEvolution.Text

private def inRanges (ranges : List (Nat × Nat)) (c : Char) : Bool :=
  ranges.any fun (first, last) => first ≤ c.toNat && c.toNat ≤ last

def isCaseIgnorable (c : Char) : Bool := inRanges caseIgnorableRanges c

def isCased (c : Char) : Bool := inRanges casedRanges c

/-- The small letter of a capital one; any other character stands for itself. -/
def smallLetter (c : Char) : List Char :=
  if c.toNat < 128 then [c.toLower]
  else if c.toNat = 0x130 then ['i', '\u0307']
  else
    match smallLetterRuns.find? fun (first, last, step, _) =>
        first ≤ c.toNat && c.toNat ≤ last && (c.toNat - first) % step = 0 with
    | some (_, _, _, shift) => [Char.ofNat (c.toNat + shift).toNat]
    | none => [c]

/-- Does the first character that is not looked past have case? -/
def startsCased (cs : List Char) : Bool :=
  match cs.dropWhile isCaseIgnorable with
  | c :: _ => isCased c
  | [] => false

/-- The small letters of a text, `before` being what precedes it, last character first. -/
def smallLettersAfter (before : List Char) : List Char → List Char
  | [] => []
  | c :: cs =>
    let small :=
      if c = 'Σ' then [if startsCased before && !startsCased cs then 'ς' else 'σ']
      else smallLetter c
    small ++ smallLettersAfter (c :: before) cs

/-- The small letters of a text. -/
def smallLetters (cs : List Char) : List Char := smallLettersAfter [] cs

/-- Equality up to the case of the letters `a` to `z`. -/
def sameLetters (a b : String) : Bool :=
  decide (a.toList.map Char.toLower = b.toList.map Char.toLower)

end CallEvolution.Text
