import CallEvolution.Decimal.Shortest

/-!
The written form of binary numbers: shortest digits, laid out by a record of decisions.
-/

namespace CallEvolution.Decimal

/-- The decisions of one way to write numbers. -/
structure Layout where
  tie : Tie
  /-- Scientific exponents that are written without an exponent. -/
  positional : Int → Bool
  /-- Do whole numbers carry a fraction `.0`? -/
  pointZero : Bool

/-- The layout of numbers in JSON text. -/
def Layout.json : Layout where
  tie := .toEven
  positional e := -5 ≤ e ∧ e ≤ 15
  pointZero := true

/-- The layout of numbers in running text. -/
def Layout.plain : Layout where
  tie := .up
  positional _ := true
  pointZero := false

namespace Layout

private def zeros (n : Nat) : String := "".pushn '0' n

/-- The text of a positive decimal. -/
def magnitude (l : Layout) (d : Numeral) : String :=
  let digits := toString d.digits
  let lead := d.exponent + digits.length - 1
  if l.positional lead then
    if 0 ≤ d.exponent then
      digits ++ zeros d.exponent.toNat ++ if l.pointZero then ".0" else ""
    else if 0 ≤ lead then
      let chars := digits.toList
      String.ofList (chars.take (lead.toNat + 1)) ++ "." ++
        String.ofList (chars.drop (lead.toNat + 1))
    else
      "0." ++ zeros (-lead - 1).toNat ++ digits
  else
    let chars := digits.toList
    let rest := if chars.length = 1 then "" else "." ++ String.ofList (chars.drop 1)
    String.ofList (chars.take 1) ++ rest ++ (if 0 ≤ lead then "e+" else "e-") ++ toString lead.natAbs

/-- The text of a number. -/
def write {F : Format} (l : Layout) : Binary F → String
  | .nan => "NaN"
  | .infinity negative => if negative then "-inf" else "inf"
  | .finite negative units _ =>
    let sign := if negative then "-" else ""
    if units = 0 then sign ++ if l.pointZero then "0.0" else "0"
    else sign ++ l.magnitude (shortest F l.tie units)

end Layout
end CallEvolution.Decimal
