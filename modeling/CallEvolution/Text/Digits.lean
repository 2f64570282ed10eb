/-!
Decimal digits and the numbers they write.
-/

namespace CallEvolution.Text

def digitValue (c : Char) : Nat := c.toNat - '0'.toNat

/-- The number that a list of decimal digits writes. -/
def ofDigits (cs : List Char) : Nat := cs.foldl (fun n c => 10 * n + digitValue c) 0

/-- The value of a hexadecimal digit. -/
def hexValue? (c : Char) : Option Nat :=
  if c.isDigit then some (digitValue c)
  else if 'a' ≤ c ∧ c ≤ 'f' then some (c.toNat - 'a'.toNat + 10)
  else if 'A' ≤ c ∧ c ≤ 'F' then some (c.toNat - 'A'.toNat + 10)
  else none

def hexDigit (n : Nat) : Char := "0123456789abcdef".toList.getD n '0'

end CallEvolution.Text
