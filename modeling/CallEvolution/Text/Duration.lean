/-!
The text of spans of whole milliseconds: seconds with the digits that are needed, or else milliseconds.
-/

namespace CallEvolution.Text

/-- The digits behind the point for a part of a second. -/
def millisecondDigits (n : Nat) : String :=
  if n = 0 then ""
  else if n % 100 = 0 then "." ++ toString (n / 100)
  else if n % 10 = 0 then "." ++ (if n < 100 then "0" else "") ++ toString (n / 10)
  else "." ++ (if n < 10 then "00" else if n < 100 then "0" else "") ++ toString n

def durationText (milliseconds : Nat) : String :=
  if milliseconds = 0 then "0ns"
  else if milliseconds < 1000 then toString milliseconds ++ "ms"
  else toString (milliseconds / 1000) ++ millisecondDigits (milliseconds % 1000) ++ "s"

end CallEvolution.Text
