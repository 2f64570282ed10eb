import CallEvolution.Decimal.Layout

/-!
Settings and the values they may have.
-/

namespace CallEvolution

/-- A setting that is not allowed. -/
inductive SettingProblem where
  | probability (setting : String) (value : Double)
  | belowOne (setting : String)
  deriving DecidableEq

def SettingProblem.message : SettingProblem → String
  | probability setting value =>
    setting ++ " must be in [0,1], got " ++ Decimal.Layout.plain.write value
  | belowOne setting => setting ++ " must be >= 1"

/-- A chance has to be a number of `[0, 1]`. -/
def requireChance (setting : String) (p : Double) : Except SettingProblem Unit :=
  if 0 ≤ p ∧ p ≤ 1 then .ok () else .error (.probability setting p)

end CallEvolution
