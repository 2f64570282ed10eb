import CallEvolution.Gene.Error

/-!
Chances and step sizes of gene mutations.
-/

namespace CallEvolution

structure MutationSettings where
  /-- The chance that a collection with room gets another member. -/
  growProbability : Double := 0.1
  /-- The chance that a collection that does not grow loses a member. -/
  shrinkProbability : Double := 0.1
  /-- The chance that a leaf gets a fresh random value. -/
  resampleProbability : Double := 0.2
  /-- The largest step of a whole number. -/
  maxIntDelta : Int64 := 10
  /-- The chance that an active optional is switched off. -/
  toggleProbability : Double := 0.1
  /-- The largest shift of a day or time, in seconds. -/
  maxTimeShift : Int64 := 2592000
  deriving DecidableEq

namespace MutationSettings

def requirePositive (setting : String) (n : Int64) : Except SettingProblem Unit :=
  if n < 1 then .error (.belowOne setting) else .ok ()

def check (c : MutationSettings) : Except SettingProblem Unit := do
  requireChance "array_grow_prob" c.growProbability
  requireChance "array_shrink_prob" c.shrinkProbability
  requireChance "resample_prob" c.resampleProbability
  requireChance "optional_toggle_prob" c.toggleProbability
  requirePositive "max_int_delta" c.maxIntDelta
  requirePositive "max_time_shift_secs" c.maxTimeShift

def validate (c : MutationSettings) : Except GeneError Unit := c.check.mapError .invalidConfig

end MutationSettings
end CallEvolution
