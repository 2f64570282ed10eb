import CallEvolution.Fault
import CallEvolution.Number.Binary
import CallEvolution.Table

/-!
Impact records: for everything that mutations touch, how often it was manipulated and what came of it.
-/

namespace CallEvolution

/-- What a mutation did to the scores. -/
structure Outcome where
  /-- Did the archive improve? -/
  improved : Bool
  /-- The sum of the scores that the archive gained. -/
  improvement : Double
  /-- The targets whose score rose over that of the parent. -/
  added : List String
  /-- The targets whose score fell below that of the parent. -/
  removed : List String
  deriving DecidableEq

namespace Outcome

/-- The targets of `scores` that have a better score there than in `others`. -/
def better (scores others : Table Double) : List String :=
  (scores.filter fun (target, score) => (others.at? target).getD 0 < score).map (·.1)

/-- The outcome for a mutant, from the scores of its parent and its own. -/
def between (parent child : Table Double) (improved : Bool) (improvement : Double) : Outcome where
  improved := improved
  improvement := improvement
  added := better child parent
  removed := better parent child

def hasImpact (o : Outcome) : Bool := o.improved || !o.added.isEmpty || !o.removed.isEmpty

end Outcome

structure ImpactRecord where
  /-- What the record is about. -/
  id : String
  /-- The sum of the improvements. -/
  degree : Double := 0
  manipulations : Nat := 0
  /-- The manipulations with an impact. -/
  impacts : Nat := 0
  /-- The manipulations without an impact. -/
  idle : Nat := 0
  /-- The manipulations without an impact since the last one with an impact. -/
  idleStreak : Nat := 0
  /-- The manipulations with an impact but no improvement since the last one with an improvement. -/
  vainStreak : Nat := 0
  deriving DecidableEq

/-- The number of counts that a counter can tell apart. -/
def counterLimit : Nat := twoPow 32

/-- A count that has to stay below the limit. -/
def counted (n : Nat) : Except Fault Nat := if n < counterLimit then .ok n else .error .overflow

namespace ImpactRecord

/-- Counts one manipulation. -/
def count (r : ImpactRecord) (o : Outcome) : Except Fault ImpactRecord := do
  let manipulations ← counted (r.manipulations + 1)
  if o.hasImpact then
    let impacts ← counted (r.impacts + 1)
    if o.improved then
      return { r with
        manipulations, impacts, idleStreak := 0, vainStreak := 0
        degree := r.degree + o.improvement }
    else
      let vainStreak ← counted (r.vainStreak + 1)
      return { r with manipulations, impacts, idleStreak := 0, vainStreak }
  else
    let idle ← counted (r.idle + 1)
    let idleStreak ← counted (r.idleStreak + 1)
    return { r with manipulations, idle, idleStreak }

/-- The longer one of the streaks. -/
def staleness (r : ImpactRecord) : Nat := max r.idleStreak r.vainStreak

/-- The weight in draws: one for what was never tried, up to two for what always has an impact, down
to zero for what never has one. -/
def weight (r : ImpactRecord) : Except Fault Double := do
  let gained ← counted (1 + 2 * r.impacts)
  let tried ← counted (1 + r.manipulations)
  return Binary.ofInt gained / Binary.ofInt tried

end ImpactRecord

/-- The records of all that was touched. -/
structure ImpactHistory where
  records : Table ImpactRecord := []
  deriving DecidableEq

namespace ImpactHistory

def record? (h : ImpactHistory) (id : String) : Option ImpactRecord := h.records.at? id

/-- Adds a record, in place of one with its id. -/
def insert (h : ImpactHistory) (r : ImpactRecord) : ImpactHistory := ⟨h.records.put r.id r⟩

/-- Counts a manipulation of one thing. -/
def countFor (o : Outcome) (h : ImpactHistory) (id : String) : Except Fault ImpactHistory := do
  let r ← ((h.record? id).getD { id }).count o
  return ⟨h.records.put id r⟩

/-- Counts a manipulation of all that was touched, each thing once. -/
def record (h : ImpactHistory) (touched : List String) (o : Outcome) : Except Fault ImpactHistory :=
  touched.eraseDups.foldlM (countFor o) h

/-- The weight of a thing in draws; one without a record weighs one. -/
def weight (h : ImpactHistory) (id : String) : Except Fault Double :=
  match h.record? id with
  | some r => r.weight
  | none => .ok 1

end ImpactHistory
end CallEvolution
