import CallEvolution.Gene.Basic

/-!
Which side of a link is the source. Data that exists already is never overwritten; otherwise the side
with the better rank wins, and the proposal stands if there is no better one.
-/

namespace CallEvolution.Matching

/-- The rank of a variant as a source, best first. Optionals and cut-off parts have none. -/
def sourceRank? : Variant → Option Nat
  | .primaryKey | .foreignKey | .autoIncrement | .immutableData => some 0
  | .date | .time | .moment => some 1
  | .boolean => some 2
  | .integer => some 3
  | .long => some 4
  | .float => some 5
  | .double => some 6
  | .array | .object | .choice | .cyclePlaceholder | .map => some 7
  | .string | .base64 => some 8
  | .optional | .limitPlaceholder => none

/-- The side of a proposed link that holds data which exists already. -/
inductive ExistingSide where
  | source
  | target
  deriving DecidableEq

inductive Direction where
  | asProposed
  | reversed
  deriving DecidableEq

def direction (source target : Variant) (existing : Option ExistingSide) : Direction :=
  match existing with
  | some .source => .asProposed
  | some .target => .reversed
  | none =>
    match sourceRank? source, sourceRank? target with
    | some s, some t => if t < s then .reversed else .asProposed
    | _, _ => .asProposed

end CallEvolution.Matching
