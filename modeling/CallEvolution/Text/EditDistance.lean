/-!
The edit distance of two lists: the fewest insertions, deletions and replacements that lead from one
to the other, computed row by row.
-/

namespace CallEvolution.Text

variable {α : Type} [DecidableEq α]

/-- The row of distances after one more member `a` of the first list. `diagonal` is the entry of the
old row before those listed, `left` the last entry of the new row. -/
def nextEntries (a : α) : List α → List Nat → Nat → Nat → List Nat
  | b :: bs, up :: row, diagonal, left =>
    let entry := min (min (up + 1) (left + 1)) (if a = b then diagonal else diagonal + 1)
    entry :: nextEntries a bs row up entry
  | _, _, _, _ => []

def nextRow (a : α) (bs : List α) : List Nat → List Nat
  | [] => []
  | first :: row => (first + 1) :: nextEntries a bs row first (first + 1)

/-- The distances of `as` to every initial part of `bs`. -/
def distanceRow (as bs : List α) : List Nat :=
  as.foldl (fun row a => nextRow a bs row) (List.range (bs.length + 1))

def editDistance (as bs : List α) : Nat := (distanceRow as bs).getLastD 0

end CallEvolution.Text
