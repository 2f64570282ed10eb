import CallEvolution.Individual.Basic
import Mathlib.Data.List.Basic

/-! The order of the actions of an individual, read off the list of their ids: what a link may join is
a matter of places in this list. -/

namespace CallEvolution

theorem idxOf_le_iff_of_sublist {α : Type} [DecidableEq α] {xs ys : List α} {x y : α}
    (h : xs.Sublist ys) (hys : ys.Nodup) (hx : x ∈ xs) (hy : y ∈ xs) :
    xs.idxOf x ≤ xs.idxOf y ↔ ys.idxOf x ≤ ys.idxOf y := by
  induction h with
  | slnil => cases hx
  | @cons xs ys a h ih =>
    obtain ⟨ha, hys⟩ := List.nodup_cons.mp hys
    have hne : ∀ z, z ∈ xs → a ≠ z := fun z hz he => ha (he ▸ h.subset hz)
    rw [List.idxOf_cons_ne _ (hne x hx), List.idxOf_cons_ne _ (hne y hy)]
    rw [ih hys hx hy]
    omega
  | @cons_cons xs ys a h ih =>
    obtain ⟨ha, hys⟩ := List.nodup_cons.mp hys
    by_cases hax : a = x
    · rw [hax, List.idxOf_cons_self, List.idxOf_cons_self]
      omega
    · by_cases hay : a = y
      · rw [hay, List.idxOf_cons_self, List.idxOf_cons_self, List.idxOf_cons_ne _ (hay ▸ hax),
          List.idxOf_cons_ne _ (hay ▸ hax)]
        omega
      · have hx' := List.mem_of_ne_of_mem (Ne.symm hax) hx
        have hy' := List.mem_of_ne_of_mem (Ne.symm hay) hy
        have hih := ih hys hx' hy'
        rw [List.idxOf_cons_ne _ hax, List.idxOf_cons_ne _ hay, List.idxOf_cons_ne _ hax,
          List.idxOf_cons_ne _ hay]
        omega

namespace Individual

/-- The ids of all actions, initializing ones first. -/
def ids (ind : Individual) : List ActionId := ind.actions.map Action.id

def initIds (ind : Individual) : List ActionId := ind.init.map Action.id

def mainIds (ind : Individual) : List ActionId := ind.main.map Action.id

variable {ind other : Individual} {id : ActionId}

theorem ids_eq (ind : Individual) : ind.ids = ind.initIds ++ ind.mainIds := List.map_append

theorem findIdx?_id (actions : List Action) (id : ActionId) :
    actions.findIdx? (·.id = id) = (actions.map Action.id).idxOf? id := by
  rw [List.idxOf?, List.findIdx?_map]
  rfl

theorem idxOf?_of_mem {α : Type} [DecidableEq α] {xs : List α} {x : α} (h : x ∈ xs) :
    xs.idxOf? x = some (xs.idxOf x) := by
  induction xs with
  | nil => cases h
  | cons y xs ih =>
    by_cases hy : y = x
    · rw [List.idxOf?_cons, hy, List.idxOf_cons_self]
      simp
    · have hx := List.mem_of_ne_of_mem (Ne.symm hy) h
      rw [List.idxOf?_cons, ih hx, List.idxOf_cons_ne _ hy]
      simp [hy]

theorem position?_of_init (h : id ∈ ind.initIds) :
    ind.position? id = some (.init (ind.ids.idxOf id)) := by
  have hidx : ind.ids.idxOf id = ind.initIds.idxOf id := by
    rw [ids_eq, List.idxOf_append_of_mem h]
  rw [position?, findIdx?_id, ← initIds, idxOf?_of_mem h, hidx]

theorem position?_of_main (h : id ∈ ind.mainIds) (hinit : id ∉ ind.initIds) :
    ∃ i, ind.position? id = some (.main i) ∧ ind.ids.idxOf id = ind.initIds.length + i := by
  have hnone : ind.initIds.idxOf? id = none := List.idxOf?_eq_none_iff.mpr hinit
  refine ⟨ind.mainIds.idxOf id, ?_, ?_⟩
  · rw [position?, findIdx?_id, findIdx?_id, ← initIds, ← mainIds, hnone, idxOf?_of_mem h]
    rfl
  · rw [ids_eq, List.idxOf_append_of_notMem hinit]

theorem position?_of_not_mem (h : id ∉ ind.ids) : ind.position? id = none := by
  rw [ids_eq, List.mem_append, not_or] at h
  rw [position?, findIdx?_id, findIdx?_id, ← initIds, ← mainIds,
    List.idxOf?_eq_none_iff.mpr h.1, List.idxOf?_eq_none_iff.mpr h.2]
  rfl

theorem idxOf_lt_of_init (h : id ∈ ind.initIds) : ind.ids.idxOf id < ind.initIds.length := by
  rw [ids_eq, List.idxOf_append_of_mem h]
  exact List.idxOf_lt_length_of_mem h

/-- What may be linked, by the places of the two actions. -/
theorem allows_iff (ind : Individual) (l : Link) :
    ind.allows l = true ↔
      (l.source.action ∈ ind.ids ∧ l.target.action ∈ ind.ids) ∧
      (l.origin = .params → ind.ids.idxOf l.source.action ≤ ind.ids.idxOf l.target.action) ∧
      (l.origin = .database → l.source.action ∈ ind.initIds ∨ l.target.action ∈ ind.initIds) := by
  have hmem : ∀ x, x ∈ ind.ids ↔ x ∈ ind.initIds ∨ x ∈ ind.mainIds := fun x => by
    rw [ids_eq, List.mem_append]
  obtain ⟨source, target, origin⟩ := l
  by_cases hs : source.action ∈ ind.ids
  · by_cases ht : target.action ∈ ind.ids
    · by_cases hsi : source.action ∈ ind.initIds
      · by_cases hti : target.action ∈ ind.initIds
        · rw [allows, position?_of_init hsi, position?_of_init hti]
          cases origin <;>
            simp [hs, ht, hsi, ActionPosition.notAfter, ActionPosition.isMain]
        · obtain ⟨j, hj, hidx⟩ := position?_of_main (((hmem _).mp ht).resolve_left hti) hti
          have hlt := idxOf_lt_of_init hsi
          rw [allows, position?_of_init hsi, hj]
          cases origin <;>
            simp [hs, ht, hsi, ActionPosition.notAfter, ActionPosition.isMain]
          omega
      · obtain ⟨i, hi, hidx⟩ := position?_of_main (((hmem _).mp hs).resolve_left hsi) hsi
        by_cases hti : target.action ∈ ind.initIds
        · have hlt := idxOf_lt_of_init hti
          rw [allows, position?_of_init hti, hi]
          cases origin <;>
            simp [hs, ht, hti, ActionPosition.notAfter, ActionPosition.isMain]
          omega
        · obtain ⟨j, hj, hidx'⟩ := position?_of_main (((hmem _).mp ht).resolve_left hti) hti
          rw [allows, hi, hj]
          cases origin <;>
            simp [hs, ht, hsi, hti, ActionPosition.notAfter, ActionPosition.isMain]
          omega
    · rw [allows, position?_of_not_mem ht]
      cases ind.position? source.action <;> simp [ht]
  · rw [allows, position?_of_not_mem hs]
    simp [hs]

/-- Which links are allowed depends on the ids only. -/
theorem allows_congr (hinit : other.initIds = ind.initIds) (hmain : other.mainIds = ind.mainIds)
    (l : Link) : other.allows l = ind.allows l := by
  rw [Bool.eq_iff_iff, allows_iff, allows_iff, ids_eq, ids_eq, hinit, hmain]

theorem map_id_modifyFirst {f : Action → Action} (hf : ∀ a, (f a).id = a.id) (actions : List Action) :
    (modifyFirst id f actions).map Action.id = actions.map Action.id := by
  induction actions with
  | nil => rfl
  | cons a rest ih =>
    rw [modifyFirst]
    split
    · rw [List.map_cons, List.map_cons, hf]
    · rw [List.map_cons, List.map_cons, ih]

end Individual
end CallEvolution
