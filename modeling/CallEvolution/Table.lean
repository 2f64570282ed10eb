/-!
Tables: entries that are sorted by their keys, each key once. Putting an entry changes what is found
under its own key only (`at?_put_self`, `at?_put_of_ne`) and keeps the order (`Sorted.put`), so the
entries put in any order make a sorted table (`sorted_ofEntries`).
-/

namespace CallEvolution

abbrev Table (α : Type) := List (String × α)

namespace Table

variable {α : Type}

/-- Puts an entry into a table; it takes the place of one with its key. -/
def put (key : String) (value : α) : Table α → Table α
  | [] => [(key, value)]
  | (other, kept) :: rest =>
    if key = other then (key, value) :: rest
    else if key < other then (key, value) :: (other, kept) :: rest
    else (other, kept) :: put key value rest

/-- The table of a list of entries, of which later ones count. -/
def ofEntries (entries : List (String × α)) : Table α :=
  entries.foldl (fun t e => put e.1 e.2 t) []

def at? (t : Table α) (key : String) : Option α := t.lookup key

def keys (t : Table α) : List String := t.map (·.1)

def values (t : Table α) : List α := t.map (·.2)

theorem at?_put_self (t : Table α) (key : String) (value : α) :
    (put key value t).at? key = some value := by
  induction t with
  | nil => simp [put, at?]
  | cons e rest ih =>
    obtain ⟨other, kept⟩ := e
    simp only [at?] at ih
    simp only [put]
    split
    · simp [at?]
    · split
      · simp [at?]
      · next h _ => simp only [at?, List.lookup_cons, beq_false_of_ne h, ih]

theorem at?_put_of_ne (t : Table α) {key other : String} (h : other ≠ key) (value : α) :
    (put key value t).at? other = t.at? other := by
  have hb := beq_false_of_ne h
  induction t with
  | nil => simp [put, at?, List.lookup_cons, hb]
  | cons e rest ih =>
    obtain ⟨name, kept⟩ := e
    simp only [at?] at ih
    simp only [put]
    split
    · next heq =>
      subst heq
      simp only [at?, List.lookup_cons, hb]
    · split <;> simp only [at?, List.lookup_cons, hb, ih]

theorem mem_of_at? {t : Table α} {key : String} {value : α} (h : t.at? key = some value) :
    (key, value) ∈ t := by
  obtain ⟨before, after, rfl, -⟩ := List.lookup_eq_some_iff.mp h
  simp

/-- Are the keys in increasing order, each once? -/
def Sorted (t : Table α) : Prop := t.keys.Pairwise (· < ·)

theorem mem_keys_put {t : Table α} {key k : String} {value : α} (h : k ∈ (put key value t).keys) :
    k = key ∨ k ∈ t.keys := by
  induction t with
  | nil => simpa [put, keys] using h
  | cons e rest ih =>
    obtain ⟨other, kept⟩ := e
    simp only [put] at h
    split at h
    · next heq => simpa [keys, heq] using h
    · split at h
      · simpa [keys] using h
      · simp only [keys, List.map_cons, List.mem_cons] at h ih ⊢
        rcases h with h | h
        · exact .inr (.inl h)
        · exact (ih h).imp_right .inr

theorem Sorted.nodup_keys {t : Table α} (h : t.Sorted) : t.keys.Nodup := by
  refine List.Pairwise.imp ?_ h
  rintro key _ hlt rfl
  exact String.lt_irrefl _ hlt

/-- An entry of a table with one entry for each key is found under its key. -/
theorem Sorted.at?_of_mem {t : Table α} (h : t.Sorted) {key : String} {value : α}
    (hmem : (key, value) ∈ t) : t.at? key = some value := by
  induction t with
  | nil => cases hmem
  | cons e rest ih =>
    obtain ⟨other, kept⟩ := e
    simp only [Sorted, keys, List.map_cons, List.pairwise_cons] at h ih
    rcases List.mem_cons.mp hmem with heq | hrest
    · cases heq
      simp [at?]
    · have hlt := h.1 key (List.mem_map_of_mem (f := (·.1)) hrest)
      have hne : key ≠ other := fun heq => String.lt_irrefl _ (heq ▸ hlt)
      have hfound := ih h.2 hrest
      simp only [at?] at hfound
      simp only [at?, List.lookup_cons, beq_false_of_ne hne, hfound]

theorem Sorted.put {t : Table α} (h : t.Sorted) (key : String) (value : α) :
    (Table.put key value t).Sorted := by
  induction t with
  | nil => simp [Table.put, Sorted, keys]
  | cons e rest ih =>
    obtain ⟨other, kept⟩ := e
    simp only [Sorted, keys, List.map_cons, List.pairwise_cons] at h ih ⊢
    simp only [Table.put]
    split
    · next heq => simpa [heq] using h
    · next hne =>
      split
      · next hlt =>
        simp only [List.map_cons, List.pairwise_cons, List.mem_cons]
        refine ⟨?_, h⟩
        rintro k (rfl | hk)
        · exact hlt
        · exact String.lt_trans hlt (h.1 k hk)
      · next hle =>
        simp only [List.map_cons, List.pairwise_cons]
        refine ⟨fun k hk => ?_, ih h.2⟩
        rcases mem_keys_put hk with rfl | hk
        · exact Decidable.byContradiction fun h =>
            hne (String.le_antisymm (String.not_lt.1 h) (String.not_lt.1 hle))
        · exact h.1 k hk

theorem sorted_ofEntries (entries : List (String × α)) : (ofEntries entries).Sorted := by
  suffices ∀ t : Table α, t.Sorted → (entries.foldl (fun t e => Table.put e.1 e.2 t) t).Sorted from
    this [] List.Pairwise.nil
  induction entries with
  | nil => exact fun _ h => h
  | cons e rest ih => exact fun t h => ih _ (h.put e.1 e.2)

end Table
end CallEvolution
