import CallEvolution.Proofs.Draws

/-! Draws of positions and the streams that they end on. A draw rejects words that would make it uneven, so
the one thing that can keep it from its end is a stream that has nothing but such words for it. -/

namespace CallEvolution
namespace Draw

variable {γ : Type} [RandomSource γ] {α β : Type} {s : γ} {m n size : Nat}

/-- The state of a source behind some words of 64 bits. -/
def behind (n : Nat) (s : γ) : γ := (fun s => (RandomSource.next64 s).2)^[n] s

theorem behind_behind (m n : Nat) (s : γ) : behind n (behind m s) = behind (m + n) s := by
  rw [behind, behind, behind, ← Function.iterate_add_apply, Nat.add_comm]

/-- Are there as many words in a row as a draw takes at most, none of which selects a position of some
range? -/
def Starves (s : γ) : Prop :=
  ∃ n size, 0 < size ∧ ∀ i < redrawLimit,
    select? 64 size (RandomSource.next64 (behind (n + i) s)).1.toNat = none

theorem Starves.of_behind (h : Starves (behind m s)) : Starves s := by
  obtain ⟨n, size, hsize, hnone⟩ := h
  refine ⟨m + n, size, hsize, fun i hi => ?_⟩
  rw [Nat.add_assoc, ← behind_behind]
  exact hnone i hi

/-- A word of zeros selects the first position of every range, so now and then one is enough. -/
theorem not_starves_of_zeros
    (h : ∀ n, ∃ i < redrawLimit, (RandomSource.next64 (behind (n + i) s)).1 = 0) : ¬ Starves s := by
  rintro ⟨n, size, -, hnone⟩
  obtain ⟨i, hi, hzero⟩ := h n
  have hnone := hnone i hi
  simp [hzero, select?] at hnone

/-- Does a draw take some words of 64 bits and end, unless they starve it? -/
def Halts (d : Draw γ α) : Prop :=
  ∀ s, (∃ a n, d s = .ok (a, behind n s)) ∨ (d s = .error .endlessRedraw ∧ Starves s)

namespace Halts

theorem pure (a : α) : Halts (Pure.pure a : Draw γ α) := fun _ => .inl ⟨a, 0, rfl⟩

theorem bind {d : Draw γ α} {k : α → Draw γ β} (hd : Halts d) (hk : ∀ a, Gives d a → Halts (k a)) :
    Halts (d >>= k) := by
  intro s
  rcases hd s with ⟨a, m, ha⟩ | ⟨he, hstarves⟩
  · have hrun : (d >>= k) s = k a (behind m s) := by
      change (d s >>= fun r => k r.1 r.2) = _
      rw [ha]
      rfl
    rw [hrun]
    rcases hk a ⟨s, _, ha⟩ (behind m s) with ⟨b, n, hb⟩ | ⟨he, hstarves⟩
    · exact .inl ⟨b, m + n, by rw [hb, behind_behind]⟩
    · exact .inr ⟨he, hstarves.of_behind⟩
  · refine .inr ⟨?_, hstarves⟩
    change (d s >>= fun r => k r.1 r.2) = _
    rw [he]
    rfl

theorem map {d : Draw γ α} (hd : Halts d) (f : α → β) : Halts (f <$> d) := by
  rw [map_eq_pure_bind]
  exact hd.bind fun _ _ => pure _

end Halts

theorem halts_word64 : Halts (word64 : Draw γ Nat) := fun _ => .inl ⟨_, 1, rfl⟩

omit [RandomSource γ] in
theorem untilSome_of_some {d : Draw γ (Option α)} {a : α} {s' : γ} (h : d s = .ok (some a, s'))
    (limit : Nat) : untilSome d (limit + 1) s = .ok (a, s') := by
  change (d s >>= _) = _
  rw [h]
  rfl

omit [RandomSource γ] in
theorem untilSome_of_none {d : Draw γ (Option α)} {s' : γ} (h : d s = .ok (none, s')) (limit : Nat) :
    untilSome d (limit + 1) s = untilSome d limit s' := by
  change (d s >>= _) = _
  rw [h]
  rfl

/-- A draw of a position is over with the first word that selects one. -/
theorem untilSome_select (size limit : Nat) (s : γ) :
    (∃ a n, untilSome (do return select? 64 size (← word64)) limit s = .ok (a, behind n s)) ∨
    (untilSome (do return select? 64 size (← word64)) limit s = .error .endlessRedraw ∧
      ∀ i < limit, select? 64 size (RandomSource.next64 (behind i s)).1.toNat = none) := by
  induction limit generalizing s with
  | zero => exact .inr ⟨rfl, fun _ hi => absurd hi (Nat.not_lt_zero _)⟩
  | succ limit ih =>
    have hword : (do return select? 64 size (← word64) : Draw γ (Option Nat)) s =
        .ok (select? 64 size (RandomSource.next64 s).1.toNat, behind 1 s) := rfl
    cases h : select? 64 size (RandomSource.next64 s).1.toNat with
    | some a =>
      rw [h] at hword
      exact .inl ⟨a, 1, untilSome_of_some hword limit⟩
    | none =>
      rw [h] at hword
      rw [untilSome_of_none hword]
      rcases ih (behind 1 s) with ⟨a, n, ha⟩ | ⟨he, hnone⟩
      · exact .inl ⟨a, 1 + n, by rw [← behind_behind]; exact ha⟩
      · refine .inr ⟨he, fun i hi => ?_⟩
        cases i with
        | zero => exact h
        | succ i =>
          rw [Nat.add_comm, ← behind_behind]
          exact hnone i (Nat.lt_of_succ_lt_succ hi)

theorem halts_below (h : 0 < size) : Halts (below .bits64 size : Draw γ Nat) := by
  intro s
  rcases untilSome_select size redrawLimit s with hend | ⟨he, hnone⟩
  · exact .inl hend
  · refine .inr ⟨he, 0, size, h, fun i hi => ?_⟩
    rw [Nat.zero_add]
    exact hnone i hi

theorem halts_index (h : 0 < size) : Halts (index size : Draw γ Nat) := by
  have hinteger : Halts (integer .bits64 (0 : Nat) (size - 1 : Nat) : Draw γ Int) := by
    simp only [integer, if_neg (show ¬ ((size - 1 : Nat) : Int) < (0 : Nat) by omega)]
    split
    · exact halts_word64.bind fun _ _ => .pure _
    · exact (halts_below (by omega)).bind fun _ _ => .pure _
  rw [index, if_neg (by omega)]
  exact hinteger.bind fun _ _ => .pure _

end Draw
end CallEvolution
