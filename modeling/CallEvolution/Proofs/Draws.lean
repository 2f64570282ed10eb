import CallEvolution.Gene.Mutation
import CallEvolution.Proofs.Extents
import CallEvolution.Proofs.Outcome

/-! What draws can give: numbers within their range, texts of their length, keys that are not used. -/

namespace CallEvolution

theorem ofInt32_mem {low high : Int32} {n : Int} (h : low.toInt ≤ n ∧ n ≤ high.toInt) :
    low ≤ .ofInt n ∧ .ofInt n ≤ high := by
  have hlow := low.le_toInt
  have hhigh := high.toInt_lt
  rw [Int32.le_iff_toInt_le, Int32.le_iff_toInt_le, Int32.toInt_ofInt_of_le (by omega) (by omega)]
  exact h

theorem ofInt64_mem {low high : Int64} {n : Int} (h : low.toInt ≤ n ∧ n ≤ high.toInt) :
    low ≤ .ofInt n ∧ .ofInt n ≤ high := by
  have hlow := low.le_toInt
  have hhigh := high.toInt_lt
  rw [Int64.le_iff_toInt_le, Int64.le_iff_toInt_le, Int64.toInt_ofInt_of_le (by omega) (by omega)]
  exact h

theorem add_mod_ne {a shift size : Nat} (ha : a < size) (hshift : 0 < shift) (hlt : shift < size) :
    a ≠ (a + shift) % size := by
  by_cases hwrap : a + shift < size
  · rw [Nat.mod_eq_of_lt hwrap]
    omega
  · rw [Nat.mod_eq_sub_mod (by omega), Nat.mod_eq_of_lt (by omega)]
    omega

namespace Draw

variable {γ : Type}

theorem gives_of_bind {α β : Type} {d : Draw γ α} {f : α → Draw γ β} {b : β}
    (h : Gives (d >>= f) b) : ∃ a, Gives d a ∧ Gives (f a) b :=
  Outcomes.exists_of_bind h

theorem eq_of_gives_pure {α : Type} {a b : α} (h : Gives (pure a : Draw γ α) b) : b = a :=
  Outcomes.eq_of_pure h

theorem gives_of_map {α β : Type} {d : Draw γ α} {f : α → β} {b : β} (h : Gives (f <$> d) b) :
    ∃ a, Gives d a ∧ b = f a := by
  rw [map_eq_pure_bind] at h
  obtain ⟨a, ha, h⟩ := gives_of_bind h
  exact ⟨a, ha, eq_of_gives_pure h⟩

theorem not_gives_fault {α : Type} {f : Fault} {a : α} : ¬ Gives (fault f : Draw γ α) a := by
  rintro ⟨s, s', h⟩
  cases h

theorem gives_of_untilSome {α : Type} {d : Draw γ (Option α)} {limit : Nat} {a : α}
    (h : Gives (untilSome d limit) a) : Gives d (some a) := by
  induction limit with
  | zero => exact absurd h not_gives_fault
  | succ limit ih =>
    obtain ⟨r, hr, h⟩ := gives_of_bind h
    cases r with
    | none => exact ih h
    | some b =>
      rw [eq_of_gives_pure h]
      exact hr

variable [RandomSource γ]

theorem word_lt {w : Width} {n : Nat} (h : Gives (word w : Draw γ Nat) n) : n < twoPow w.bits := by
  obtain ⟨s, s', h⟩ := h
  cases w with
  | bits32 =>
    have hn : (RandomSource.next32 s).1.toNat = n := congrArg Prod.fst (Except.ok.inj h)
    rw [← hn]
    exact UInt32.toNat_lt _
  | bits64 =>
    have hn : (RandomSource.next64 s).1.toNat = n := congrArg Prod.fst (Except.ok.inj h)
    rw [← hn]
    exact UInt64.toNat_lt _

theorem below_lt {w : Width} {size n : Nat} (hsize : 0 < size)
    (h : Gives (below w size : Draw γ Nat) n) : n < size := by
  obtain ⟨v, hv, h⟩ := gives_of_bind (gives_of_untilSome h)
  have hselect := eq_of_gives_pure h
  simp only [select?] at hselect
  split at hselect
  · rw [Option.some.injEq] at hselect
    rw [hselect]
    refine Nat.div_lt_of_lt_mul ?_
    exact Nat.mul_lt_mul_of_pos_right (word_lt hv) hsize
  · cases hselect

/-- A whole number lies in its range, if that is one of the numbers of a width. -/
theorem integer_mem {w : Width} {low high n : Int}
    (hrange : 0 ≤ low ∨ -(twoPow (w.bits - 1) : Int) ≤ low ∧ high < twoPow (w.bits - 1))
    (h : Gives (integer w low high : Draw γ Int) n) : low ≤ n ∧ n ≤ high := by
  simp only [integer] at h
  split at h
  · exact absurd h not_gives_fault
  · by_cases hsize : (high - low + 1).toNat = twoPow w.bits
    · rw [if_pos hsize] at h
      obtain ⟨v, hv, h⟩ := gives_of_bind h
      have hlt := word_lt hv
      have hn := eq_of_gives_pure h
      by_cases hlow : low < 0
      · have hhalf : twoPow w.bits = 2 * twoPow (w.bits - 1) := by cases w <;> rfl
        have hmin := Int.le_bmod (x := v) (twoPow_pos w.bits)
        have hmax := Int.bmod_lt (x := v) (twoPow_pos w.bits)
        rw [if_pos hlow] at hn
        omega
      · rw [if_neg hlow] at hn
        omega
    · rw [if_neg hsize] at h
      obtain ⟨v, hv, h⟩ := gives_of_bind h
      have hlt := below_lt (by omega) hv
      have hn := eq_of_gives_pure h
      omega

theorem count_mem {low high n : Nat} (h : Gives (count low high : Draw γ Nat) n) :
    low ≤ n ∧ n ≤ high := by
  obtain ⟨x, hx, h⟩ := gives_of_bind h
  have hmem := integer_mem (.inl (by omega)) hx
  have hn := eq_of_gives_pure h
  omega

theorem index_lt {size n : Nat} (h : Gives (index size : Draw γ Nat) n) : n < size := by
  rw [index] at h
  split at h
  · exact absurd h not_gives_fault
  · have hmem := count_mem h
    omega

theorem int32_mem {low high x : Int32} (h : Gives (int32 low high : Draw γ Int32) x) :
    low ≤ x ∧ x ≤ high := by
  obtain ⟨n, hn, h⟩ := gives_of_bind h
  rw [eq_of_gives_pure h]
  exact ofInt32_mem (integer_mem (w := .bits32) (.inr ⟨low.le_toInt, high.toInt_lt⟩) hn)

theorem int64_mem {low high x : Int64} (h : Gives (int64 low high : Draw γ Int64) x) :
    low ≤ x ∧ x ≤ high := by
  obtain ⟨n, hn, h⟩ := gives_of_bind h
  rw [eq_of_gives_pure h]
  exact ofInt64_mem (integer_mem (w := .bits64) (.inr ⟨low.le_toInt, high.toInt_lt⟩) hn)

/-- A number of an interval lies in it, and there are none of an unbounded interval. -/
theorem real_mem {F : Format} {w : Width} {discard : Nat} {low high x : Binary F}
    (h : Gives (real w discard low high : Draw γ (Binary F)) x) :
    low.isFinite = true ∧ high.isFinite = true ∧ low ≤ x ∧ x ≤ high := by
  simp only [real] at h
  split at h
  · exact absurd h not_gives_fault
  · next hlt =>
    split at h
    · exact absurd h not_gives_fault
    · next hscale =>
      obtain ⟨hlow, hhigh, hnonneg⟩ := Binary.sub_nonneg (not_not.mp hlt) (by simpa using hscale)
      obtain ⟨f, hf, h⟩ := gives_of_bind (gives_of_untilSome h)
      have hsome := eq_of_gives_pure h
      split at hsome
      · next hbelow =>
        rw [Option.some.injEq] at hsome
        subst hsome
        refine ⟨hlow, hhigh, ?_, Binary.le_of_lt hbelow⟩
        have hfraction : 0 ≤ f.extent := by
          obtain ⟨v, -, hf⟩ := gives_of_bind hf
          rw [eq_of_gives_pure hf, Binary.ofRatio, Binary.extent_round,
            decide_eq_false (Int.natCast_nonneg _).not_gt]
          exact Int.natCast_nonneg _
        have hnumber := (Binary.not_isNaN_of_le (Binary.le_of_lt hbelow)).1
        rcases Binary.mul_nonneg_or_nan hfraction hnonneg with hnan | hproduct
        · have hsum := Binary.isNaN_of_add hnumber
          rw [hnan] at hsum
          cases hsum
        · exact Binary.le_add_of_extent (Binary.isNaN_of_add hnumber) hproduct hlow
      · cases hsome

theorem isFinite_realStep {value delta : Double} (h : Gives (realStep value : Draw γ Double) delta) :
    delta.isFinite = true := by
  obtain ⟨hlow, hhigh, hle, hle'⟩ := real_mem h
  exact Binary.isFinite_of_between hlow hhigh hle hle'

theorem length_letters {n : Nat} {cs : List Char} (h : Gives (letters n : Draw γ (List Char)) cs) :
    cs.length = n := by
  induction n generalizing cs with
  | zero => rw [eq_of_gives_pure h, List.length_nil]
  | succ n ih =>
    obtain ⟨c, -, h⟩ := gives_of_bind h
    obtain ⟨rest, hrest, h⟩ := gives_of_bind h
    rw [eq_of_gives_pure h, List.length_cons, ih hrest]

theorem length_text {n : Nat} {s : String} (h : Gives (text n : Draw γ String) s) : s.length = n := by
  rw [text] at h
  split at h
  · exact absurd h not_gives_fault
  · obtain ⟨cs, hcs, h⟩ := gives_of_bind h
    rw [eq_of_gives_pure h, String.length_ofList, length_letters hcs]

theorem key_notMem {used : List String} {key : String}
    (h : Gives (Draw.key used : Draw γ String) key) : key ∉ used := by
  obtain ⟨length, -, h⟩ := gives_of_bind (gives_of_untilSome h)
  obtain ⟨key', -, h⟩ := gives_of_bind h
  have hsome := eq_of_gives_pure h
  split at hsome
  · cases hsome
  · next hnot =>
    rw [Option.some.injEq] at hsome
    subst hsome
    simpa using hnot

theorem mem_textEdits {length min max : Nat} {e : TextEdit} (h : e ∈ textEdits length min max) :
    (e = .insert → length < max) ∧ (e = .remove → min < length) ∧ (e = .replace → 0 < length) := by
  simp only [textEdits, List.mem_append] at h
  rcases h with (h | h) | h
  all_goals
    split at h
    · rw [List.mem_singleton.mp h]
      simp [*]
    · cases h

theorem length_editText {chars cs : List Char} {min max : Nat} (hmin : min ≤ chars.length)
    (hmax : chars.length ≤ max)
    (h : Gives (editText chars (textEdits chars.length min max) : Draw γ (List Char)) cs) :
    min ≤ cs.length ∧ cs.length ≤ max := by
  obtain ⟨letter, -, h⟩ := gives_of_bind h
  obtain ⟨i, -, h⟩ := gives_of_bind h
  split at h
  · next hedit =>
    obtain ⟨j, hj, h⟩ := gives_of_bind h
    have hlt := (mem_textEdits (List.mem_of_getElem? hedit)).1 rfl
    have hle := (count_mem hj).2
    rw [eq_of_gives_pure h, List.length_append, List.length_cons, List.length_take, List.length_drop]
    omega
  · next hedit =>
    obtain ⟨j, hj, h⟩ := gives_of_bind h
    have hlt := (mem_textEdits (List.mem_of_getElem? hedit)).2.1 rfl
    rw [eq_of_gives_pure h, List.length_eraseIdx, if_pos (index_lt hj)]
    omega
  · obtain ⟨j, -, h⟩ := gives_of_bind h
    rw [eq_of_gives_pure h, List.length_modify]
    exact ⟨hmin, hmax⟩

/-- A text stays within its bounds when it is mutated. -/
theorem length_editedText {value s : String} {min max : Nat} (hmin : min ≤ value.length)
    (hmax : value.length ≤ max)
    (h : Gives (if (textEdits value.length min max).isEmpty then pure value
      else do return String.ofList (← editText value.toList (textEdits value.length min max)) :
        Draw γ String) s) : min ≤ s.length ∧ s.length ≤ max := by
  split at h
  · rw [eq_of_gives_pure h]
    exact ⟨hmin, hmax⟩
  · obtain ⟨cs, hcs, h⟩ := gives_of_bind h
    rw [eq_of_gives_pure h, String.length_ofList]
    rw [← String.length_toList] at hmin hmax hcs
    exact length_editText hmin hmax hcs

theorem length_mutatedText {value s : String} {min max : Nat} {resample : Bool}
    (hmin : min ≤ value.length) (hmax : value.length ≤ max)
    (h : Gives (mutatedText value min max resample : Draw γ String) s) :
    min ≤ s.length ∧ s.length ≤ max := by
  simp only [mutatedText] at h
  split at h
  · obtain ⟨n, hn, h⟩ := gives_of_bind h
    obtain ⟨fresh, hfresh, h⟩ := gives_of_bind h
    obtain ⟨x, hx, rfl⟩ := gives_of_map hfresh
    split at h
    · next y hy =>
      have hyx := Option.some.inj (Option.filter_eq_some_iff.mp hy).1
      rw [eq_of_gives_pure h, ← hyx, length_text hx]
      exact count_mem hn
    · exact length_editedText hmin hmax h
  · obtain ⟨fresh, hfresh, h⟩ := gives_of_bind h
    obtain rfl := eq_of_gives_pure hfresh
    exact length_editedText hmin hmax h

end Draw
end CallEvolution
