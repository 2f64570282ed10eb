import CallEvolution.Calendar.Text
import CallEvolution.Decimal.Reader
import CallEvolution.Number.Power
import Mathlib.Data.List.TakeWhile

/-! Whole numbers as text. Reading digits gives the number that was written, also behind zeros. -/

namespace CallEvolution

open Text

namespace Text

theorem ofDigits_eq (cs : List Char) : ofDigits cs = Nat.ofDigitChars 10 cs 0 :=
  Nat.ofDigitChars_eq_foldl.symm

theorem ofDigits_toDigits (n : Nat) : ofDigits (Nat.toDigits 10 n) = n := by
  rw [ofDigits_eq, Nat.ofDigitChars_ten_toDigits]

theorem isDigit_toDigits (n : Nat) : ∀ c ∈ Nat.toDigits 10 n, c.isDigit = true :=
  fun _ => Nat.isDigit_of_mem_toDigits (by decide) (Nat.le_refl 10)

theorem isBlank_of_isDigit {c : Char} (h : c.isDigit = true) : isBlank c = false := by
  simp only [Char.isDigit, ge_iff_le, Bool.and_eq_true, decide_eq_true_eq, UInt32.le_iff_toNat_le] at h
  have hc : 48 ≤ c.toNat ∧ c.toNat ≤ 57 := h
  simp only [isBlank, Bool.or_eq_false_iff, Bool.and_eq_false_iff, decide_eq_false_iff_not]
  omega

/-- A text without blanks stays as it is. -/
theorem trimList_eq {cs : List Char} (h : ∀ c ∈ cs, isBlank c = false) : trimList cs = cs := by
  have hdrop : ∀ l : List Char, (∀ c ∈ l, isBlank c = false) → l.dropWhile isBlank = l := by
    intro l hl
    cases l with
    | nil => rfl
    | cons c l => rw [List.dropWhile_cons_of_neg (by simp [hl c (by simp)])]
  rw [trimList, hdrop cs h, hdrop _ fun c hc => h c (List.mem_reverse.mp hc), List.reverse_reverse]

end Text

namespace Decimal

theorem splitSign_of_digits {cs : List Char} (hne : cs ≠ []) (h : ∀ c ∈ cs, c.isDigit = true) :
    splitSign cs = (false, cs) := by
  cases cs with
  | nil => exact absurd rfl hne
  | cons c cs =>
    have hc := h c (by simp)
    have hminus : c ≠ '-' := by
      rintro rfl
      cases hc
    have hplus : c ≠ '+' := by
      rintro rfl
      cases hc
    unfold splitSign
    split
    · next heq => exact absurd (List.cons.inj heq).1 hminus
    · next heq => exact absurd (List.cons.inj heq).1 hplus
    · rfl

theorem toList_toString (n : Int) : (toString n).toList =
    if 0 ≤ n then Nat.toDigits 10 n.toNat else '-' :: Nat.toDigits 10 (-n).toNat := by
  change n.repr.toList = _
  rw [Int.repr_eq_if]
  split
  · exact Nat.toList_repr
  · rw [String.toList_append, Nat.toList_repr]
    rfl

/-- A whole number is read as it was written. -/
theorem integer?_toString (n : Int) : integer? (Text.trim (toString n)) = some n := by
  have hblank : ∀ c ∈ (toString n).toList, isBlank c = false := by
    rw [toList_toString]
    split
    · exact fun c hc => isBlank_of_isDigit (isDigit_toDigits _ c hc)
    · refine List.forall_mem_cons.mpr ⟨by decide, ?_⟩
      exact fun c hc => isBlank_of_isDigit (isDigit_toDigits _ c hc)
  have hall : ∀ k, (Nat.toDigits 10 k).all Char.isDigit = true := fun k =>
    List.all_eq_true.mpr (isDigit_toDigits k)
  have hempty : ∀ k, (Nat.toDigits 10 k).isEmpty = false := fun k =>
    List.isEmpty_eq_false_iff.mpr Nat.toDigits_ne_nil
  rw [integer?, Text.trim, String.toList_ofList, trimList_eq hblank, toList_toString]
  by_cases h : 0 ≤ n
  · rw [if_pos h, splitSign_of_digits Nat.toDigits_ne_nil (isDigit_toDigits _)]
    simp [hempty, hall, ofDigits_toDigits, Int.toNat_of_nonneg h]
  · rw [if_neg h, splitSign]
    simp [hempty, hall, ofDigits_toDigits, Int.toNat_of_nonneg (a := -n) (by omega)]

end Decimal

namespace Calendar

theorem toList_pushn (s : String) (c : Char) (n : Nat) :
    (s.pushn c n).toList = s.toList ++ List.replicate n c := by
  rw [String.pushn_eq_repeat_push]
  induction n with
  | zero => exact (List.append_nil _).symm
  | succ n ih =>
    rw [Nat.repeat, String.toList_push, ih, List.append_assoc, List.replicate_succ']

/-- Digits that fill at least `width` places. -/
theorem toList_padded (width n : Nat) : (padded width n).toList =
    List.replicate (width - (Nat.toDigits 10 n).length) '0' ++ Nat.toDigits 10 n := by
  have hlength : (toString n).length = (Nat.toDigits 10 n).length := by
    rw [Nat.toString_eq_ofList_toDigits, String.length_ofList]
  rw [padded, hlength, String.toList_append, Nat.toString_eq_ofList_toDigits, String.toList_ofList,
    toList_pushn]
  rfl

theorem isDigit_padded (width n : Nat) : ∀ c ∈ (padded width n).toList, c.isDigit = true := by
  rw [toList_padded]
  intro c hc
  rcases List.mem_append.mp hc with hc | hc
  · rw [List.eq_of_mem_replicate hc]
    rfl
  · exact isDigit_toDigits n c hc

theorem padded_ne_nil (width n : Nat) : (padded width n).toList ≠ [] := by
  rw [toList_padded]
  exact List.append_ne_nil_of_right_ne_nil _ Nat.toDigits_ne_nil

/-- Zeros in front do not change the number. -/
theorem ofDigits_padded (width n : Nat) : ofDigits (padded width n).toList = n := by
  rw [toList_padded, ofDigits_eq, Nat.ofDigitChars_append, Nat.ofDigitChars_replicate_zero, Nat.mul_zero,
    Nat.ofDigitChars_ten_toDigits]

theorem length_padded {width n : Nat} (hwidth : 0 < width) (h : n < tenPow width) :
    (padded width n).toList.length = width := by
  have hle : (Nat.toDigits 10 n).length ≤ width := (Nat.length_toDigits_le_iff (by decide) hwidth).mpr h
  rw [toList_padded, List.length_append, List.length_replicate]
  omega

theorem skipBlanks_padded (width n : Nat) (rest : List Char) :
    skipBlanks ((padded width n).toList ++ rest) = (padded width n).toList ++ rest := by
  have hdigits := isDigit_padded width n
  have hne := padded_ne_nil width n
  generalize (padded width n).toList = cs at hdigits hne
  cases cs with
  | nil => exact absurd rfl hne
  | cons c cs =>
    have hc := isBlank_of_isDigit (hdigits c (by simp))
    rw [skipBlanks, List.cons_append, List.dropWhile_cons_of_neg (by simp [hc])]

/-- A number that fills its places is read, whatever comes behind. -/
theorem number?_padded {width n : Nat} (hwidth : 0 < width) (h : n < tenPow width) (rest : List Char) :
    number? width ((padded width n).toList ++ rest) = some (n, rest) := by
  have hlength := length_padded hwidth h
  have hempty : (padded width n).toList.isEmpty = false :=
    List.isEmpty_eq_false_iff.mpr (padded_ne_nil width n)
  have htake : (((padded width n).toList ++ rest).take width).takeWhile Char.isDigit =
      (padded width n).toList := by
    rw [List.take_append_of_le_length (Nat.le_of_eq hlength.symm),
      List.take_of_length_le (Nat.le_of_eq hlength), List.takeWhile_eq_self_iff]
    exact isDigit_padded width n
  simp only [number?, skipBlanks_padded, htake, hempty, ofDigits_padded, List.drop_left]
  rfl

/-- A number is read up to the next character that is no digit. -/
theorem digits?_padded (width n : Nat) {c : Char} (hc : c.isDigit = false) (rest : List Char) :
    digits? ((padded width n).toList ++ c :: rest) = some (n, c :: rest) := by
  have hempty : (padded width n).toList.isEmpty = false :=
    List.isEmpty_eq_false_iff.mpr (padded_ne_nil width n)
  have htake : ((padded width n).toList ++ c :: rest).takeWhile Char.isDigit = (padded width n).toList := by
    rw [List.takeWhile_append_of_pos (isDigit_padded width n), List.takeWhile_cons_of_neg (by simp [hc]),
      List.append_nil]
  have hdrop : ((padded width n).toList ++ c :: rest).dropWhile Char.isDigit = c :: rest := by
    rw [List.dropWhile_append_of_pos (isDigit_padded width n), List.dropWhile_cons_of_neg (by simp [hc])]
  rw [digits?, htake, hdrop, hempty, ofDigits_padded]
  rfl

end Calendar
end CallEvolution
