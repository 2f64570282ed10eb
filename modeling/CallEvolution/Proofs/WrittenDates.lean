import CallEvolution.Proofs.WrittenNumbers

/-! Days, times and moments as text. Each part is read as it was written, in front of whatever comes next:
years of any sign, and second 60 as the leap second. -/

namespace CallEvolution

namespace Time

/-- Is a time without a fraction of a second? The leap second is second 60. -/
def IsWhole (t : Time) : Prop := t.subsecond = 0 ∧ (t.nanos ≠ 0 → t.seconds % 60 = 59)

theorem second_eq {t : Time} (h : t.IsWhole) :
    min t.second 59 = t.seconds % 60 ∧ (t.second - t.seconds % 60) * nanosPerSecond = t.nanos ∧
      t.second ≤ 60 := by
  obtain ⟨hsub, hleap⟩ := h
  have hlt := t.nanos_lt
  simp only [subsecond, nanosPerSecond] at hsub
  simp only [second, nanosPerSecond]
  omega

/-- The parts of a whole time make it up again. -/
theorem ofParts?_parts {t : Time} (h : t.IsWhole) : ofParts? t.hour t.minute t.second 0 = some t := by
  obtain ⟨hmin, hnanos, hle⟩ := second_eq h
  have hparts : t.hour * 3600 + t.minute * 60 + t.seconds % 60 = t.seconds := by
    rw [hour, minute]
    omega
  have hbounds : t.hour < 24 ∧ t.minute < 60 := by
    have := t.seconds_lt
    rw [hour, minute]
    omega
  simp only [ofParts?, hmin, hnanos, Nat.zero_add, hparts]
  exact dif_pos ⟨hbounds.1, hbounds.2, hle, t.nanos_lt⟩

end Time

namespace Calendar

theorem separator?_cons (c : Char) (cs : List Char) : separator? .beforeNumbers c (c :: cs) = some cs := by
  simp [separator?, spaced]

theorem padded_eq_cons (width n : Nat) :
    ∃ c cs, (padded width n).toList = c :: cs ∧ c.isDigit = true := by
  obtain ⟨c, cs, hcs⟩ := List.exists_cons_of_ne_nil (padded_ne_nil width n)
  exact ⟨c, cs, hcs, isDigit_padded width n c (by simp [hcs])⟩

theorem year?_of_isDigit {c : Char} {cs : List Char} (hc : c.isDigit = true) :
    year? (c :: cs) = (number? 4 (c :: cs)).map fun (n, cs) => ((n : Int), cs) := by
  have hblank := Text.isBlank_of_isDigit hc
  have hskip : skipBlanks (c :: cs) = c :: cs := List.dropWhile_cons_of_neg (by simp [hblank])
  rw [year?, hskip]
  split
  · next heq =>
    cases heq
    cases hc
  · next heq =>
    cases heq
    cases hc
  · rfl

theorem year?_minus (cs : List Char) : year? ('-' :: cs) = (digits? cs).map fun (n, cs) => (-(n : Int), cs) :=
  rfl

theorem year?_plus (cs : List Char) : year? ('+' :: cs) = (digits? cs).map fun (n, cs) => ((n : Int), cs) :=
  rfl

theorem year?_yearText (y : Int) (rest : List Char) :
    year? ((yearText y).toList ++ '-' :: rest) = some (y, '-' :: rest) := by
  by_cases hbare : 0 ≤ y ∧ y ≤ 9999
  · have hplaces : y.toNat < 10000 := by omega
    have hread := @number?_padded 4 y.toNat (by decide) hplaces ('-' :: rest)
    obtain ⟨c, cs, hcs, hc⟩ := padded_eq_cons 4 y.toNat
    rw [yearText, if_pos hbare]
    rw [hcs, List.cons_append] at hread ⊢
    rw [year?_of_isDigit hc, hread]
    exact congrArg (fun n : Int => some (n, '-' :: rest)) (Int.toNat_of_nonneg hbare.1)
  · have hread := digits?_padded 4 y.natAbs (c := '-') rfl rest
    rw [yearText, if_neg hbare]
    by_cases hneg : y < 0
    · have htext : ("-" ++ padded 4 y.natAbs).toList ++ '-' :: rest =
          '-' :: ((padded 4 y.natAbs).toList ++ '-' :: rest) := by simp
      rw [if_pos hneg, htext, year?_minus, hread]
      exact congrArg (fun n : Int => some (n, '-' :: rest)) (by omega : -(y.natAbs : Int) = y)
    · have htext : ("+" ++ padded 4 y.natAbs).toList ++ '-' :: rest =
          '+' :: ((padded 4 y.natAbs).toList ++ '-' :: rest) := by simp
      rw [if_neg hneg, htext, year?_plus, hread]
      exact congrArg (fun n : Int => some (n, '-' :: rest)) (Int.natAbs_of_nonneg (Int.not_lt.mp hneg))

theorem toList_dateText (d : Date) : (dateText d).toList = (yearText d.year).toList ++
    '-' :: ((padded 2 d.month).toList ++ '-' :: (padded 2 d.day).toList) := by
  simp [dateText, String.toList_append]

theorem toList_timeText (t : Time) : (timeText t).toList = (padded 2 t.hour).toList ++
    ':' :: ((padded 2 t.minute).toList ++ ':' :: (padded 2 t.second).toList) := by
  simp [timeText, String.toList_append]

theorem daysInMonth_le (y : Int) (month : Nat) : daysInMonth y month ≤ 31 := by
  have hall : ∀ days ∈ monthLengths y, days ≤ 31 := by
    rw [monthLengths]
    split <;> decide
  rw [daysInMonth, List.getD_eq_getElem?_getD]
  cases hdays : (monthLengths y)[month - 1]? with
  | none => exact Nat.zero_le 31
  | some days => exact hall days (List.mem_of_getElem? hdays)

/-- A day is read as it was written, whatever comes behind. -/
theorem dateAt?_dateText (d : Date) (rest : List Char) :
    dateAt? .beforeNumbers ((dateText d).toList ++ rest) = some (d, rest) := by
  have hmonth : d.month < tenPow 2 := Nat.lt_of_le_of_lt d.isDay.2.2.2.1 (by decide)
  have hday : d.day < tenPow 2 := Nat.lt_of_le_of_lt (d.isDay.2.2.2.2.2.trans (daysInMonth_le _ _)) (by decide)
  rw [toList_dateText, List.append_assoc, List.cons_append, List.append_assoc, List.cons_append]
  simp only [dateAt?, year?_yearText, Option.bind_eq_bind, Option.bind_some, separator?_cons,
    number?_padded Nat.two_pos hmonth, number?_padded Nat.two_pos hday]
  rw [Date.ofParts?, dif_pos d.isDay]
  rfl

theorem timeAt?_timeText {t : Time} (h : t.IsWhole) (rest : List Char) :
    timeAt? .beforeNumbers ((timeText t).toList ++ rest) = some (t, rest) := by
  have hlt := t.seconds_lt
  have hsixty := (Time.second_eq h).2.2
  have hplaces : tenPow 2 = 100 := rfl
  have hhour : t.hour < tenPow 2 := by
    rw [Time.hour, hplaces]
    omega
  have hminute : t.minute < tenPow 2 := by
    rw [Time.minute, hplaces]
    omega
  have hsecond : t.second < tenPow 2 := by omega
  rw [toList_timeText, List.append_assoc, List.cons_append, List.append_assoc, List.cons_append]
  simp only [timeAt?, secondAt?, Option.bind_eq_bind, Option.bind_some, separator?_cons,
    number?_padded Nat.two_pos hhour, number?_padded Nat.two_pos hminute,
    number?_padded Nat.two_pos hsecond, if_neg (Nat.not_lt.mpr hsixty), Option.pure_def,
    Time.ofParts?_parts h]

theorem date?_dateText (d : Date) : date? .beforeNumbers (dateText d) = some d := by
  have hread := dateAt?_dateText d []
  rw [List.append_nil] at hread
  rw [date?, hread]
  rfl

theorem time?_timeText {t : Time} (h : t.IsWhole) : time? .beforeNumbers (timeText t) = some t := by
  have hread := timeAt?_timeText h []
  rw [List.append_nil] at hread
  rw [time?, hread]
  rfl

theorem moment?_momentText {m : Moment} (h : m.time.IsWhole) :
    moment? .beforeNumbers (momentText m) = some m := by
  have htext : (momentText m).toList = (dateText m.date).toList ++ 'T' :: ((timeText m.time).toList ++ []) := by
    simp [momentText, String.toList_append]
  rw [moment?, htext]
  simp only [dateAt?_dateText, Option.bind_eq_bind, Option.bind_some, separator?_cons,
    timeAt?_timeText h]
  rfl

end Calendar
end CallEvolution
