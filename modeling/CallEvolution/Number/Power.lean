/-!
Powers of two and of ten. A power of two is the distance of binary numbers of one size, so what is
needed of it is how it multiplies (`twoPow_add`), grows (`twoPow_le`) and divides (`twoPow_dvd`).
-/

namespace CallEvolution

/-- The least number with more than `k` binary digits. -/
def twoPow (k : Nat) : Nat := Nat.pow 2 k

/-- The least number with more than `k` decimal digits. -/
def tenPow (k : Nat) : Nat := Nat.pow 10 k

theorem twoPow_pos (k : Nat) : 0 < twoPow k := Nat.two_pow_pos k

theorem twoPow_add (j k : Nat) : twoPow (j + k) = twoPow j * twoPow k := Nat.pow_add 2 j k

theorem twoPow_le {j k : Nat} (h : j ≤ k) : twoPow j ≤ twoPow k :=
  Nat.pow_le_pow_right (by decide) h

theorem twoPow_dvd {j k : Nat} (h : j ≤ k) : twoPow j ∣ twoPow k := Nat.pow_dvd_pow 2 h

theorem log2_twoPow (k : Nat) : (twoPow k).log2 = k := Nat.log2_two_pow

theorem lt_twoPow_log2 (n : Nat) : n < twoPow (n.log2 + 1) := Nat.lt_log2_self

theorem log2_lt_iff {n k : Nat} (h : n ≠ 0) : n.log2 < k ↔ n < twoPow k := Nat.log2_lt h

end CallEvolution
