import CallEvolution.Text.Base64
import Mathlib.Data.List.Basic

/-! Texts in base 64. Every character stands for six bits, and what is read has the bytes that were
written. -/

namespace CallEvolution.Text.Base64

theorem value?_alphabet : ∀ k < 64, value? (alphabet.getD k 'A') = some k := by
  -- the characters are read off the literal once, and not once for every `k`
  have h : ∃ letters, alphabet = letters ∧
      ∀ k < 64, letters.findIdx? (· = letters.getD k 'A') = some k :=
    ⟨_, String.toList_ofList, by decide +kernel⟩
  obtain ⟨letters, hletters, hfind⟩ := h
  simpa only [value?, hletters] using hfind

theorem value?_digit (n : Nat) : value? (digit n) = some (n % 64) :=
  value?_alphabet (n % 64) (Nat.mod_lt n (by decide))

theorem digit_ne (n : Nat) : digit n ≠ '=' := by
  intro h
  have hvalue := value?_digit n
  rw [h] at hvalue
  have hnone : value? '=' = none := by decide +kernel
  rw [hnone] at hvalue
  cases hvalue

theorem ofNat_eq {a : UInt8} {n : Nat} (h : n = a.toNat) : UInt8.ofNat n = a := by
  rw [h, UInt8.ofNat_toNat]

/-- The first byte is found in the first two characters. -/
theorem first_byte (a b : UInt8) :
    a.toNat / 4 % 64 * 4 + (a.toNat * 16 + b.toNat / 16) % 64 / 16 = a.toNat := by
  have ha := a.toNat_lt
  have hb := b.toNat_lt
  omega

/-- Decoding gives the bytes that were encoded, whether one, two or three are left at the end. -/
theorem decode?_encode (bytes : List UInt8) : decode? (encode bytes) = some bytes := by
  induction bytes using encode.induct with
  | case1 => rfl
  | case2 a =>
    have ha := a.toNat_lt
    have hpad : a.toNat * 16 % 64 % 16 = 0 := by omega
    have hfirst : a.toNat / 4 % 64 * 4 + a.toNat * 16 % 64 / 16 = a.toNat := by omega
    simp only [encode, decode?, value?_digit, Option.bind_eq_bind, Option.bind_some, if_pos hpad,
      ofNat_eq hfirst]
  | case3 a b =>
    have hb := b.toNat_lt
    have hpad : b.toNat * 4 % 64 % 4 = 0 := by omega
    have hsecond : (a.toNat * 16 + b.toNat / 16) % 64 % 16 * 16 + b.toNat * 4 % 64 / 4 = b.toNat := by
      omega
    rw [encode, decode?]
    · simp only [value?_digit, Option.bind_eq_bind, Option.bind_some, if_pos hpad,
        ofNat_eq (first_byte a b), ofNat_eq hsecond]
    · exact fun h => absurd h (digit_ne _)
  | case4 a b c rest ih =>
    have hb := b.toNat_lt
    have hc := c.toNat_lt
    have hsecond : (a.toNat * 16 + b.toNat / 16) % 64 % 16 * 16 +
        (b.toNat * 4 + c.toNat / 64) % 64 / 4 = b.toNat := by omega
    have hthird : (b.toNat * 4 + c.toNat / 64) % 64 % 4 * 64 + c.toNat % 64 = c.toNat := by omega
    rw [encode, decode?]
    · simp only [value?_digit, ih, Option.bind_eq_bind, Option.bind_some, ofNat_eq (first_byte a b),
        ofNat_eq hsecond, ofNat_eq hthird]
    · exact fun h => absurd h (digit_ne _)
    · exact fun h => absurd h (digit_ne _)

theorem loop_toList (bytes : ByteArray) (i : Nat) (seen : List UInt8) :
    ByteArray.toList.loop bytes i seen = seen.reverse ++ bytes.data.toList.drop i := by
  -- by induction on the bytes that are left
  induction h : bytes.size - i generalizing i seen with
  | zero =>
    have hle : bytes.size ≤ i := Nat.le_of_sub_eq_zero h
    rw [ByteArray.toList.loop, if_neg (Nat.not_lt.mpr hle), List.drop_eq_nil_of_le hle, List.append_nil]
  | succ k ih =>
    have hlt : i < bytes.size := by omega
    have hget : bytes.get! i = bytes.data.toList[i] := by
      change bytes.data[i]! = _
      rw [getElem!_pos bytes.data i hlt, Array.getElem_toList]
    rw [ByteArray.toList.loop, if_pos hlt, ih (i + 1) _ (by omega), List.reverse_cons, List.append_assoc,
      List.singleton_append, hget, ← List.drop_eq_getElem_cons]

theorem toByteArray_toList (bytes : ByteArray) : bytes.toList.toByteArray = bytes := by
  have hlist : bytes.toList = bytes.data.toList := loop_toList bytes 0 []
  refine ByteArray.ext ?_
  rw [List.data_toByteArray, hlist]

/-- A text is read from its writing in base 64. -/
theorem toText?_ofText (s : String) : toText? (ofText s) = some s := by
  rw [toText?, ofText, String.toList_ofList, decode?_encode, Option.bind_eq_bind, Option.bind_some,
    toByteArray_toList, String.fromUTF8?]
  exact dif_pos s.isValidUTF8

end CallEvolution.Text.Base64
