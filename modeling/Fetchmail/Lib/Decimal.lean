import Fetchmail.Lib.Bytes

/-!
# Decimal Numbers

A number that was printed with `%d` is read back by the functions of the C library.
-/

namespace Fetchmail.Lib.Bytes

theorem toNat_digit {n : Nat} (h : n < 10) : (digit n).toNat = 48 + n := by
  rw [digit, UInt8.toNat_ofNat_of_lt' (by simpa using (by omega : 48 + n < 256))]

theorem digitVal_digit {n : Nat} (h : n < 10) : digitVal (digit n) = n := by
  rw [digitVal, toNat_digit h]
  omega

theorem isdigit_digit {n : Nat} (h : n < 10) : isdigit (digit n) = true := by
  have hval := toNat_digit h
  simp only [isdigit, Bool.and_eq_true, decide_eq_true_eq, UInt8.le_iff_toNat_le, hval]
  exact ⟨Nat.le_add_right _ _, by show 48 + n ≤ 57; omega⟩

/-- Digits are read from left to right. -/
theorem digitsVal_append (acc : Nat) (ds : Bytes) (d : UInt8) :
    digitsVal acc (ds ++ [d]) = 10 * digitsVal acc ds + digitVal d := by
  rw [digitsVal, List.foldl_append]
  rfl

/-- The digits of a number denote the number. -/
theorem digitsVal_decimalDigits {places n : Nat} (h : n < places) :
    digitsVal 0 (decimalDigits places n) = n := by
  induction places generalizing n with
  | zero => omega
  | succ places ih =>
    unfold decimalDigits
    split
    · rename_i hn
      simp [digitsVal, digitVal_digit hn]
    · have hmod : n % 10 < 10 := Nat.mod_lt _ (by omega)
      rw [digitsVal_append, ih (by omega), digitVal_digit hmod]
      omega

theorem isdigit_of_mem_decimalDigits {places n : Nat} {b : UInt8}
    (h : b ∈ decimalDigits places n) : isdigit b = true := by
  induction places generalizing n with
  | zero => simp [decimalDigits] at h
  | succ places ih =>
    unfold decimalDigits at h
    split at h
    · rename_i hn
      rw [List.mem_singleton.mp h]
      exact isdigit_digit hn
    · rcases List.mem_append.mp h with h | h
      · exact ih h
      · rw [List.mem_singleton.mp h]
        exact isdigit_digit (Nat.mod_lt _ (by omega))

theorem digitsVal_decimal (n : Nat) : digitsVal 0 (decimal n) = n :=
  digitsVal_decimalDigits (Nat.lt_succ_self n)

theorem isdigit_of_mem_decimal {n : Nat} {b : UInt8} (h : b ∈ decimal n) : isdigit b = true :=
  isdigit_of_mem_decimalDigits h

theorem decimal_ne_nil (n : Nat) : decimal n ≠ [] := by
  unfold decimal decimalDigits
  split
  · exact List.cons_ne_nil _ _
  · simp

/-- A digit is neither a blank nor a sign. -/
theorem isspace_of_isdigit {b : UInt8} (h : isdigit b = true) : isspace b = false := by
  simp only [isdigit, Bool.and_eq_true, decide_eq_true_eq, UInt8.le_iff_toNat_le] at h
  have h48 : 48 ≤ b.toNat := h.1
  have hne : b ≠ 32 := by
    rintro rfl
    exact absurd h48 (by decide)
  have hgt : ¬ b ≤ 13 := by
    rw [UInt8.le_iff_toNat_le]
    show ¬ b.toNat ≤ 13
    omega
  simp [isspace, hne, hgt]

/-- A digit starts a number without a sign. -/
theorem takeSign_of_isdigit {b : UInt8} (h : isdigit b = true) (rest : Bytes) :
    takeSign (b :: rest) = (false, b :: rest) := by
  unfold takeSign
  split
  · rename_i heq
    cases heq
    exact absurd h (by decide)
  · rename_i heq
    cases heq
    exact absurd h (by decide)
  · rfl

/-- **`strtoul` reads what `%d` printed.** -/
theorem strtoul_decimal {n : Nat} (hn : n < 2 ^ 64) {b : UInt8} (hb : isdigit b = false)
    (rest : Bytes) : strtoul (decimal n ++ b :: rest) = .number n (b :: rest) := by
  obtain ⟨d, ds, hds⟩ : ∃ d ds, decimal n = d :: ds := List.exists_cons_of_ne_nil (decimal_ne_nil n)
  have hd : isdigit d = true := isdigit_of_mem_decimal (by rw [hds]; exact List.mem_cons_self)
  have hblank : (decimal n ++ b :: rest).dropWhile isspace = decimal n ++ b :: rest := by
    rw [hds, List.cons_append, List.dropWhile_cons_of_neg (by simp [isspace_of_isdigit hd])]
  have hsign : takeSign (decimal n ++ b :: rest) = (false, decimal n ++ b :: rest) := by
    rw [hds, List.cons_append, takeSign_of_isdigit hd]
  have hall : ∀ x ∈ decimal n, isdigit x = true := fun x hx => isdigit_of_mem_decimal hx
  have htake : (decimal n ++ b :: rest).takeWhile isdigit = decimal n := by
    rw [List.takeWhile_append_of_pos hall, List.takeWhile_cons_of_neg (by simp [hb]), List.append_nil]
  have hdrop : (decimal n ++ b :: rest).dropWhile isdigit = b :: rest := by
    rw [List.dropWhile_append_of_pos hall, List.dropWhile_cons_of_neg (by simp [hb])]
  unfold strtoul
  simp only [hblank, hsign, htake, hdrop, decimal_ne_nil, digitsVal_decimal, if_false,
    Bool.false_eq_true]
  rw [if_neg (by omega)]

/-- `sscanf` cuts numbers to 32 bits. -/
theorem scanInt_lt {s rest : Bytes} {n : Int} (h : scanInt s = .int n rest) : n < 2 ^ 31 := by
  simp only [scanInt] at h
  split at h
  · cases h
  · split at h
    · cases h
    · cases h
      exact Int.bmod_lt (by omega)

end Fetchmail.Lib.Bytes
