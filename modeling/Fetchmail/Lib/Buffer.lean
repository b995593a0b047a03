import Fetchmail.Lib.Bytes

/-!
# Strings in a Buffer

The functions of the C library on the strings that a buffer holds, where a position in the
buffer stands for a pointer, and `fgets`. Code that parses in place overwrites delimiters
with zero bytes and puts them back. The lemmas say what a search finds in a buffer that is
given as a concatenation.
-/

namespace Fetchmail.Lib.Buffer

open Bytes

/-- The C string at a position. -/
def strAt (buf : Bytes) (i : Nat) : Bytes := cstr (buf.drop i)

/-- `strspn(buf + i, accept)` -/
def strspn (buf : Bytes) (i : Nat) (accept : Bytes) : Nat :=
  ((strAt buf i).takeWhile (· ∈ accept)).length

/-- The first byte with a property in the C string at `i`. -/
def search (buf : Bytes) (i : Nat) (p : UInt8 → Bool) : Option Nat :=
  ((strAt buf i).findIdx? p).map (i + ·)

/-- `strchr(buf + i, c)` for a `c` other than the zero byte -/
def strchr (buf : Bytes) (i : Nat) (c : UInt8) : Option Nat := search buf i (· = c)

/-- `strpbrk(buf + i, accept)` -/
def strpbrk (buf : Bytes) (i : Nat) (accept : Bytes) : Option Nat :=
  search buf i (· ∈ accept)

/-- The last place of a byte in a list. -/
def lastIdx (c : UInt8) : Bytes → Option Nat
  | [] => none
  | b :: s =>
    match lastIdx c s with
    | some n => some (n + 1)
    | none => if b = c then some 0 else none

/-- `strrchr(buf + i, c)` for a `c` other than the zero byte -/
def strrchr (buf : Bytes) (i : Nat) (c : UInt8) : Option Nat :=
  (lastIdx c (strAt buf i)).map (i + ·)

/-- `fgets` with room for `n` bytes and the terminator: the bytes up to and with a newline,
and what is left of the file. -/
def fgets : Nat → Bytes → Bytes × Bytes
  | 0, s => ([], s)
  | _ + 1, [] => ([], [])
  | n + 1, b :: s => if b = lf then ([b], s) else (b :: (fgets n s).1, (fgets n s).2)

/-! ## What is found -/

section

variable {a s t : Bytes} {c : UInt8}

theorem cstr_append (hs : nul ∉ s) : cstr (s ++ t) = s ++ cstr t := by
  unfold cstr
  rw [List.takeWhile_append_of_pos]
  intro b hb
  have hne : b ≠ nul := fun h => hs (h ▸ hb)
  simpa using hne

@[simp]
theorem cstr_nul_cons : cstr (nul :: s) = [] := by simp [cstr]

theorem cstr_eq_self (hs : nul ∉ s) : cstr s = s := by
  have h := cstr_append (t := []) hs
  rw [List.append_nil] at h
  rw [h]
  simp [cstr]

/-- What stands at the end of the first part of a buffer. -/
theorem strAt_length (a s : Bytes) : strAt (a ++ s) a.length = cstr s := by
  rw [strAt, List.drop_left]

/-- A string that ends at the end of the buffer. -/
theorem strAt_end (hs : nul ∉ s) : strAt (a ++ s) a.length = s := by
  rw [strAt_length, cstr_eq_self hs]

/-- A string that was cut off. -/
theorem strAt_cut (hs : nul ∉ s) : strAt (a ++ (s ++ nul :: t)) a.length = s := by
  rw [strAt_length, cstr_append hs, cstr_nul_cons, List.append_nil]

theorem search_eq {p : UInt8 → Bool} (hnul : nul ∉ s) (hs : ∀ b ∈ s, p b = false)
    (hc : p c = true) (hne : c ≠ nul) :
    search (a ++ (s ++ c :: t)) a.length p = some (a.length + s.length) := by
  have hcut : cstr (c :: t) = c :: cstr t := by simp [cstr, hne]
  rw [search, strAt_length, cstr_append hnul, hcut, List.findIdx?_append]
  have hnone : s.findIdx? p = none := List.findIdx?_eq_none_iff.mpr hs
  rw [hnone, List.findIdx?_cons, if_pos hc]
  simp

theorem strchr_eq (hnul : nul ∉ s) (hs : c ∉ s) (hne : c ≠ nul) :
    strchr (a ++ (s ++ c :: t)) a.length c = some (a.length + s.length) := by
  refine search_eq hnul (fun b hb => ?_) (decide_eq_true rfl) hne
  exact decide_eq_false fun h => hs (h ▸ hb)

theorem lastIdx_eq_none (ht : c ∉ t) : lastIdx c t = none := by
  induction t with
  | nil => rfl
  | cons b t ih =>
    obtain ⟨hb, ht⟩ := not_or.mp (mt List.mem_cons.mpr ht)
    rw [lastIdx, ih ht]
    exact if_neg fun h => hb h.symm

theorem lastIdx_append (s : Bytes) (ht : c ∉ t) : lastIdx c (s ++ c :: t) = some s.length := by
  induction s with
  | nil => simp [lastIdx, lastIdx_eq_none ht]
  | cons b s ih => rw [List.cons_append, lastIdx, ih, List.length_cons]

/-- The last `c` of a string that was cut off. -/
theorem strrchr_eq {u : Bytes} (hs : nul ∉ s) (hne : c ≠ nul) (ht : nul ∉ t) (hc : c ∉ t) :
    strrchr (a ++ (s ++ c :: (t ++ nul :: u))) a.length c = some (a.length + s.length) := by
  have hcut : cstr (c :: (t ++ nul :: u)) = c :: t := by
    have hct : nul ∉ c :: t := by simpa [hne.symm] using ht
    rw [← List.cons_append, cstr_append hct, cstr_nul_cons, List.append_nil]
  rw [strrchr, strAt_length, cstr_append hs, hcut, lastIdx_append s hc]
  rfl

theorem strspn_eq {accept : Bytes} (hs : ∀ b ∈ s, b ∈ accept) (hnul : nul ∉ s)
    (hc : c ∉ accept) (hne : c ≠ nul) :
    strspn (a ++ (s ++ c :: t)) a.length accept = s.length := by
  have hcut : cstr (c :: t) = c :: cstr t := by simp [cstr, hne]
  rw [strspn, strAt_length, cstr_append hnul, hcut, List.takeWhile_append_of_pos (by simpa using hs),
    List.takeWhile_cons_of_neg (by simpa using hc), List.append_nil]

/-- A byte of the buffer is overwritten. -/
theorem set_length (s : Bytes) (b c : UInt8) (t : Bytes) :
    (s ++ b :: t).set s.length c = s ++ c :: t := by
  rw [List.set_append_right _ _ (Nat.le_refl _), Nat.sub_self, List.set_cons_zero]

/-! ## Reading lines -/

theorem fgets_line {n : Nat} (hs : lf ∉ s) (hlen : s.length < n) :
    fgets n (s ++ lf :: t) = (s ++ [lf], t) := by
  induction s generalizing n with
  | nil =>
    obtain ⟨n, rfl⟩ : ∃ m, n = m + 1 := ⟨n - 1, by simp at hlen; omega⟩
    simp [fgets]
  | cons b s ih =>
    obtain ⟨hb, hs⟩ := not_or.mp (mt List.mem_cons.mpr hs)
    obtain ⟨n, rfl⟩ : ∃ m, n = m + 1 := ⟨n - 1, by omega⟩
    rw [List.cons_append, fgets, if_neg fun h => hb h.symm, ih hs (by simpa using hlen)]
    rfl

theorem fgets_rest_length_le (n : Nat) (s : Bytes) : (fgets n s).2.length ≤ s.length := by
  induction n generalizing s with
  | zero => exact Nat.le_refl _
  | succ n ih =>
    cases s with
    | nil => exact Nat.le_refl _
    | cons b s =>
      rw [fgets]
      split
      · exact Nat.le_succ _
      · exact Nat.le_succ_of_le (ih s)

/-- `fgets` reads something unless the file is at its end. -/
theorem fgets_rest_length_lt (n : Nat) {s : Bytes} (hs : s ≠ []) :
    (fgets (n + 1) s).2.length < s.length := by
  cases s with
  | nil => exact absurd rfl hs
  | cons b s =>
    rw [fgets]
    split
    · exact Nat.lt_succ_self _
    · exact Nat.lt_succ_of_le (fgets_rest_length_le n s)

end

end Fetchmail.Lib.Buffer
