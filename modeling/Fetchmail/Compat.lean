import Fetchmail.Lib.Storage
import Mathlib.Data.List.GetD

/-!
# Replacements for Library Functions

`memmove.c`, `strlcpy.c` and `strlcat.c`, for systems whose library has no such functions. Elsewhere
in the development these functions are what their documentation says; here the loops are shown to
be that.
-/

namespace Fetchmail.Compat

open Fetchmail.Lib

/-! ## The functions -/

/-- `memmove` from the end: `*--svdst = *--src` -/
def moveDown (dst src : Nat) : (n : Nat) → (mem : Bytes) → Bytes
  | 0, mem => mem
  | n + 1, mem => moveDown dst src n (mem.set (dst + n) (mem.getD (src + n) 0))

/-- `memmove` from the start: `*svdst++ = *src++` -/
def moveUp : (dst src n : Nat) → (mem : Bytes) → Bytes
  | _, _, 0, mem => mem
  | dst, src, n + 1, mem => moveUp (dst + 1) (src + 1) n (mem.set dst (mem.getD src 0))

/-- `memmove`, in one memory -/
def memmove (dst src n : Nat) (mem : Bytes) : Bytes :=
  if src < dst ∧ dst < src + n then moveDown dst src n mem else moveUp dst src n mem

/-- The variables of `strlcpy`: `d` is a place in the memory, `s` what is left of the source with
its terminator. -/
structure Copy where
  n : Nat
  d : Nat
  s : Bytes
  mem : Bytes
  deriving DecidableEq, Repr

/-- The `do` loop of `strlcpy`, which is not entered with zero. -/
def copyLoop : (n d : Nat) → (s mem : Bytes) → Copy
  | 0, d, s, mem => ⟨0, d, s, mem⟩
  | n + 1, d, [], mem => ⟨n + 1, d, [], mem⟩
  | n + 1, d, c :: s, mem =>
    if c = Bytes.nul then ⟨n + 1, d + 1, s, mem.set d c⟩ else copyLoop n (d + 1) s (mem.set d c)

/-- `strlcpy`, for a source without its terminator: the memory at `dst`, and the result -/
def strlcpy (mem src : Bytes) (siz : Nat) : Bytes × Nat :=
  let copy := copyLoop (siz - 1) 0 (src ++ [Bytes.nul]) mem
  if copy.n = 0 then
    let s := (copy.s.dropWhile (· ≠ Bytes.nul)).drop 1
    (if siz ≠ 0 then copy.mem.set copy.d Bytes.nul else copy.mem, src.length + 1 - s.length - 1)
  else (copy.mem, src.length + 1 - copy.s.length - 1)

/-- The loop of `strlcat` that looks for the end of `dst`. -/
def findEnd (mem : Bytes) : (n d : Nat) → Nat
  | 0, d => d
  | n + 1, d => if mem.getD d 0 = Bytes.nul then d else findEnd mem n (d + 1)

/-- The loop of `strlcat` over the source: the place after the last byte, and the memory. -/
def catLoop : (s : Bytes) → (n d : Nat) → (mem : Bytes) → Nat × Bytes
  | [], _, d, mem => (d, mem)
  | c :: s, n, d, mem =>
    if n ≠ 1 then catLoop s (n - 1) (d + 1) (mem.set d c) else catLoop s n d mem

/-- `strlcat` -/
def strlcat (mem src : Bytes) (siz : Nat) : Bytes × Nat :=
  let dlen := findEnd mem siz 0
  let n := siz - dlen
  if n = 0 then (mem, dlen + src.length)
  else
    let cat := catLoop src n dlen mem
    (cat.2.set cat.1 Bytes.nul, dlen + src.length)

/-! ## Moving memory -/

section

variable {mem : Bytes} {dst src n i : Nat}

/-- From the end: what lies before the place it goes to has not been written when it is read. -/
theorem getElem?_moveDown (hbefore : src < dst) (hsrc : src + n ≤ mem.length)
    (hdst : dst + n ≤ mem.length) :
    (moveDown dst src n mem)[i]? =
      if dst ≤ i ∧ i < dst + n then mem[src + (i - dst)]? else mem[i]? := by
  induction n generalizing mem with
  | zero => rw [moveDown, if_neg (by omega)]
  | succ n ih =>
    have hget : mem.getD (src + n) 0 = mem[src + n] := List.getD_eq_getElem mem 0 (by omega)
    rw [moveDown, ih (by rw [List.length_set]; omega) (by rw [List.length_set]; omega)]
    by_cases hlow : dst ≤ i ∧ i < dst + n
    · rw [if_pos hlow, if_pos (by omega), List.getElem?_set_ne (by omega)]
    · rw [if_neg hlow]
      by_cases hlast : i = dst + n
      · rw [if_pos (by omega), hlast, List.getElem?_set_self (by omega), hget,
          Nat.add_sub_cancel_left, List.getElem?_eq_getElem]
      · rw [if_neg (by omega), List.getElem?_set_ne (by omega)]

/-- From the start: what does not lie behind the place it goes to, within what is moved, has not
been written when it is read. -/
theorem getElem?_moveUp (hafter : dst ≤ src ∨ src + n ≤ dst) (hsrc : src + n ≤ mem.length)
    (hdst : dst + n ≤ mem.length) :
    (moveUp dst src n mem)[i]? =
      if dst ≤ i ∧ i < dst + n then mem[src + (i - dst)]? else mem[i]? := by
  induction n generalizing mem dst src with
  | zero => rw [moveUp, if_neg (by omega)]
  | succ n ih =>
    have hget : mem.getD src 0 = mem[src] := List.getD_eq_getElem mem 0 (by omega)
    rw [moveUp, ih (by omega) (by rw [List.length_set]; omega) (by rw [List.length_set]; omega)]
    by_cases hhigh : dst + 1 ≤ i ∧ i < dst + 1 + n
    · rw [if_pos hhigh, if_pos (by omega), List.getElem?_set_ne (by omega)]
      congr 1
      omega
    · rw [if_neg hhigh]
      by_cases hfirst : i = dst
      · rw [if_pos (by omega), hfirst, List.getElem?_set_self (by omega), hget, Nat.sub_self,
          Nat.add_zero, List.getElem?_eq_getElem]
      · rw [if_neg (by omega), List.getElem?_set_ne (by omega)]

/-- However the two areas lie, the one is afterwards what the other was before, and nothing else
has changed. -/
theorem memmove_eq (hsrc : src + n ≤ mem.length) (hdst : dst + n ≤ mem.length) :
    memmove dst src n mem =
      mem.take dst ++ (mem.drop src).take n ++ mem.drop (dst + n) := by
  -- the direction is chosen so that no byte is overwritten before it is read
  have hmoved : ∀ i, (memmove dst src n mem)[i]? =
      if dst ≤ i ∧ i < dst + n then mem[src + (i - dst)]? else mem[i]? := by
    intro i
    rw [memmove]
    by_cases hdown : src < dst ∧ dst < src + n
    · rw [if_pos hdown, getElem?_moveDown hdown.1 hsrc hdst]
    · rw [if_neg hdown, getElem?_moveUp (by omega) hsrc hdst]
  apply List.ext_getElem?
  intro i
  have htake : (mem.take dst).length = dst := List.length_take_of_le (by omega)
  have hpart : ((mem.drop src).take n).length = n := by
    rw [List.length_take, List.length_drop]
    omega
  rw [hmoved]
  by_cases hlow : i < dst
  · rw [if_neg (by omega), List.append_assoc, List.getElem?_append_left (by omega),
      List.getElem?_take_of_lt hlow]
  · by_cases hmiddle : i < dst + n
    · rw [if_pos (by omega), List.append_assoc, List.getElem?_append_right (by omega), htake,
        List.getElem?_append_left (by omega), List.getElem?_take_of_lt (by omega),
        List.getElem?_drop]
    · rw [if_neg (by omega), List.getElem?_append_right (by rw [List.length_append]; omega),
        List.length_append, htake, hpart, List.getElem?_drop]
      congr 1
      omega

theorem memmove_eq_sample :
    memmove 2 0 4 (Bytes.lit "abcdef") = Bytes.lit "ababcd" :=
  @memmove_eq (Bytes.lit "abcdef") 2 0 4 (by decide) (by decide)

end

/-! ## Copying strings -/

section

variable {mem src s : Bytes} {n d siz : Nat} {c : UInt8}

theorem take_set_succ (h : d < mem.length) : (mem.set d c).take (d + 1) = mem.take d ++ [c] := by
  rw [List.set_eq_take_append_cons_drop, if_pos h, List.take_append,
    List.length_take_of_le (by omega), List.take_of_length_le (by rw [List.length_take]; omega)]
  simp

/-- The terminator takes the place behind what was copied. -/
theorem set_behind {part : Bytes} (h : d + part.length < mem.length) :
    (mem.take d ++ part ++ mem.drop (d + part.length)).set (d + part.length) c =
      mem.take d ++ (part ++ [c]) ++ mem.drop (d + (part ++ [c]).length) := by
  have hlength : (mem.take d ++ part).length = d + part.length := by
    rw [List.length_append, List.length_take_of_le (by omega)]
  have hrest : mem.drop (d + part.length) =
      mem[d + part.length] :: mem.drop (d + part.length + 1) := List.drop_eq_getElem_cons h
  rw [hrest, List.set_append_right _ _ (by omega), hlength, Nat.sub_self, List.set_cons_zero]
  simp [Nat.add_assoc]

theorem copyLoop_whole (hplain : Bytes.nul ∉ src) (hfit : src.length < n)
    (hroom : d + n ≤ mem.length) :
    copyLoop n d (src ++ [Bytes.nul]) mem = ⟨n - src.length, d + src.length + 1, [],
      mem.take d ++ (src ++ [Bytes.nul]) ++ mem.drop (d + src.length + 1)⟩ := by
  induction src generalizing n d mem with
  | nil =>
    obtain ⟨n, rfl⟩ : ∃ m, n = m + 1 := ⟨n - 1, by rw [List.length_nil] at hfit; omega⟩
    have hset : mem.set d Bytes.nul = mem.take d ++ [Bytes.nul] ++ mem.drop (d + 1) := by
      rw [List.set_eq_take_append_cons_drop, if_pos (by omega), List.append_assoc]
      rfl
    rw [List.nil_append, copyLoop, if_pos rfl, hset]
    rfl
  | cons c src ih =>
    obtain ⟨n, rfl⟩ : ∃ m, n = m + 1 := ⟨n - 1, by rw [List.length_cons] at hfit; omega⟩
    rw [List.mem_cons, not_or] at hplain
    rw [List.length_cons] at hfit
    rw [List.cons_append, copyLoop, if_neg (Ne.symm hplain.1),
      ih hplain.2 (by omega) (by rw [List.length_set]; omega), take_set_succ (by omega),
      List.drop_set_of_lt (by omega), List.length_cons]
    have hplace : d + 1 + src.length + 1 = d + (src.length + 1) + 1 := by omega
    have hcount : n - src.length = n + 1 - (src.length + 1) := by omega
    rw [hplace, hcount]
    simp

theorem copyLoop_part (hplain : Bytes.nul ∉ src) (hlong : n ≤ src.length)
    (hroom : d + n ≤ mem.length) :
    copyLoop n d (src ++ [Bytes.nul]) mem =
      ⟨0, d + n, src.drop n ++ [Bytes.nul], mem.take d ++ src.take n ++ mem.drop (d + n)⟩ := by
  induction src generalizing n d mem with
  | nil =>
    obtain rfl : n = 0 := by simpa using hlong
    simp [copyLoop]
  | cons c src ih =>
    rw [List.mem_cons, not_or] at hplain
    cases n with
    | zero => simp [copyLoop]
    | succ n =>
      rw [List.length_cons] at hlong
      rw [List.cons_append, copyLoop, if_neg (Ne.symm hplain.1),
        ih hplain.2 (by omega) (by rw [List.length_set]; omega), take_set_succ (by omega),
        List.drop_set_of_lt (by omega)]
      have hplace : d + 1 + n = d + (n + 1) := by omega
      rw [hplace]
      simp

theorem skip_string (hplain : Bytes.nul ∉ s) :
    ((s ++ [Bytes.nul]).dropWhile (· ≠ Bytes.nul)).drop 1 = [] := by
  rw [List.dropWhile_append_of_pos]
  · simp
  · intro b hb
    exact decide_eq_true fun h => hplain (h ▸ hb)

/-- The loop of `strlcpy` does what is said of it: at most `siz - 1` bytes are copied, there is a
terminator unless `siz` is zero, and the length of the source is returned. -/
theorem strlcpy_eq (hplain : Bytes.nul ∉ src) (hsiz : siz ≤ mem.length) :
    Storage.strlcpy mem src siz = some (strlcpy mem src siz).1 ∧
      (strlcpy mem src siz).2 = src.length := by
  rw [Storage.strlcpy, Storage.snprintf, strlcpy]
  cases siz with
  | zero =>
    simp only [Nat.zero_sub, copyLoop, if_true, skip_string hplain, ne_eq, not_true_eq_false,
      if_false, List.length_nil]
    exact ⟨trivial, by omega⟩
  | succ k =>
    rw [Nat.add_sub_cancel, if_neg (Nat.succ_ne_zero k), Storage.write]
    -- the loop ends at the end of the source or when the room is used up
    by_cases hwhole : src.length < k
    · have hleft : k - src.length ≠ 0 := by omega
      rw [copyLoop_whole hplain hwhole (by omega), List.take_of_length_le (by omega), if_pos]
      · simp only [if_neg hleft, Nat.zero_add, List.length_append, List.length_singleton,
          List.length_nil]
        exact ⟨trivial, by omega⟩
      · rw [List.length_append, List.length_singleton]
        omega
    · have htake : (src.take k).length = k := List.length_take_of_le (by omega)
      have hfit : 0 + (src.take k ++ [Bytes.nul]).length ≤ mem.length := by
        rw [List.length_append, htake, List.length_singleton]
        omega
      have hskip := @skip_string (src.drop k) fun h => hplain (List.mem_of_mem_drop h)
      have hterminated := @set_behind mem 0 Bytes.nul (src.take k) (by omega)
      rw [htake] at hterminated
      rw [copyLoop_part hplain (by omega) (by omega), if_pos hfit]
      simp only [if_true, ne_eq, Nat.succ_ne_zero, not_false_eq_true, hskip, hterminated,
        List.length_nil]
      exact ⟨trivial, by omega⟩

theorem strlcpy_eq_sample :
    Storage.strlcpy (Bytes.lit "xxxxx") (Bytes.lit "abcdef") 4 =
        some (strlcpy (Bytes.lit "xxxxx") (Bytes.lit "abcdef") 4).1 ∧
      (strlcpy (Bytes.lit "xxxxx") (Bytes.lit "abcdef") 4).2 = 6 :=
  strlcpy_eq (by decide) (by decide)

/-! ## Appending strings -/

theorem findEnd_eq (mem : Bytes) {n d : Nat} (hroom : d + n ≤ mem.length) :
    findEnd mem n d = d + min n (Storage.strlen (mem.drop d)) := by
  induction n generalizing d with
  | zero => rw [findEnd, Nat.zero_min, Nat.add_zero]
  | succ n ih =>
    have hd : d < mem.length := by omega
    have hdrop : mem.drop d = mem[d] :: mem.drop (d + 1) := List.drop_eq_getElem_cons hd
    rw [findEnd, List.getD_eq_getElem mem 0 hd]
    by_cases hend : mem[d] = Bytes.nul
    · rw [if_pos hend, hdrop, Storage.strlen, Bytes.cstr,
        List.takeWhile_cons_of_neg (by simp [hend])]
      simp
    · rw [if_neg hend, ih (by omega), hdrop, Storage.strlen, Storage.strlen, Bytes.cstr, Bytes.cstr,
        List.takeWhile_cons_of_pos (by simp [hend]), List.length_cons]
      omega

theorem catLoop_eq {n d : Nat} (hn : 0 < n) (hroom : d + n ≤ mem.length) :
    catLoop src n d mem = (d + min (n - 1) src.length,
      mem.take d ++ src.take (n - 1) ++ mem.drop (d + min (n - 1) src.length)) := by
  induction src generalizing n d mem with
  | nil => simp [catLoop]
  | cons c src ih =>
    rw [catLoop]
    by_cases hlast : n ≠ 1
    · obtain ⟨m, rfl⟩ : ∃ m, n = m + 2 := ⟨n - 2, by omega⟩
      have hplace : d + 1 + min m src.length = d + min (m + 1) (src.length + 1) := by omega
      rw [if_pos hlast, ih (by omega) (by rw [List.length_set]; omega), take_set_succ (by omega),
        List.drop_set_of_lt (by omega)]
      simp only [Nat.add_sub_cancel, List.length_cons, Nat.add_succ_sub_one, hplace,
        List.take_succ_cons, List.append_assoc, List.singleton_append]
    · obtain rfl : n = 1 := by omega
      rw [if_neg hlast, ih hn hroom]
      simp

/-- The loops of `strlcat` do what is said of it, also where there is no room left in `dst`, or
no terminator. -/
theorem strlcat_eq (hsiz : siz ≤ mem.length) :
    Storage.strlcat mem src siz = some (strlcat mem src siz).1 ∧
      (strlcat mem src siz).2 = min siz (Storage.strlen mem) + src.length := by
  have hend : findEnd mem siz 0 = min siz (Storage.strlen mem) := by
    rw [findEnd_eq mem (by omega), List.drop_zero, Nat.zero_add]
  rw [Storage.strlcat, Storage.snprintf, strlcat, hend]
  by_cases hfull : siz ≤ Storage.strlen mem
  · have hnone : siz - Storage.strlen mem = 0 := by omega
    have hnone' : siz - min siz (Storage.strlen mem) = 0 := by omega
    simp only [hnone, hnone', if_true, and_self]
  · have hmin : min siz (Storage.strlen mem) = Storage.strlen mem := by omega
    have hsome : siz - Storage.strlen mem ≠ 0 := by omega
    have hpart : (src.take (siz - Storage.strlen mem - 1)).length =
        min (siz - Storage.strlen mem - 1) src.length := List.length_take ..
    have hfit : Storage.strlen mem +
        (src.take (siz - Storage.strlen mem - 1) ++ [Bytes.nul]).length ≤ mem.length := by
      rw [List.length_append, hpart, List.length_singleton]
      omega
    have hterminated := @set_behind mem (Storage.strlen mem) Bytes.nul
      (src.take (siz - Storage.strlen mem - 1)) (by omega)
    rw [hpart] at hterminated
    rw [hmin, if_neg hsome, Storage.write, if_pos hfit]
    simp only [if_neg hsome, catLoop_eq (Nat.pos_of_ne_zero hsome)
      (show Storage.strlen mem + (siz - Storage.strlen mem) ≤ mem.length by omega), hterminated,
      and_self]

theorem strlcat_eq_sample :
    Storage.strlcat (Bytes.lit "ab" ++ [0] ++ Bytes.lit "xx") (Bytes.lit "cdef") 5 =
        some (strlcat (Bytes.lit "ab" ++ [0] ++ Bytes.lit "xx") (Bytes.lit "cdef") 5).1 ∧
      (strlcat (Bytes.lit "ab" ++ [0] ++ Bytes.lit "xx") (Bytes.lit "cdef") 5).2 = 6 :=
  strlcat_eq (by decide)

end

end Fetchmail.Compat
