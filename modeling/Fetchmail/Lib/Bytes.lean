import Mathlib.Algebra.Ring.Int.Defs
import Mathlib.Algebra.Ring.Nat
import Mathlib.Data.List.Basic
import Mathlib.Data.List.TakeWhile
import Mathlib.Tactic.Common

/-!
# Byte Strings

Byte strings as lists of bytes, and the functions of the C library (in the C locale) that
text protocols are parsed with. A C string is a list without the terminating zero byte;
reading past its end reads that zero, which `charAt` models.
-/

namespace Fetchmail.Lib

/-- A sequence of bytes. -/
abbrev Bytes := List UInt8

namespace Bytes

/-- The bytes of an ASCII literal. -/
def lit (s : String) : Bytes := s.toList.map fun c => UInt8.ofNat c.toNat

def nul : UInt8 := 0
def tab : UInt8 := 9
def lf : UInt8 := 10
def cr : UInt8 := 13
def space : UInt8 := 32
def dash : UInt8 := 45
def dot : UInt8 := 46
def equals : UInt8 := 61

/-- Carriage return and line feed. -/
def crlf : Bytes := [cr, lf]

/-- `s[i]` of a C string: zero at the end. -/
def charAt (s : Bytes) (i : Nat) : UInt8 := s.getD i nul

/-- What holds of every byte of a string is decided along the string, not over all bytes. -/
instance (s : Bytes) (p : UInt8 → Prop) [DecidablePred p] : Decidable (∀ b, b ∈ s → p b) :=
  List.decidableBAll p s

/-! ## Character classes -/

def isspace (b : UInt8) : Bool := b = 32 || (9 ≤ b && b ≤ 13)

def isdigit (b : UInt8) : Bool := 48 ≤ b && b ≤ 57

def iscntrl (b : UInt8) : Bool := b < 32 || b = 127

def isalpha (b : UInt8) : Bool := (65 ≤ b && b ≤ 90) || (97 ≤ b && b ≤ 122)

def isalnum (b : UInt8) : Bool := isalpha b || isdigit b

/-- The value of a decimal digit. -/
def digitVal (b : UInt8) : Nat := b.toNat - 48

/-- The decimal digit of a value below ten. -/
def digit (n : Nat) : UInt8 := UInt8.ofNat (48 + n)

/-! ## Numbers -/

/-- The number denoted by a sequence of decimal digits read after the number `acc`. -/
def digitsVal (acc : Nat) (ds : Bytes) : Nat :=
  ds.foldl (fun n d => 10 * n + digitVal d) acc

/-- `atoi`: blanks, an optional sign, digits; zero when there are none. -/
def atoi (s : Bytes) : Int :=
  match s.dropWhile isspace with
  | 45 :: rest => -(digitsVal 0 (rest.takeWhile isdigit))
  | 43 :: rest => digitsVal 0 (rest.takeWhile isdigit)
  | rest => digitsVal 0 (rest.takeWhile isdigit)

/-- An optional sign: whether it is a minus, and what follows. -/
def takeSign : Bytes → Bool × Bytes
  | 45 :: rest => (true, rest)
  | 43 :: rest => (false, rest)
  | rest => (false, rest)

/-- What `strtoul(s, &end, 10)` makes of a string. -/
inductive Strtoul where
  /-- no digits: `end` is `s` -/
  | noNumber
  /-- `errno` is `ERANGE`; the rest begins at `end` -/
  | tooLarge (rest : Bytes)
  | number (n : Nat) (rest : Bytes)
  deriving DecidableEq, Repr

/-- `strtoul(s, &end, 10)` for 64-bit integers: a minus sign negates modulo `2^64`. -/
def strtoul (s : Bytes) : Strtoul :=
  let (neg, s) := takeSign (s.dropWhile isspace)
  let ds := s.takeWhile isdigit
  let rest := s.dropWhile isdigit
  if ds = [] then .noNumber
  else if 2 ^ 64 ≤ digitsVal 0 ds then .tooLarge rest
  else .number (if neg then (2 ^ 64 - digitsVal 0 ds) % 2 ^ 64 else digitsVal 0 ds) rest

/-- What a `%d` of `sscanf` makes of a string. -/
inductive Scan where
  /-- the input ends before a number could begin -/
  | eof
  | mismatch
  | int (n : Int) (rest : Bytes)
  deriving DecidableEq, Repr

/-- `%d` of `sscanf`: the number is read as by `strtol`, and cut to 32 bits. -/
def scanInt (s : Bytes) : Scan :=
  let s := s.dropWhile isspace
  if s = [] then .eof
  else
    let (neg, s) := takeSign s
    let ds := s.takeWhile isdigit
    if ds = [] then .mismatch
    else
      let n : Int := if neg then -(digitsVal 0 ds) else digitsVal 0 ds
      .int ((max (-2 ^ 63) (min (2 ^ 63 - 1) n)).bmod (2 ^ 32)) (s.dropWhile isdigit)

/-- The decimal digits of a number that has no more than `places` of them. -/
def decimalDigits : Nat → Nat → Bytes
  | 0, _ => []
  | places + 1, n =>
    if n < 10 then [digit n] else decimalDigits places (n / 10) ++ [digit (n % 10)]

/-- `%d` of a natural number. -/
def decimal (n : Nat) : Bytes := decimalDigits (n + 1) n

/-! ## C strings -/

/-- The C string that a buffer holds: what stands before its first zero byte. -/
def cstr (buf : Bytes) : Bytes := buf.takeWhile (· ≠ nul)

/-- `strlcat` into a buffer of `size` bytes. -/
def strlcat (dst src : Bytes) (size : Nat) : Bytes := (dst ++ src).take (size - 1)

/-- `tolower` -/
def toLower (b : UInt8) : UInt8 := if 65 ≤ b ∧ b ≤ 90 then b + 32 else b

/-- `toupper` -/
def toUpper (b : UInt8) : UInt8 := if 97 ≤ b ∧ b ≤ 122 then b - 32 else b

/-- `strncasecmp(s, pre, strlen(pre)) == 0` for a `pre` that is not cut by a zero byte. -/
def startsWithCI (s pre : Bytes) : Bool := (s.take pre.length).map toLower = pre.map toLower

/-- `strcasecmp(s, t) == 0` -/
def equalsCI (s t : Bytes) : Bool := s.map toLower = t.map toLower

/-- `strstr`: where `pat` starts in `s` for the first time. -/
def findSub (pat : Bytes) : Bytes → Option Nat
  | [] => if pat = [] then some 0 else none
  | b :: s => if (b :: s).take pat.length = pat then some 0 else (findSub pat s).map (· + 1)

/-- `strstr(s, pat) != NULL` -/
def contains (s pat : Bytes) : Bool := (findSub pat s).isSome

/-- What `strstr` finds is there. -/
theorem findSub_spec {pat s : Bytes} {i : Nat} (h : findSub pat s = some i) :
    ∃ x y, s = x ++ (pat ++ y) ∧ x.length = i := by
  induction s generalizing i with
  | nil =>
    rw [findSub] at h
    split at h
    · next hpat => exact ⟨[], [], by simp [hpat], Option.some.inj h⟩
    · cases h
  | cons b s ih =>
    rw [findSub] at h
    split at h
    · next hpat =>
      refine ⟨[], (b :: s).drop pat.length, ?_, Option.some.inj h⟩
      calc b :: s = (b :: s).take pat.length ++ (b :: s).drop pat.length :=
            (List.take_append_drop _ _).symm
        _ = [] ++ (pat ++ (b :: s).drop pat.length) := by rw [hpat]; rfl
    · obtain ⟨j, hj, rfl⟩ := Option.map_eq_some_iff.mp h
      obtain ⟨x, y, rfl, rfl⟩ := ih hj
      exact ⟨b :: x, y, rfl, rfl⟩

/-- And it finds no later one. -/
theorem findSub_append (pat x y : Bytes) :
    ∃ i ≤ x.length, findSub pat (x ++ (pat ++ y)) = some i := by
  induction x with
  | nil =>
    refine ⟨0, Nat.le_refl 0, ?_⟩
    cases hs : pat ++ y with
    | nil => rw [List.nil_append, findSub, if_pos (List.append_eq_nil_iff.mp hs).1]
    | cons b s => rw [List.nil_append, findSub, if_pos (by rw [← hs, List.take_left'] ; rfl)]
  | cons b x ih =>
    obtain ⟨i, hi, hfind⟩ := ih
    rw [List.cons_append, findSub]
    split
    · exact ⟨0, Nat.zero_le _, rfl⟩
    · exact ⟨i + 1, Nat.succ_le_succ hi, by rw [hfind]; rfl⟩

/-- Drop one trailing `b`, if there is one. -/
def chop (b : UInt8) (s : Bytes) : Bytes :=
  if s.getLast? = some b then s.dropLast else s

theorem chop_append {b : UInt8} (s : Bytes) {t : Bytes} (ht : t ≠ []) :
    chop b (s ++ t) = s ++ chop b t := by
  unfold chop
  rw [List.getLast?_append_of_ne_nil s ht, List.dropLast_append_of_ne_nil ht]
  split <;> rfl

/-! ## Scans -/

section

variable {p : UInt8 → Bool} {s : Bytes}

theorem takeWhile_of_head (h : ∀ b ∈ s.head?, p b = false) : s.takeWhile p = [] := by
  cases s with
  | nil => rfl
  | cons b s => exact List.takeWhile_cons_of_neg (by simp [h b rfl])

theorem dropWhile_of_head (h : ∀ b ∈ s.head?, p b = false) : s.dropWhile p = s := by
  cases s with
  | nil => rfl
  | cons b s => exact List.dropWhile_cons_of_neg (by simp [h b rfl])

theorem head_dropWhile (p : UInt8 → Bool) (s : Bytes) :
    ∀ b ∈ (s.dropWhile p).head?, p b = false := by
  intro b hb
  have hnot := List.head?_dropWhile_not p s
  rw [Option.mem_def.mp hb] at hnot
  simpa using hnot

/-- A string is what `dropWhile` skips and what it leaves. -/
theorem exists_dropWhile (p : UInt8 → Bool) (s : Bytes) :
    ∃ t, s = t ++ s.dropWhile p ∧ ∀ b ∈ t, p b = true :=
  ⟨s.takeWhile p, List.takeWhile_append_dropWhile.symm, fun _ hb => List.mem_takeWhile_imp hb⟩

end

/-! ## Bytes as numbers -/

/-- What holds of the 256 bytes, one by one, holds of every byte. -/
theorem forall_of_lt {P : UInt8 → Prop} (h : ∀ n < 256, P (UInt8.ofNat n)) (c : UInt8) : P c := by
  have hc := h c.toNat c.toNat_lt
  rwa [UInt8.ofNat_toNat] at hc

/-- A byte that is no small letter comes of itself. -/
theorem eq_of_toLower {b c : UInt8} (h : toLower c = b) (hb : b < 97 ∨ 122 < b) : c = b := by
  unfold toLower at h
  split at h
  · next hc =>
    have hlow := UInt8.le_iff_toNat_le.mp hc.1
    have hhigh := UInt8.le_iff_toNat_le.mp hc.2
    have hsum := congrArg UInt8.toNat h
    rw [UInt8.toNat_add] at hsum
    rw [UInt8.lt_iff_toNat_lt, UInt8.lt_iff_toNat_lt] at hb
    simp at hlow hhigh hsum hb
    omega
  · exact h

theorem add_eq_or {x y : UInt8} {i q : Nat} (hx : x.toNat = 2 ^ i * q) (hy : y.toNat < 2 ^ i)
    (hsum : x.toNat + y.toNat < 256) : x + y = x ||| y := by
  apply UInt8.toNat_inj.mp
  rw [UInt8.toNat_add, UInt8.toNat_or, Nat.mod_eq_of_lt hsum, hx, Nat.two_pow_add_eq_or_of_lt hy]
end Bytes

end Fetchmail.Lib
