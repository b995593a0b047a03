import Fetchmail.Lib.Bytes

/-!
# Strings in Storage of a Fixed Size

An array or an allocated block is a list whose length is its size, with anything in it before
it is written. A write that does not lie within it has no result, so the functions of the C
library that write strings are defined here as what they write and where. `Holds` says which
string the storage holds; the lemmas say for each function when it stays inside and what the
storage holds then.
-/

namespace Fetchmail.Lib.Storage

open Bytes

/-- Storage of a size, with whatever is in it. -/
def Block (size : Nat) : Type := { mem : Bytes // mem.length = size }

/-- Write bytes at a place; nothing if one of them lies outside. -/
def write (mem : Bytes) (i : Nat) (src : Bytes) : Option Bytes :=
  if i + src.length ≤ mem.length then some (mem.take i ++ src ++ mem.drop (i + src.length))
  else none

/-- `strlen(mem)` -/
def strlen (mem : Bytes) : Nat := (cstr mem).length

/-- `strcpy(mem, src)` -/
def strcpy (mem src : Bytes) : Option Bytes := write mem 0 (src ++ [nul])

/-- `strcat(mem, src)` -/
def strcat (mem src : Bytes) : Option Bytes := write mem (strlen mem) (src ++ [nul])

/-- `snprintf(mem + i, size, text)`, where the text is what the format gives. -/
def snprintf (mem : Bytes) (i size : Nat) (text : Bytes) : Option Bytes :=
  if size = 0 then some mem else write mem i (text.take (size - 1) ++ [nul])

/-- `strlcpy(mem, src, size)` -/
def strlcpy (mem src : Bytes) (size : Nat) : Option Bytes := snprintf mem 0 size src

/-- `strlcat(mem, src, size)` -/
def strlcat (mem src : Bytes) (size : Nat) : Option Bytes :=
  snprintf mem (strlen mem) (size - strlen mem) src

/-- The storage has a size, and a string with its terminator stands at its start. -/
structure Holds (size : Nat) (mem text : Bytes) : Prop where
  length_eq : mem.length = size
  plain : nul ∉ text
  starts : text ++ [nul] <+: mem

theorem length_write {mem mem' : Bytes} {i : Nat} {src : Bytes} (h : write mem i src = some mem') :
    mem'.length = mem.length := by
  unfold write at h
  split at h
  · next hfit =>
    rw [← Option.some.inj h]
    simp
    omega
  · cases h

/-- A write that lies within the storage, and what stands there up to its end. -/
theorem write_fits {mem src : Bytes} {i : Nat} (h : i + src.length ≤ mem.length) :
    ∃ mem', write mem i src = some mem' ∧ mem'.length = mem.length ∧
      mem'.take (i + src.length) = mem.take i ++ src := by
  refine ⟨_, if_pos h, length_write (if_pos h), List.take_left' ?_⟩
  rw [List.length_append, List.length_take_of_le (by omega)]

variable {size : Nat} {mem text m : Bytes}

theorem Holds.lt (h : Holds size mem text) : text.length < size := by
  have hle := h.starts.length_le
  rw [h.length_eq, List.length_append] at hle
  exact hle

theorem Holds.strlen (h : Holds size mem text) : strlen mem = text.length := by
  obtain ⟨rest, rfl⟩ := h.starts
  have htext : ∀ b ∈ text, decide (b ≠ nul) = true := fun b hb =>
    decide_eq_true fun heq => h.plain (heq ▸ hb)
  rw [Storage.strlen, cstr, List.append_assoc, List.takeWhile_append_of_pos htext]
  simp

/-- The byte at a place in the string. -/
theorem Holds.charAt (h : Holds size mem text) {i : Nat} (hi : i < text.length) :
    charAt mem i ≠ nul := by
  obtain ⟨rest, rfl⟩ := h.starts
  unfold Bytes.charAt
  rw [List.append_assoc, List.getD_eq_getElem?_getD, List.getElem?_append_left hi,
    List.getElem?_eq_getElem hi, Option.getD_some]
  exact fun heq => h.plain (heq ▸ List.getElem_mem hi)

/-- Text put behind the string, with its terminator. -/
theorem Holds.write (h : Holds size mem text) (hm : nul ∉ m)
    (hfit : text.length + m.length < size) :
    ∃ mem', write mem text.length (m ++ [nul]) = some mem' ∧ Holds size mem' (text ++ m) := by
  have hlen : text.length + (m ++ [nul]).length ≤ mem.length := by
    rw [h.length_eq, List.length_append]
    exact hfit
  refine ⟨_, if_pos hlen, ?_, ?_, ?_⟩
  · rw [← h.length_eq]
    exact length_write (if_pos hlen)
  · rw [List.mem_append]
    exact not_or.mpr ⟨h.plain, hm⟩
  · obtain ⟨rest, hrest⟩ := h.starts
    have htake : mem.take text.length = text := by
      rw [← hrest, List.append_assoc, List.take_left]
    rw [htake, ← List.append_assoc]
    exact ⟨_, rfl⟩

theorem strcpy_holds (hmem : mem.length = size) (hm : nul ∉ m) (hfit : m.length < size) :
    ∃ mem', strcpy mem m = some mem' ∧ Holds size mem' m := by
  have hlen : 0 + (m ++ [nul]).length ≤ mem.length := by
    rw [hmem, List.length_append, Nat.zero_add]
    exact hfit
  refine ⟨_, if_pos hlen, ?_, hm, ?_⟩
  · rw [← hmem]
    exact length_write (if_pos hlen)
  · exact ⟨_, rfl⟩

theorem Holds.strcat (h : Holds size mem text) (hm : nul ∉ m)
    (hfit : text.length + m.length < size) :
    ∃ mem', strcat mem m = some mem' ∧ Holds size mem' (text ++ m) := by
  rw [Storage.strcat, h.strlen]
  exact h.write hm hfit

/-- `strcat` is inside exactly if the string and the terminator fit. -/
theorem Holds.strcat_isSome (h : Holds size mem text) :
    (Storage.strcat mem m).isSome = true ↔ text.length + m.length < size := by
  rw [Storage.strcat, h.strlen, Storage.write, h.length_eq]
  simp only [List.length_append, List.length_singleton, ← Nat.add_assoc, Nat.succ_le_iff]
  split <;> simp_all

/-- `snprintf` and `strlcat` with the room that is left never write outside; they cut. -/
theorem Holds.snprintf (h : Holds size mem text) (hm : nul ∉ m) :
    ∃ mem', snprintf mem (Storage.strlen mem) (size - Storage.strlen mem) m = some mem' ∧
      Holds size mem' ((text ++ m).take (size - 1)) := by
  have hlt := h.lt
  have hcut : (text ++ m).take (size - 1) = text ++ m.take (size - text.length - 1) := by
    rw [List.take_append, List.take_of_length_le (Nat.le_sub_one_of_lt hlt)]
    congr 2
    omega
  have hroom : size - text.length ≠ 0 := by omega
  rw [Storage.snprintf, h.strlen, if_neg hroom, hcut]
  apply h.write
  · exact fun hmem => hm (List.mem_of_mem_take hmem)
  · rw [List.length_take]
    omega

theorem Holds.strlcat (h : Holds size mem text) (hm : nul ∉ m) :
    ∃ mem', strlcat mem m size = some mem' ∧
      Holds size mem' ((text ++ m).take (size - 1)) :=
  h.snprintf hm

theorem strlcpy_holds (hmem : mem.length = size) (hm : nul ∉ m) (hfit : m.length < size) :
    ∃ mem', strlcpy mem m size = some mem' ∧ Holds size mem' m := by
  have hroom : size ≠ 0 := by omega
  rw [strlcpy, snprintf, if_neg hroom, List.take_of_length_le (Nat.le_sub_one_of_lt hfit)]
  exact strcpy_holds hmem hm hfit

end Fetchmail.Lib.Storage
