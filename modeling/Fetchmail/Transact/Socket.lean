import Fetchmail.Lib.Bytes

/-!
# Reading from the Mail Server

`SockRead` of `socket.c`. A socket is the list of bytes that the peer will still send
before the connection ends; how the network cuts them does not show, since `SockRead` peeks
and reads until it has a newline or a full buffer.
-/

namespace Fetchmail.Transact

open Fetchmail.Lib

/-- Read up to a line feed, or `n` bytes: the bytes read and the rest of the stream; `none`
when the connection ends before. -/
def readUpTo : Nat → Bytes → Option (Bytes × Bytes)
  | 0, stream => some ([], stream)
  | _ + 1, [] => none
  | n + 1, b :: stream =>
    if b = Bytes.lf then some ([b], stream)
    else (readUpTo n stream).map fun r => (b :: r.1, r.2)

/-- `SockRead(sock, buf, len)`: one byte of the buffer is kept for the final zero. -/
def sockRead (len : Nat) (stream : Bytes) : Option (Bytes × Bytes) :=
  if len < 2 then none else readUpTo (len - 1) stream

/-- Memory of a buffer after the C string `s` was stored at offset `off`. -/
def store (mem : Bytes) (off : Nat) (s : Bytes) : Bytes :=
  mem.take off ++ s ++ Bytes.nul :: mem.drop (off + s.length + 1)

/-! ## Facts about reading -/

/-- What is read and what is left make up the stream. -/
theorem readUpTo_append {n : Nat} {stream chunk rest : Bytes}
    (h : readUpTo n stream = some (chunk, rest)) : stream = chunk ++ rest := by
  induction n generalizing stream chunk with
  | zero =>
    simp only [readUpTo, Option.some.injEq, Prod.mk.injEq] at h
    simp [← h.1, h.2]
  | succ n ih =>
    cases stream with
    | nil => simp [readUpTo] at h
    | cons b stream =>
      simp only [readUpTo] at h
      split at h
      · cases h
        rfl
      · obtain ⟨⟨chunk', rest'⟩, hr, heq⟩ := Option.map_eq_some_iff.mp h
        cases heq
        rw [ih hr]
        rfl

/-- A line with its line feed is read whole, or as much of it as fits. -/
theorem readUpTo_line {n : Nat} {text rest : Bytes} (htext : Bytes.lf ∉ text) :
    readUpTo n (text ++ Bytes.lf :: rest) =
      some ((text ++ [Bytes.lf]).take n, (text ++ [Bytes.lf]).drop n ++ rest) := by
  induction text generalizing n with
  | nil =>
    cases n with
    | zero => rfl
    | succ n => simp [readUpTo]
  | cons b text ih =>
    cases n with
    | zero => simp [readUpTo]
    | succ n =>
      have hb : b ≠ Bytes.lf := fun h => htext (by simp [h])
      have hrest : Bytes.lf ∉ text := fun h => htext (by simp [h])
      simp [readUpTo, hb, ih hrest]

theorem sockRead_append {len : Nat} {stream chunk rest : Bytes}
    (h : sockRead len stream = some (chunk, rest)) : stream = chunk ++ rest := by
  unfold sockRead at h
  split at h
  · cases h
  · exact readUpTo_append h

/-- A successful `SockRead` takes something from the stream. -/
theorem sockRead_shorter {len : Nat} {stream chunk rest : Bytes}
    (h : sockRead len stream = some (chunk, rest)) : rest.length < stream.length := by
  unfold sockRead at h
  split at h
  · cases h
  · next hlen =>
    obtain ⟨n, hn⟩ : ∃ n, len - 1 = n + 1 := ⟨len - 2, by omega⟩
    have happend := readUpTo_append h
    have hne : chunk ≠ [] := by
      rintro rfl
      rw [hn] at h
      cases stream with
      | nil => simp [readUpTo] at h
      | cons b stream =>
        simp only [readUpTo] at h
        split at h
        · cases h
        · obtain ⟨r, -, heq⟩ := Option.map_eq_some_iff.mp h
          cases heq
    rw [happend, List.length_append]
    have := List.length_pos_iff.mpr hne
    omega

@[simp]
theorem length_store {mem s : Bytes} {off : Nat} (h : off + s.length < mem.length) :
    (store mem off s).length = mem.length := by
  simp only [store, List.length_append, List.length_take, List.length_cons, List.length_drop]
  omega

end Fetchmail.Transact
