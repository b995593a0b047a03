import Fetchmail.Transact.Socket
import Mathlib.Data.List.Basic

/-!
# Packets

`SockRead` on a plain socket, as `socket.c` computes it: it peeks, looks for a newline, reads, and
goes on with the room that is left. How the stream arrives is arbitrary. It is refined to
`sockRead`, which reads from the stream alone.
-/

namespace Fetchmail.Transact

open Fetchmail.Lib

/-- A socket. Its `k`-th peek finds `arrived k + 1` bytes, or what is left of the stream; at the
end of the stream it finds nothing. -/
structure Socket where
  stream : Bytes
  arrived : Nat → Nat
  peeks : Nat

/-- `fm_peek(sock, bp, len)`, which waits for the first byte. -/
def Socket.peek (len : Nat) (s : Socket) : Bytes × Socket :=
  (s.stream.take (min len (s.arrived s.peeks + 1)), { s with peeks := s.peeks + 1 })

/-- `fm_read(sock, bp, n)`, of bytes just peeked. -/
def Socket.read (n : Nat) (s : Socket) : Bytes × Socket :=
  (s.stream.take n, { s with stream := s.stream.drop n })

/-- Store bytes in memory. -/
def overwriteAt (mem : Bytes) (off : Nat) (s : Bytes) : Bytes :=
  mem.take off ++ s ++ mem.drop (off + s.length)

/-- The loop of `SockRead`. `bp` is an offset in the buffer. The result is the return value, or
`none` for `-1`, and the buffer. -/
def sockReadLoop : (fuel : Nat) → (buf : Bytes) → (bp len : Nat) → Socket →
    Option Nat × Bytes × Socket
  | 0, buf, _, _, s => (none, buf, s)
  | fuel + 1, buf, bp, len, s =>
    let (peeked, s) := s.peek len
    let buf := overwriteAt buf bp peeked
    if peeked = [] then (none, buf, s)
    else
      let newline := peeked.findIdx? (· = Bytes.lf)
      let n := (newline.map (· + 1)).getD peeked.length
      let (bytes, s) := s.read n
      let buf := overwriteAt buf bp bytes
      if newline.isNone ∧ len - bytes.length ≠ 0 then
        sockReadLoop fuel buf (bp + bytes.length) (len - bytes.length) s
      else (some (bp + bytes.length), buf.set (bp + bytes.length) Bytes.nul, s)

/-- `SockRead(sock, buf, len)` for a buffer of `len` bytes. Each round reads something, so that
`len` rounds are enough. -/
def sockReadPackets (buf : Bytes) (s : Socket) : Option Nat × Bytes × Socket :=
  if buf.length < 2 then (none, buf, s) else sockReadLoop buf.length buf 0 (buf.length - 1) s

/-- What a sequence of calls leaves in their buffers, up to and with the final zero; `none` for a
call that returned `-1`. -/
def sockReads : (bufs : List Bytes) → Socket → List (Option Bytes) × Socket
  | [], s => ([], s)
  | buf :: bufs, s =>
    let (n, buf, s) := sockReadPackets buf s
    let rest := sockReads bufs s
    (n.map (fun n => buf.take (n + 1)) :: rest.1, rest.2)

/-! ## What the stream determines -/

/-- The bytes up to and with the first newline, or the first `n`, whichever is shorter. -/
def firstLine (n : Nat) (stream : Bytes) : Bytes :=
  (stream.take n).take ((stream.take n).idxOf Bytes.lf + 1)

/-- There is a newline or a full buffer in the stream. -/
def HasLine (n : Nat) (stream : Bytes) : Prop :=
  Bytes.lf ∈ stream ∨ n ≤ stream.length

instance (n : Nat) (stream : Bytes) : Decidable (HasLine n stream) :=
  inferInstanceAs (Decidable (_ ∨ _))

/-- The results of `SockRead` for buffers of the given lengths. A stream without a newline that
does not fill the buffer is read to its end, and then given up. -/
def streamLines : (lens : List Nat) → Bytes → List (Option Bytes)
  | [], _ => []
  | len :: lens, stream =>
    if HasLine (len - 1) stream then
      let line := firstLine (len - 1) stream
      some (line ++ [Bytes.nul]) :: streamLines lens (stream.drop line.length)
    else none :: streamLines lens []

/-! ## Reading from the stream -/

/-- Reading goes on behind bytes without a newline. -/
theorem readUpTo_pieces {a : Bytes} (ha : Bytes.lf ∉ a) (n : Nat) (stream : Bytes) :
    readUpTo (a.length + n) (a ++ stream) =
      (readUpTo n stream).map fun r => (a ++ r.1, r.2) := by
  induction a with
  | nil => simp
  | cons b a ih =>
    obtain ⟨hb, ha⟩ := not_or.mp (mt List.mem_cons.mpr ha)
    have hlen : (b :: a).length + n = (a.length + n) + 1 := by
      rw [List.length_cons]
      omega
    rw [hlen, List.cons_append, readUpTo, if_neg fun h => hb h.symm, ih ha, Option.map_map]
    rfl

/-- What is read in terms of the first newline of the stream. -/
theorem readUpTo_eq (n : Nat) (stream : Bytes) :
    readUpTo n stream =
      if HasLine n stream then
        some (firstLine n stream, stream.drop (firstLine n stream).length)
      else none := by
  -- each byte that is no newline shifts the first line by one
  induction n generalizing stream with
  | zero => simp [readUpTo, HasLine, firstLine]
  | succ n ih =>
    cases stream with
    | nil => simp [readUpTo, HasLine]
    | cons b stream =>
      by_cases hb : b = Bytes.lf
      · simp [readUpTo, HasLine, firstLine, hb]
      · have hhas : HasLine (n + 1) (b :: stream) ↔ HasLine n stream := by
          simp [HasLine, Ne.symm hb]
        have hline : firstLine (n + 1) (b :: stream) = b :: firstLine n stream := by
          simp [firstLine, List.idxOf_cons_ne _ hb]
        rw [readUpTo, if_neg hb, ih]
        by_cases h : HasLine n stream
        · rw [if_pos h, if_pos (hhas.mpr h), hline]
          rfl
        · rw [if_neg h, if_neg (mt hhas.mp h)]
          rfl

/-! ## One call -/

section

variable {buf : Bytes} {bp len : Nat} {s : Socket}

theorem length_overwrite {bytes : Bytes} (h : bp + bytes.length ≤ buf.length) :
    (overwriteAt buf bp bytes).length = buf.length := by
  simp only [overwriteAt, List.length_append, List.length_take, List.length_drop]
  omega

theorem take_overwrite {bytes : Bytes} (h : bp ≤ buf.length) :
    (overwriteAt buf bp bytes).take (bp + bytes.length) = buf.take bp ++ bytes := by
  rw [overwriteAt, List.take_left']
  rw [List.length_append, List.length_take, Nat.min_eq_left h]

/-- What is stored before an offset stays. -/
theorem take_overwrite_before {bytes : Bytes} (h : bp ≤ buf.length) :
    (overwriteAt buf bp bytes).take bp = buf.take bp := by
  rw [overwriteAt, List.append_assoc, List.take_left']
  rw [List.length_take, Nat.min_eq_left h]

/-- What a call comes to that has room for `len` bytes at offset `bp`. -/
structure CallReads (buf : Bytes) (bp len : Nat) (s : Socket) (r : Option Nat × Bytes × Socket) :
    Prop where
  length : r.2.1.length = buf.length
  read : ∀ {chunk rest}, readUpTo len s.stream = some (chunk, rest) →
    r.1 = some (bp + chunk.length) ∧ r.2.2.stream = rest ∧
      r.2.1.take (bp + chunk.length + 1) = buf.take bp ++ chunk ++ [Bytes.nul]
  gone : readUpTo len s.stream = none → r.1 = none ∧ r.2.2.stream = []

/-- The final zero. -/
theorem take_set_nul {front bytes : Bytes} (h : bp + bytes.length < buf.length)
    (hbytes : buf.take (bp + bytes.length) = front ++ bytes) :
    (buf.set (bp + bytes.length) Bytes.nul).take (bp + bytes.length + 1) =
      front ++ bytes ++ [Bytes.nul] := by
  rw [List.take_add_one, List.take_set_of_le (Nat.le_refl _), hbytes, List.getElem?_set_self h]
  rfl

/-- The call is done. -/
theorem reads_done {buf' bytes rest : Bytes} {s' : Socket}
    (hread : readUpTo len s.stream = some (bytes, rest)) (hrest : s'.stream = rest)
    (hlen : buf'.length = buf.length) (hroom : bp + bytes.length < buf.length)
    (hbuf : buf'.take (bp + bytes.length) = buf.take bp ++ bytes) :
    CallReads buf bp len s
      (some (bp + bytes.length), buf'.set (bp + bytes.length) Bytes.nul, s') where
  length := by rw [List.length_set, hlen]
  read := by
    intro chunk rest' h
    obtain ⟨rfl, rfl⟩ := Prod.mk.inj (Option.some.inj (hread.symm.trans h))
    exact ⟨rfl, hrest, take_set_nul (hlen ▸ hroom) hbuf⟩
  gone := by
    intro h
    rw [hread] at h
    cases h

/-- The call goes on behind the bytes it has. -/
theorem reads_more {buf' bytes : Bytes} {m : Nat} {s' : Socket}
    {r : Option Nat × Bytes × Socket}
    (hpieces : readUpTo len s.stream =
      (readUpTo m s'.stream).map fun r => (bytes ++ r.1, r.2))
    (hlen : buf'.length = buf.length)
    (hbuf : buf'.take (bp + bytes.length) = buf.take bp ++ bytes)
    (h : CallReads buf' (bp + bytes.length) m s' r) : CallReads buf bp len s r where
  length := by rw [h.length, hlen]
  read := by
    intro chunk rest hread
    rw [hpieces] at hread
    obtain ⟨⟨chunk', rest'⟩, hread', heq⟩ := Option.map_eq_some_iff.mp hread
    obtain ⟨rfl, rfl⟩ := Prod.mk.inj heq
    obtain ⟨hval, hrest, htake⟩ := h.read hread'
    rw [hbuf, Nat.add_assoc bp] at htake
    rw [List.length_append, hval, htake, Nat.add_assoc bp, List.append_assoc (buf.take bp)]
    exact ⟨rfl, hrest, rfl⟩
  gone := by
    intro hnone
    rw [hpieces, Option.map_eq_none_iff] at hnone
    exact h.gone hnone

/-- **The loop** reads what the stream has, however it arrives. -/
theorem sockReadLoop_reads (fuel : Nat) :
    ∀ {buf : Bytes} {bp len : Nat} {s : Socket}, 0 < len → len ≤ fuel → bp + len < buf.length →
      CallReads buf bp len s (sockReadLoop fuel buf bp len s) := by
  induction fuel with
  | zero =>
    intro buf bp len s hpos hfuel hroom
    omega
  | succ fuel ih =>
    intro buf bp len s hpos hfuel hroom
    obtain ⟨k, hk⟩ : ∃ k, min len (s.arrived s.peeks + 1) = k := ⟨_, rfl⟩
    have hpeek : s.peek len = (s.stream.take k, { s with peeks := s.peeks + 1 }) := by
      rw [Socket.peek, hk]
    obtain ⟨peeked, hpeeked⟩ : ∃ peeked, s.stream.take k = peeked := ⟨_, rfl⟩
    obtain ⟨rest, hstream⟩ : ∃ rest, s.stream = peeked ++ rest :=
      ⟨s.stream.drop k, by rw [← hpeeked, List.take_append_drop]⟩
    have hlen : peeked.length ≤ len := by
      rw [← hpeeked, List.length_take]
      omega
    have hbp : bp ≤ buf.length := by omega
    have hstored : (overwriteAt buf bp peeked).length = buf.length := length_overwrite (by omega)
    have hbefore : (overwriteAt buf bp peeked).take bp = buf.take bp := take_overwrite_before hbp
    rw [sockReadLoop, hpeek, hpeeked]
    dsimp only
    split
    · -- the end of the stream
      next hempty =>
      have hnone : s.stream = [] := by
        rw [hempty, List.take_eq_nil_iff] at hpeeked
        exact hpeeked.resolve_left (by omega)
      obtain ⟨n, rfl⟩ : ∃ n, len = n + 1 := ⟨len - 1, by omega⟩
      refine ⟨hstored, fun h => ?_, fun _ => ⟨rfl, hnone⟩⟩
      rw [hnone, readUpTo] at h
      cases h
    · next hsome =>
      -- the buffer after the second store
      have hbuf : ∀ bytes : Bytes, bytes.length ≤ len →
          (overwriteAt (overwriteAt buf bp peeked) bp bytes).length = buf.length ∧
            (overwriteAt (overwriteAt buf bp peeked) bp bytes).take (bp + bytes.length) =
              buf.take bp ++ bytes := by
        intro bytes hbytes
        constructor
        · rw [length_overwrite (by omega), hstored]
        · rw [take_overwrite (by omega), hbefore]
      by_cases hlf : Bytes.lf ∈ peeked
      · obtain ⟨text, after, rfl, htext⟩ := List.eq_append_cons_of_mem hlf
        have hfind : (text ++ Bytes.lf :: after).findIdx? (· = Bytes.lf) = some text.length := by
          have hnone : text.findIdx? (· = Bytes.lf) = none :=
            List.findIdx?_eq_none_iff.mpr fun b hb => decide_eq_false fun h => htext (h ▸ hb)
          rw [List.findIdx?_append, hnone, List.findIdx?_cons]
          simp
        have hcut : text.length + 1 = (text ++ [Bytes.lf]).length := by simp
        have hsplit : s.stream = (text ++ [Bytes.lf]) ++ (after ++ rest) := by
          rw [hstream]
          simp
        rw [List.length_append, List.length_cons] at hlen
        obtain ⟨m, rfl⟩ : ∃ m, len = text.length + (m + 1) := ⟨len - text.length - 1, by omega⟩
        have hread : readUpTo (text.length + (m + 1)) s.stream =
            some (text ++ [Bytes.lf], after ++ rest) := by
          rw [hsplit, List.append_assoc, readUpTo_pieces htext]
          simp [readUpTo]
        simp only [hfind, Option.map_some, Option.getD_some, Socket.read, Option.isNone_some,
          Bool.false_eq_true, false_and, if_false]
        rw [hcut, hsplit, List.take_left, List.drop_left]
        have hbytes : (text ++ [Bytes.lf]).length ≤ text.length + (m + 1) := by
          rw [← hcut]
          omega
        obtain ⟨hsame, htake⟩ := hbuf _ hbytes
        exact reads_done hread rfl hsame (by omega) htake
      · have hfind : peeked.findIdx? (· = Bytes.lf) = none :=
          List.findIdx?_eq_none_iff.mpr fun b hb => decide_eq_false fun h => hlf (h ▸ hb)
        obtain ⟨m, rfl⟩ : ∃ m, len = peeked.length + m := ⟨len - peeked.length, by omega⟩
        have hpieces := readUpTo_pieces hlf m rest
        rw [← hstream] at hpieces
        obtain ⟨hsame, htake⟩ := hbuf peeked hlen
        simp only [hfind, Option.map_none, Option.getD_none, Socket.read, Option.isNone_none,
          true_and, ne_eq]
        rw [hstream, List.take_left, List.drop_left, Nat.add_sub_cancel_left]
        split
        · -- room is left: the loop goes on
          next hmore =>
          have hpieces : readUpTo (peeked.length + m) s.stream =
              (readUpTo m (Socket.mk rest s.arrived (s.peeks + 1)).stream).map
                fun r => (peeked ++ r.1, r.2) := hpieces
          apply reads_more hpieces hsame htake
          exact ih (by omega) (by
            have hsize := List.length_pos_iff.mpr hsome
            omega) (by omega)
        · next hfull =>
          obtain rfl : m = 0 := by omega
          refine reads_done ?_ rfl hsame (by omega) htake
          rw [hpieces]
          simp [readUpTo]

/-- **One call** reads what the stream has, and ends it with a zero. -/
theorem sockReadPackets_reads (hbuf : 1 < buf.length) (s : Socket) :
    CallReads buf 0 (buf.length - 1) s (sockReadPackets buf s) := by
  rw [sockReadPackets, if_neg (by omega)]
  exact sockReadLoop_reads buf.length (by omega) (by omega) (by omega)

end

/-! ## A sequence of calls -/

/-- The bytes read by the calls that returned some, without the final zeros. -/
def receivedBytes (results : List (Option Bytes)) : Bytes :=
  (results.filterMap fun r => r.map List.dropLast).flatten

theorem received_cons (chunk : Bytes) (results : List (Option Bytes)) :
    receivedBytes (some (chunk ++ [Bytes.nul]) :: results) = chunk ++ receivedBytes results := by
  simp [receivedBytes]

/-- **Reading does not depend on how the stream arrives.** The results are those that the stream
determines. Together they are the part of the stream that has been read, less an end that has
neither a newline nor enough bytes for the buffer that was to take it. -/
theorem sockReads_lines (bufs : List Bytes) (hbufs : ∀ buf ∈ bufs, 1 < buf.length) (s : Socket) :
    (sockReads bufs s).1 = streamLines (bufs.map List.length) s.stream ∧
      ∃ lost, s.stream = receivedBytes (sockReads bufs s).1 ++ lost ++ (sockReads bufs s).2.stream ∧
        (none ∉ (sockReads bufs s).1 → lost = []) ∧
        (none ∈ (sockReads bufs s).1 →
          Bytes.lf ∉ lost ∧ (sockReads bufs s).2.stream = []) := by
  induction bufs generalizing s with
  | nil => exact ⟨rfl, [], rfl, fun _ => rfl, fun h => absurd h List.not_mem_nil⟩
  | cons buf bufs ih =>
    have hreads := sockReadPackets_reads (hbufs buf List.mem_cons_self) s
    obtain ⟨r, hr⟩ : ∃ r, sockReadPackets buf s = r := ⟨_, rfl⟩
    obtain ⟨n, buf', s'⟩ := r
    rw [hr] at hreads
    obtain ⟨hlines, lost, hstream, hnone, hsome⟩ :=
      ih (fun buf h => hbufs buf (List.mem_cons_of_mem _ h)) s'
    have hread := readUpTo_eq (buf.length - 1) s.stream
    rw [sockReads, hr]
    dsimp only
    rw [List.map_cons, streamLines]
    by_cases h : HasLine (buf.length - 1) s.stream
    · rw [if_pos h] at hread ⊢
      obtain ⟨hn, hrest, htake⟩ := hreads.read hread
      dsimp only at hn hrest htake
      rw [Nat.zero_add] at hn htake
      subst hn
      have hbytes : buf'.take ((firstLine (buf.length - 1) s.stream).length + 1) =
          firstLine (buf.length - 1) s.stream ++ [Bytes.nul] := by simpa using htake
      rw [Option.map_some, hbytes]
      refine ⟨by rw [hlines, hrest], lost, ?_, fun hall => ?_, fun hsome' => ?_⟩
      · rw [received_cons, List.append_assoc, List.append_assoc,
          ← List.append_assoc (receivedBytes _), ← hstream, hrest]
        exact readUpTo_append hread
      · exact hnone fun h => hall (List.mem_cons_of_mem _ h)
      · exact hsome (by simpa using hsome')
    · rw [if_neg h] at hread ⊢
      obtain ⟨hn, hrest⟩ := hreads.gone hread
      dsimp only at hn hrest
      subst hn
      -- nothing is left for the calls that follow
      rw [hrest] at hstream
      obtain ⟨hempty, hend⟩ := List.append_eq_nil_iff.mp hstream.symm
      rw [Option.map_none]
      refine ⟨by rw [hlines, hrest], s.stream, ?_, fun hall => ?_, fun _ => ⟨?_, hend⟩⟩
      · rw [hend, List.append_nil]
        exact (congrArg (· ++ s.stream) (List.append_eq_nil_iff.mp hempty).1).symm
      · exact absurd List.mem_cons_self hall
      · exact fun hlf => h (.inl hlf)

/-- Two lines, in packets of one byte each and a buffer that the second fills. -/
theorem sockReads_lines_two :
    let s : Socket := ⟨Bytes.lit "ab\ncde", fun _ => 0, 0⟩
    let bufs : List Bytes := [List.replicate 9 7, List.replicate 4 7]
    (sockReads bufs s).1 = streamLines (bufs.map List.length) s.stream ∧
      ∃ lost, s.stream = receivedBytes (sockReads bufs s).1 ++ lost ++ (sockReads bufs s).2.stream ∧
        (none ∉ (sockReads bufs s).1 → lost = []) ∧
        (none ∈ (sockReads bufs s).1 →
          Bytes.lf ∉ lost ∧ (sockReads bufs s).2.stream = []) :=
  sockReads_lines _ (by decide) _

/-- A stream that ends without a newline: its bytes are read, and the call returns `-1`. -/
theorem unterminated_lost :
    let s : Socket := ⟨Bytes.lit "abc", fun _ => 0, 0⟩
    let r := sockReads [List.replicate 100 0] s
    r.1 = [none] ∧ receivedBytes r.1 ++ r.2.stream ≠ s.stream := by
  decide +kernel

end Fetchmail.Transact
