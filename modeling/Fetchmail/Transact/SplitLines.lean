import Fetchmail.Lib.Buffer
import Fetchmail.Transact.Socket
import Mathlib.Data.List.Basic
import Mathlib.Data.List.TakeWhile

/-!
# Splitting Long Responses

`gen_recv_split` of `transact.c`: a line that is too long for the buffer is handed out in pieces,
each with the same words in front, cut at blanks. The piece of a word at the end of the buffer is
kept for the next call.
-/

namespace Fetchmail.Transact

open Fetchmail.Lib

/-! ## The function -/

/-- What `gen_recv_split_init` and the caller fix: the words that a line must start with to be
split, the size of the buffer, and that of the array `buf` in `struct RecvSplit`. -/
structure SplitCtl where
  /-- the member `prefix` -/
  pre : Bytes
  plain : Bytes.nul ∉ pre
  size : Nat
  cacheSize : Nat
  roomy : pre.length + 3 ≤ size
  cache : size ≤ cacheSize + 1

/-- What is still to be read, and what `struct RecvSplit` keeps, if it does. -/
structure SplitState where
  stream : Bytes
  cached : Option Bytes
  deriving DecidableEq, Repr

/-- How a call ends. -/
inductive SplitReturn where
  /-- `PS_SUCCESS`, with the buffer -/
  | line (buf : Bytes)
  | socket
  /-- an assertion fails, or `overrun` is called -/
  | abort
  deriving DecidableEq, Repr

section

variable (c : SplitCtl)

/-- The last blank, behind the words at the start: what stands before it, and from it on. -/
def splitPoint (buf : Bytes) : Option (Bytes × Bytes) :=
  if Bytes.startsWithCI buf c.pre then
    match Buffer.lastIdx Bytes.space buf with
    | none => none
    | some p => if p < c.pre.length then none else some (buf.take p, buf.drop p)
  else none

/-- `gen_recv_split`, once the buffer has been filled. -/
def splitBuffer (buf stream : Bytes) : SplitReturn × SplitState :=
  let buf := Bytes.cstr buf
  let foundnewline := buf.getLast? = some Bytes.lf
  let buf := Bytes.chop Bytes.cr (Bytes.chop Bytes.lf buf)
  if foundnewline then (.line buf, ⟨stream, none⟩)
  else
    match splitPoint c buf with
    | none => (.line buf, ⟨stream, none⟩)
    | some (front, tail) =>
      if c.cacheSize ≤ tail.length then (.abort, ⟨stream, none⟩)
      else (.line front, ⟨stream, some tail⟩)

/-- `gen_recv_split` -/
def genRecvSplit (s : SplitState) : SplitReturn × SplitState :=
  match s.cached with
  | none =>
    match sockRead c.size s.stream with
    | none => (.socket, s)
    | some (chunk, stream) => splitBuffer c chunk stream
  | some cached =>
    -- the assertion, and the results of `strlcpy` and `strlcat`
    if c.size < c.pre.length + cached.length + 1 then (.abort, s)
    else
      match sockRead (c.size - (c.pre.length + cached.length)) s.stream with
      | none => (.socket, s)
      | some (chunk, stream) => splitBuffer c (c.pre ++ cached ++ chunk) stream

/-- A number of calls, with what they return, if they all succeed. -/
def splitCalls : Nat → SplitState → Option (List Bytes × SplitState)
  | 0, s => some ([], s)
  | calls + 1, s =>
    match genRecvSplit c s with
    | (.line buf, s) => (splitCalls calls s).map fun r => (buf :: r.1, r.2)
    | _ => none

/-- `gen_recv`, for comparison. -/
def recvLine (size : Nat) (stream : Bytes) : Option (Bytes × Bytes) :=
  (sockRead size stream).map fun r =>
    (Bytes.chop Bytes.cr (Bytes.chop Bytes.lf (Bytes.cstr r.1)), r.2)

/-! ## What is expected -/

/-- A result without the words in front. -/
def SplitCtl.unprefixed (r : Bytes) : Bytes := r.drop c.pre.length

/-- What the pieces make up. -/
def SplitCtl.joined (results : List Bytes) : Bytes := results.flatMap c.unprefixed

/-- What the pieces of a line are to be. -/
structure LineSplit (line : Bytes) (results : List Bytes) : Prop where
  starts : ∀ r ∈ results, Bytes.startsWithCI r c.pre = true
  /-- without the words in front, the pieces make up the line -/
  whole : c.joined results = c.unprefixed line
  /-- the line is cut before blanks only -/
  uncut : ∀ xs ys, results = xs ++ ys → xs ≠ [] → ys ≠ [] →
    (c.joined ys).head? = some Bytes.space

/-- Every word is shorter than `m`. -/
def ShortWords (m : Nat) (s : Bytes) : Prop :=
  ∀ front word tail, s = front ++ word ++ tail → Bytes.space ∉ word → word.length < m

/-- The bound on the words of a line. -/
def SplitCtl.wordRoom : Nat := c.size - c.pre.length - 2

/-- A line that is split if it is too long, up to its line feed. -/
structure SplitLine where
  raw : Bytes
  noNewline : Bytes.lf ∉ raw
  starts : Bytes.startsWithCI (Bytes.chop Bytes.cr raw) c.pre = true
  short : ShortWords c.wordRoom (c.unprefixed (Bytes.chop Bytes.cr raw))

/-- The line is handed out in pieces, and the next one, if it fits into the buffer, as `gen_recv`
would. -/
def SplitsWell (line : SplitLine c) (next rest : Bytes) : Prop :=
  ∃ calls results,
    splitCalls c calls ⟨line.raw ++ Bytes.lf :: (next ++ Bytes.lf :: rest), none⟩ =
      some (results, ⟨next ++ Bytes.lf :: rest, none⟩) ∧
    LineSplit c (Bytes.chop Bytes.cr line.raw) results ∧
    (next.length + 1 < c.size →
      (recvLine c.size (next ++ Bytes.lf :: rest)).map (fun r => (SplitReturn.line r.1,
          (⟨r.2, none⟩ : SplitState))) =
        some (genRecvSplit c ⟨next ++ Bytes.lf :: rest, none⟩))

/-- The bytes that fill the buffer when `pending` is in front. -/
def SplitCtl.room (pending : Bytes) : Nat := c.size - 1 - (c.pre.length + pending.length)

/-- No read that fills the buffer ends in a carriage return, but for the one at the end of the
line. `pending` is what is kept in front of the rest `w` of the line. -/
def cleanCuts : (steps : Nat) → (pending w : Bytes) → Bool
  | 0, _, _ => true
  | steps + 1, pending, w =>
    if w.length < c.room pending then true
    else
      let body := Bytes.chop Bytes.cr (pending ++ w.take (c.room pending))
      match Buffer.lastIdx Bytes.space body with
      | none => true
      | some p =>
        (decide ((w.take (c.room pending)).getLast? ≠ some Bytes.cr) ||
          decide (w.drop (c.room pending) = [] ∧ body.getLast? ≠ some Bytes.cr)) &&
        cleanCuts steps (body.drop p) (w.drop (c.room pending))

end

/-! ## Words and line ends -/

section

variable {m : Nat} {a b s : Bytes}

theorem ShortWords.suffix (h : ShortWords m (a ++ b)) : ShortWords m b := by
  intro front word tail heq hword
  apply h (a ++ front) word tail _ hword
  rw [heq]
  simp only [List.append_assoc]

theorem ShortWords.front (h : ShortWords m (a ++ b)) : ShortWords m a := by
  intro front word tail heq hword
  apply h front word (tail ++ b) _ hword
  rw [heq]
  simp only [List.append_assoc]

/-- A word without one of its bytes is no longer. -/
theorem ShortWords.erase {x : UInt8} (h : ShortWords m (a ++ x :: b)) (hx : x ≠ Bytes.space) :
    ShortWords m (a ++ b) := by
  intro front word tail heq hword
  rcases List.append_eq_append_iff.mp (heq.trans (List.append_assoc front word tail)) with
    ⟨c, hfront, hb⟩ | ⟨c, ha, hrest⟩
  · apply h (a ++ x :: c) word tail _ hword
    rw [hb]
    simp only [List.append_assoc, List.cons_append]
  · rcases List.append_eq_append_iff.mp hrest with ⟨d, hc, hb⟩ | ⟨d, hc, hb⟩
    · apply h front word (d ++ x :: b) _ hword
      rw [ha, hc]
      simp only [List.append_assoc]
    -- the byte is taken out of this word, which was one longer
    · have hlonger : (c ++ x :: d).length < m := by
        apply h front (c ++ x :: d) tail
        · rw [ha, hb]
          simp only [List.append_assoc, List.cons_append]
        · rw [hc] at hword
          simp only [List.mem_append, List.mem_cons, not_or] at hword ⊢
          exact ⟨hword.1, hx.symm, hword.2⟩
      rw [hc]
      simp only [List.length_append, List.length_cons] at hlonger ⊢
      omega

theorem ShortWords.blank_mem (h : ShortWords m s) (hlen : m ≤ s.length) : Bytes.space ∈ s := by
  by_cases hblank : Bytes.space ∈ s
  · exact hblank
  · have hlt := h [] s [] (by simp) hblank
    omega

/-- The last place of a byte that occurs. -/
theorem exists_last {x : UInt8} (h : x ∈ s) :
    ∃ front word, s = front ++ x :: word ∧ x ∉ word := by
  induction s with
  | nil => cases h
  | cons y s ih =>
    by_cases hs : x ∈ s
    · obtain ⟨front, word, heq, hword⟩ := ih hs
      exact ⟨y :: front, word, by rw [heq]; rfl, hword⟩
    · cases List.mem_cons.mp h with
      | inl hxy => exact ⟨[], s, by rw [hxy]; rfl, hs⟩
      | inr hmem => exact absurd hmem hs

theorem chop_nil (x : UInt8) : Bytes.chop x [] = [] := rfl

theorem chop_of_getLast? {x : UInt8} (h : s.getLast? ≠ some x) : Bytes.chop x s = s :=
  if_neg h

theorem chop_concat (x : UInt8) (s : Bytes) : Bytes.chop x (s ++ [x]) = s := by
  simp [Bytes.chop]

/-- What is chopped off. -/
theorem chop_isPrefix (x : UInt8) (s : Bytes) :
    s = Bytes.chop x s ∨ s = Bytes.chop x s ++ [x] := by
  unfold Bytes.chop
  split
  · next h =>
    obtain ⟨t, rfl⟩ := List.getLast?_eq_some_iff.mp h
    exact .inr (by simp)
  · exact .inl rfl

theorem mem_of_mem_chop {x y : UInt8} (h : y ∈ Bytes.chop x s) : y ∈ s := by
  cases chop_isPrefix x s with
  | inl heq => rwa [heq]
  | inr heq =>
    rw [heq]
    exact List.mem_append_left _ h

theorem ShortWords.chop {x : UInt8} (h : ShortWords m s) : ShortWords m (Bytes.chop x s) := by
  cases chop_isPrefix x s with
  | inl heq => rwa [← heq]
  | inr heq =>
    rw [heq] at h
    exact h.front

end

/-! ## One call -/

section

variable {c : SplitCtl} {head pending w rest : Bytes}

/-- The buffer is filled: with the rest of the line, if there is room. -/
def splitFill (c : SplitCtl) (head pending w rest : Bytes) : SplitReturn × SplitState :=
  if w.length < c.room pending then splitBuffer c (head ++ (pending ++ (w ++ [Bytes.lf]))) rest
  else splitBuffer c (head ++ (pending ++ w.take (c.room pending)))
    (w.drop (c.room pending) ++ Bytes.lf :: rest)

/-- A read with room for `n` bytes. -/
theorem readUpTo_rest {n : Nat} (hw : Bytes.lf ∉ w) :
    readUpTo n (w ++ Bytes.lf :: rest) =
      if w.length < n then some (w ++ [Bytes.lf], rest)
      else some (w.take n, w.drop n ++ Bytes.lf :: rest) := by
  rw [readUpTo_line hw]
  split
  · next h =>
    have hlen : (w ++ [Bytes.lf]).length ≤ n := by simp; omega
    rw [List.take_of_length_le hlen, List.drop_eq_nil_of_le hlen, List.nil_append]
  · next h =>
    have hlen : n ≤ w.length := Nat.not_lt.mp h
    rw [List.take_append_of_le_length hlen, List.drop_append_of_le_length hlen, List.append_assoc]
    rfl

/-- A call that finds nothing kept. -/
theorem genRecvSplit_first (hlen : c.pre.length ≤ w.length) (hw : Bytes.lf ∉ w) :
    genRecvSplit c ⟨w ++ Bytes.lf :: rest, none⟩ =
      splitFill c (w.take c.pre.length) [] (w.drop c.pre.length) rest := by
  have hroomy := c.roomy
  have hroom : c.room [] = c.size - 1 - c.pre.length := rfl
  have hread : sockRead c.size (w ++ Bytes.lf :: rest) = _ :=
    (if_neg (by omega)).trans (readUpTo_rest hw)
  unfold genRecvSplit splitFill
  simp only [hread]
  rw [List.length_drop, hroom]
  by_cases h : w.length < c.size - 1
  · rw [if_pos h, if_pos (by omega)]
    simp only [List.nil_append]
    rw [← List.append_assoc, List.take_append_drop]
  · rw [if_neg h, if_neg (by omega)]
    simp only [List.nil_append]
    have htake : w.take c.pre.length ++ (w.drop c.pre.length).take (c.size - 1 - c.pre.length) =
        w.take (c.size - 1) := by
      rw [← List.take_add, Nat.add_sub_cancel' (by omega)]
    rw [htake, List.drop_drop, Nat.add_sub_cancel' (by omega)]

/-- A call that finds the beginning of a word kept. -/
theorem genRecvSplit_next (hpending : pending.length ≤ c.wordRoom) (hw : Bytes.lf ∉ w) :
    genRecvSplit c ⟨w ++ Bytes.lf :: rest, some pending⟩ = splitFill c c.pre pending w rest := by
  have hroomy := c.roomy
  unfold SplitCtl.wordRoom at hpending
  have hroom : c.room pending = c.size - (c.pre.length + pending.length) - 1 := by
    unfold SplitCtl.room
    omega
  have hread : sockRead (c.size - (c.pre.length + pending.length)) (w ++ Bytes.lf :: rest) = _ :=
    (if_neg (by omega)).trans (readUpTo_rest hw)
  unfold genRecvSplit splitFill
  simp only [hread]
  rw [if_neg (by omega), hroom]
  by_cases h : w.length < c.size - (c.pre.length + pending.length) - 1
  · simp only [if_pos h, List.append_assoc]
  · simp only [if_neg h, List.append_assoc]

/-- The rest of the line fits. -/
theorem splitBuffer_whole {buf : Bytes} (hnul : Bytes.nul ∉ buf) :
    splitBuffer c (buf ++ [Bytes.lf]) rest = (.line (Bytes.chop Bytes.cr buf), ⟨rest, none⟩) := by
  have hcstr : Bytes.cstr (buf ++ [Bytes.lf]) = buf ++ [Bytes.lf] := by
    apply Buffer.cstr_eq_self
    rw [List.mem_append, List.mem_singleton]
    exact not_or.mpr ⟨hnul, by decide⟩
  simp only [splitBuffer, hcstr, List.getLast?_concat, if_true, chop_concat]

theorem startsWithCI_append (hlen : head.length = c.pre.length)
    (hstarts : Bytes.startsWithCI head c.pre = true) (x : Bytes) :
    Bytes.startsWithCI (head ++ x) c.pre = true := by
  unfold Bytes.startsWithCI at hstarts ⊢
  rw [← hlen, List.take_left]
  rwa [← hlen, List.take_length] at hstarts

/-- The line goes on, and the buffer is cut at its last blank. -/
theorem splitBuffer_cut {x front word s : Bytes} (hlen : head.length = c.pre.length)
    (hstarts : Bytes.startsWithCI head c.pre = true) (hx : x ≠ [])
    (hnul : Bytes.nul ∉ head ++ x) (hlf : Bytes.lf ∉ x)
    (hbody : Bytes.chop Bytes.cr x = front ++ Bytes.space :: word) (hword : Bytes.space ∉ word)
    (hcache : word.length + 1 < c.cacheSize) :
    splitBuffer c (head ++ x) s = (.line (head ++ front), ⟨s, some (Bytes.space :: word)⟩) := by
  have hlast : (head ++ x).getLast? ≠ some Bytes.lf := by
    intro h
    rw [List.getLast?_append_of_ne_nil head hx] at h
    exact hlf (List.mem_of_getLast? h)
  have hbuf : Bytes.chop Bytes.cr (head ++ x) = head ++ (front ++ Bytes.space :: word) := by
    rw [Bytes.chop_append head hx, hbody]
  have hmatch : Bytes.startsWithCI (head ++ (front ++ Bytes.space :: word)) c.pre = true :=
    startsWithCI_append hlen hstarts _
  have hidx : Buffer.lastIdx Bytes.space (head ++ (front ++ Bytes.space :: word)) =
      some (head ++ front).length := by
    rw [← List.append_assoc]
    exact Buffer.lastIdx_append _ hword
  have hpoint : splitPoint c (head ++ (front ++ Bytes.space :: word)) =
      some (head ++ front, Bytes.space :: word) := by
    have hge : ¬ (head ++ front).length < c.pre.length := by
      rw [List.length_append, hlen]
      omega
    simp only [splitPoint, hmatch, if_true, hidx, if_neg hge]
    rw [← List.append_assoc, List.take_left, List.drop_left]
  simp only [splitBuffer, Buffer.cstr_eq_self hnul, chop_of_getLast? hlast, hbuf, hpoint]
  rw [if_neg hlast, if_neg (by rw [List.length_cons]; omega)]

/-- A line on its way: `head` is in front, `pending` is kept, `w` is still to be read. -/
structure Splitting (c : SplitCtl) (head pending w : Bytes) : Prop where
  length : head.length = c.pre.length
  starts : Bytes.startsWithCI head c.pre = true
  nul : Bytes.nul ∉ head ++ (pending ++ w)
  noNewline : Bytes.lf ∉ pending ++ w
  bare : pending ++ w = [] → Bytes.chop Bytes.cr head = head
  short : ShortWords c.wordRoom (Bytes.chop Bytes.cr (pending ++ w))
  fits : pending.length ≤ c.wordRoom

theorem Splitting.room (h : Splitting c head pending w) :
    c.room pending + pending.length = c.wordRoom + 1 := by
  have hfits := h.fits
  have hroomy := c.roomy
  unfold SplitCtl.wordRoom SplitCtl.room at *
  omega

/-- What a read that fills the buffer leaves to be done. -/
theorem Splitting.cut (h : Splitting c head pending w) (hfull : ¬ w.length < c.room pending) :
    ∃ front word,
      Bytes.chop Bytes.cr (pending ++ w.take (c.room pending)) = front ++ Bytes.space :: word ∧
      Bytes.space ∉ word ∧ word.length < c.wordRoom ∧
      Splitting c c.pre (Bytes.space :: word) (w.drop (c.room pending)) := by
  have hroom := h.room
  have hfits := h.fits
  have hlen : (pending ++ w.take (c.room pending)).length = c.wordRoom + 1 := by
    rw [List.length_append, List.length_take_of_le (Nat.not_lt.mp hfull)]
    omega
  have hsplit : pending ++ w = (pending ++ w.take (c.room pending)) ++ w.drop (c.room pending) := by
    rw [List.append_assoc, List.take_append_drop]
  have hshort := h.short
  have hnul := h.nul
  have hlf := h.noNewline
  rw [hsplit] at hshort hnul hlf
  generalize hchunk : pending ++ w.take (c.room pending) = chunk at *
  generalize w.drop (c.room pending) = w' at *
  -- the chunk is the front of the line, but what is chopped off need not be at its end
  have hbody : ShortWords c.wordRoom (Bytes.chop Bytes.cr chunk) := by
    by_cases hw : w' = []
    · rw [hw, List.append_nil] at hshort
      exact hshort
    · rw [Bytes.chop_append chunk hw] at hshort
      exact hshort.front.chop
  -- the buffer is full, so there is a blank in it
  have hlong : c.wordRoom ≤ (Bytes.chop Bytes.cr chunk).length := by
    cases chop_isPrefix Bytes.cr chunk with
    | inl heq => rw [← heq]; omega
    | inr heq =>
      have hl := congrArg List.length heq
      rw [List.length_append, List.length_singleton] at hl
      omega
  obtain ⟨front, word, heq, hword⟩ := exists_last (hbody.blank_mem hlong)
  have hmem : ∀ x ∈ word, x ∈ chunk := by
    intro x hx
    apply mem_of_mem_chop
    rw [heq]
    exact List.mem_append_right _ (List.mem_cons_of_mem _ hx)
  have hwordlen : word.length < c.wordRoom := by
    apply hbody (front ++ [Bytes.space]) word []
    · rw [heq]
      simp
    · exact hword
  refine ⟨front, word, heq, hword, hwordlen, rfl, ?_, ?_, ?_, ?_, ?_, hwordlen⟩
  · unfold Bytes.startsWithCI
    rw [List.take_length]
    exact decide_eq_true rfl
  · simp only [List.mem_append, List.mem_cons, not_or] at hnul ⊢
    exact ⟨c.plain, ⟨by decide, fun hx => hnul.2.1 (hmem _ hx)⟩, hnul.2.2⟩
  · simp only [List.mem_append, List.mem_cons, not_or] at hlf ⊢
    exact ⟨⟨by decide, fun hx => hlf.1 (hmem _ hx)⟩, hlf.2⟩
  · intro hnil
    cases hnil
  · by_cases hw : w' = []
    · rw [hw, List.append_nil]
      rw [heq] at hbody
      exact hbody.suffix.chop
    · rw [Bytes.chop_append _ hw] at hshort ⊢
      have hjoined : ShortWords c.wordRoom
          (front ++ (Bytes.space :: word ++ Bytes.chop Bytes.cr w')) := by
        rw [← List.append_assoc, ← heq]
        cases chop_isPrefix Bytes.cr chunk with
        | inl hc => rwa [← hc]
        | inr hc =>
          rw [hc, List.append_assoc] at hshort
          exact hshort.erase (by decide)
      exact hjoined.suffix

/-- A cut loses nothing when the read does not end in a carriage return, or in the one at the end
of the line. -/
def CleanCut (c : SplitCtl) (pending w : Bytes) : Prop :=
  (w.take (c.room pending)).getLast? ≠ some Bytes.cr ∨
    w.drop (c.room pending) = [] ∧
      (Bytes.chop Bytes.cr (pending ++ w.take (c.room pending))).getLast? ≠ some Bytes.cr

theorem Splitting.take_ne_nil (h : Splitting c head pending w)
    (hfull : ¬ w.length < c.room pending) : w.take (c.room pending) ≠ [] := by
  intro hnil
  have hlen := congrArg List.length hnil
  rw [List.length_take_of_le (Nat.not_lt.mp hfull), List.length_nil] at hlen
  have hroom := h.room
  have hfits := h.fits
  omega

/-- **A clean cut.** What is put out and what remains make up the line. -/
theorem chop_of_cleanCut {front word : Bytes} (hne : w.take (c.room pending) ≠ [])
    (hclean : CleanCut c pending w)
    (hbody : Bytes.chop Bytes.cr (pending ++ w.take (c.room pending)) =
      front ++ Bytes.space :: word) :
    front ++ Bytes.chop Bytes.cr (Bytes.space :: word ++ w.drop (c.room pending)) =
      Bytes.chop Bytes.cr (pending ++ w) := by
  have hsplit : pending ++ w = (pending ++ w.take (c.room pending)) ++ w.drop (c.room pending) := by
    rw [List.append_assoc, List.take_append_drop]
  cases hclean with
  -- nothing is chopped off the chunk
  | inl hlast =>
    have hkept : Bytes.chop Bytes.cr (pending ++ w.take (c.room pending)) =
        pending ++ w.take (c.room pending) := by
      apply chop_of_getLast?
      rwa [List.getLast?_append_of_ne_nil _ hne]
    have hmore : Bytes.space :: word ++ w.drop (c.room pending) ≠ [] := List.cons_ne_nil _ _
    rw [← Bytes.chop_append front hmore, hsplit, ← hkept, hbody, List.append_assoc]
  -- the chunk ends the line, and what is chopped off would be chopped off the line too
  | inr hend =>
    rw [hsplit, hend.1, List.append_nil, List.append_nil, hbody]
    have hlast : (Bytes.space :: word).getLast? ≠ some Bytes.cr := by
      rw [← List.getLast?_append_of_ne_nil _ (List.cons_ne_nil _ _), ← hbody]
      exact hend.2
    rw [chop_of_getLast? hlast]

/-- **Any other cut.** A carriage return is lost. -/
theorem length_lt_of_not_cleanCut {front word : Bytes} (hne : w.take (c.room pending) ≠ [])
    (hclean : ¬ CleanCut c pending w)
    (hbody : Bytes.chop Bytes.cr (pending ++ w.take (c.room pending)) =
      front ++ Bytes.space :: word) :
    front.length + (Bytes.chop Bytes.cr (Bytes.space :: word ++ w.drop (c.room pending))).length <
      (Bytes.chop Bytes.cr (pending ++ w)).length := by
  obtain ⟨hlast, hend⟩ := not_or.mp hclean
  have hcr : (pending ++ w.take (c.room pending)).getLast? = some Bytes.cr := by
    rw [List.getLast?_append_of_ne_nil _ hne]
    exact Decidable.of_not_not hlast
  obtain ⟨body, hchunk⟩ := List.getLast?_eq_some_iff.mp hcr
  have hsplit : pending ++ w = (body ++ [Bytes.cr]) ++ w.drop (c.room pending) := by
    rw [← hchunk, List.append_assoc, List.take_append_drop]
  rw [hchunk, chop_concat] at hbody hend
  -- nothing puts back the carriage return that the chunk has lost
  by_cases hw : w.drop (c.room pending) = []
  · have hbodycr : (Bytes.space :: word).getLast? = some Bytes.cr := by
      rw [← List.getLast?_append_of_ne_nil _ (List.cons_ne_nil _ _), ← hbody]
      exact Decidable.of_not_not fun hno => hend ⟨hw, hno⟩
    obtain ⟨tail, htail⟩ := List.getLast?_eq_some_iff.mp hbodycr
    have hlen : body.length = front.length + (tail.length + 1) := by
      rw [hbody, List.length_append, htail, List.length_append, List.length_singleton]
    rw [hsplit, hw, List.append_nil, List.append_nil, chop_concat, htail, chop_concat, hlen]
    omega
  · rw [hsplit, Bytes.chop_append _ hw, Bytes.chop_append _ hw, hbody]
    simp only [List.length_append, List.length_cons, List.length_nil]
    omega

/-! ## One line -/

/-- What is put out for the rest of a line. -/
structure Pieces (c : SplitCtl) (pending w : Bytes) (results : List Bytes) : Prop where
  starts : ∀ r ∈ results, Bytes.startsWithCI r c.pre = true
  uncut : ∀ xs ys, results = xs ++ ys → xs ≠ [] → ys ≠ [] →
    (c.joined ys).head? = some Bytes.space
  lead : pending.head? = some Bytes.space → (c.joined results).head? = some Bytes.space
  length_le : (c.joined results).length ≤ (Bytes.chop Bytes.cr (pending ++ w)).length

theorem joined_cons (hlen : head.length = c.pre.length) (front : Bytes) (more : List Bytes) :
    c.joined ((head ++ front) :: more) = front ++ c.joined more := by
  rw [SplitCtl.joined, List.flatMap_cons, SplitCtl.unprefixed, ← hlen, List.drop_left]
  rfl

theorem head?_chop_space (x : Bytes) :
    (Bytes.chop Bytes.cr (Bytes.space :: x)).head? = some Bytes.space := by
  cases x with
  | nil => rfl
  | cons y x =>
    rw [← List.singleton_append, Bytes.chop_append _ (List.cons_ne_nil y x)]
    rfl

theorem head?_chop {x : Bytes} (h : x.head? = some Bytes.space) :
    (Bytes.chop Bytes.cr x).head? = some Bytes.space := by
  cases x with
  | nil => cases h
  | cons y x =>
    cases h
    exact head?_chop_space x

/-- The rest fits. -/
theorem Splitting.whole (h : Splitting c head pending w) (hroom : w.length < c.room pending)
    (rest : Bytes) :
    splitFill c head pending w rest =
        (.line (head ++ Bytes.chop Bytes.cr (pending ++ w)), ⟨rest, none⟩) ∧
      Pieces c pending w [head ++ Bytes.chop Bytes.cr (pending ++ w)] ∧
      c.joined [head ++ Bytes.chop Bytes.cr (pending ++ w)] =
        Bytes.chop Bytes.cr (pending ++ w) := by
  have hjoined : c.joined [head ++ Bytes.chop Bytes.cr (pending ++ w)] =
      Bytes.chop Bytes.cr (pending ++ w) := by
    rw [joined_cons h.length]
    exact List.append_nil _
  -- a carriage return that is dropped is never part of the head
  have hbuf : Bytes.chop Bytes.cr (head ++ (pending ++ w)) =
      head ++ Bytes.chop Bytes.cr (pending ++ w) := by
    by_cases hnil : pending ++ w = []
    · rw [hnil, List.append_nil, h.bare hnil, chop_nil, List.append_nil]
    · exact Bytes.chop_append head hnil
  refine ⟨?_, ⟨?_, ?_, ?_, ?_⟩, hjoined⟩
  · have hassoc : head ++ (pending ++ (w ++ [Bytes.lf])) = (head ++ (pending ++ w)) ++ [Bytes.lf] := by
      simp only [List.append_assoc]
    rw [splitFill, if_pos hroom, hassoc, splitBuffer_whole h.nul, hbuf]
  · intro r hr
    rw [List.mem_singleton.mp hr]
    exact startsWithCI_append h.length h.starts _
  -- one piece has no two parts
  · intro xs ys heq hxs hys
    have hlen := congrArg List.length heq
    rw [List.length_append, List.length_singleton] at hlen
    have hx := List.length_pos_iff.mpr hxs
    have hy := List.length_pos_iff.mpr hys
    omega
  · intro hlead
    rw [hjoined]
    apply head?_chop
    rw [List.head?_append, hlead]
    rfl
  · exact Nat.le_of_eq (congrArg List.length hjoined)

/-- A piece in front of what is put out for the rest. -/
theorem Pieces.cons {front word w' : Bytes} {more : List Bytes}
    (h : Pieces c (Bytes.space :: word) w' more) (hlen : head.length = c.pre.length)
    (hstarts : Bytes.startsWithCI head c.pre = true)
    (hlead : pending.head? = some Bytes.space → front = [] ∨ front.head? = some Bytes.space)
    (hle : front.length + (Bytes.chop Bytes.cr (Bytes.space :: word ++ w')).length ≤
      (Bytes.chop Bytes.cr (pending ++ w)).length) :
    Pieces c pending w ((head ++ front) :: more) := by
  have hmore := h.lead rfl
  constructor
  · intro r hr
    cases List.mem_cons.mp hr with
    | inl heq =>
      rw [heq]
      exact startsWithCI_append hlen hstarts _
    | inr hmem => exact h.starts r hmem
  · intro xs ys heq hxs hys
    cases xs with
    | nil => exact absurd rfl hxs
    | cons x xs =>
      have htail : more = xs ++ ys := (List.cons.inj heq).2
      -- the cut is in front of the blank that the second piece starts with
      by_cases hnil : xs = []
      · rw [hnil, List.nil_append] at htail
        rw [← htail, hmore]
      · exact h.uncut xs ys htail hnil hys
  · intro hp
    rw [joined_cons hlen]
    cases hlead hp with
    | inl hnil => rw [hnil, List.nil_append, hmore]
    | inr hfirst => rw [List.head?_append, hfirst]; rfl
  · rw [joined_cons hlen, List.length_append]
    have := h.length_le
    omega

theorem cleanCuts_whole {n : Nat} (hroom : w.length < c.room pending) :
    cleanCuts c n pending w = true := by
  cases n with
  | zero => rfl
  | succ n => rw [cleanCuts, if_pos hroom]

theorem cleanCuts_cut {n : Nat} {front word : Bytes} (hroom : ¬ w.length < c.room pending)
    (hbody : Bytes.chop Bytes.cr (pending ++ w.take (c.room pending)) =
      front ++ Bytes.space :: word) (hword : Bytes.space ∉ word) :
    cleanCuts c (n + 1) pending w = true ↔
      CleanCut c pending w ∧
        cleanCuts c n (Bytes.space :: word) (w.drop (c.room pending)) = true := by
  have hidx := Buffer.lastIdx_append (c := Bytes.space) front hword
  simp only [cleanCuts, if_neg hroom, CleanCut, hbody, hidx, List.drop_left, Bool.and_eq_true,
    Bool.or_eq_true, decide_eq_true_eq]

/-- The line is cut. -/
theorem Splitting.fill_cut {front word : Bytes} (h : Splitting c head pending w)
    (hroom : ¬ w.length < c.room pending)
    (hbody : Bytes.chop Bytes.cr (pending ++ w.take (c.room pending)) =
      front ++ Bytes.space :: word)
    (hword : Bytes.space ∉ word) (hwordlen : word.length < c.wordRoom) (rest : Bytes) :
    splitFill c head pending w rest =
      (.line (head ++ front),
        ⟨w.drop (c.room pending) ++ Bytes.lf :: rest, some (Bytes.space :: word)⟩) := by
  have hroomy := c.roomy
  have hcache := c.cache
  have hnul := h.nul
  have hlf := h.noNewline
  have hsplit : pending ++ w = (pending ++ w.take (c.room pending)) ++ w.drop (c.room pending) := by
    rw [List.append_assoc, List.take_append_drop]
  rw [hsplit, ← List.append_assoc, List.mem_append, not_or] at hnul
  rw [hsplit, List.mem_append, not_or] at hlf
  rw [splitFill, if_neg hroom]
  apply splitBuffer_cut h.length h.starts _ hnul.1 hlf.1 hbody hword
  · unfold SplitCtl.wordRoom at hwordlen
    omega
  · exact List.append_ne_nil_of_right_ne_nil _ (h.take_ne_nil hroom)

/-- A piece begins with the blank that was kept, or is empty. -/
theorem lead_of_cut {x front word : Bytes}
    (hbody : Bytes.chop Bytes.cr (pending ++ x) = front ++ Bytes.space :: word)
    (hp : pending.head? = some Bytes.space) : front = [] ∨ front.head? = some Bytes.space := by
  cases front with
  | nil => exact .inl rfl
  | cons y front =>
    have hfirst : (Bytes.chop Bytes.cr (pending ++ x)).head? = some Bytes.space := by
      apply head?_chop
      rw [List.head?_append, hp]
      rfl
    rw [hbody] at hfirst
    exact .inr hfirst

/-- **The pieces of a line.** Its bytes are all put out when all its cuts are clean, and only
then. -/
theorem Splitting.pieces (n : Nat) {head pending w : Bytes} (h : Splitting c head pending w)
    (hn : w.length ≤ n) (rest : Bytes) :
    ∃ buf s calls more, splitFill c head pending w rest = (.line buf, s) ∧
      splitCalls c calls s = some (more, ⟨rest, none⟩) ∧ Pieces c pending w (buf :: more) ∧
      (cleanCuts c n pending w = true ↔
        c.joined (buf :: more) = Bytes.chop Bytes.cr (pending ++ w)) := by
  induction n generalizing head pending w with
  | zero =>
    have hroom : w.length < c.room pending := by
      have := h.room
      have := h.fits
      omega
    obtain ⟨hfill, hpieces, hjoined⟩ := h.whole hroom rest
    exact ⟨_, _, 0, [], hfill, rfl, hpieces, iff_of_true (cleanCuts_whole hroom) hjoined⟩
  -- the chunk is cut at a blank, and the word behind it is kept for the next call
  | succ n ih =>
    by_cases hroom : w.length < c.room pending
    · obtain ⟨hfill, hpieces, hjoined⟩ := h.whole hroom rest
      exact ⟨_, _, 0, [], hfill, rfl, hpieces, iff_of_true (cleanCuts_whole hroom) hjoined⟩
    · obtain ⟨front, word, hbody, hword, hwordlen, hnext⟩ := h.cut hroom
      have hne := h.take_ne_nil hroom
      have hshorter : (w.drop (c.room pending)).length ≤ n := by
        have hpos := List.length_pos_iff.mpr hne
        rw [List.length_take] at hpos
        rw [List.length_drop]
        omega
      obtain ⟨buf, s, calls, more, hfill, hcalls, hpieces, hclean⟩ := ih hnext hshorter
      have hsplit := h.fill_cut hroom hbody hword hwordlen rest
      have hlf : Bytes.lf ∉ w.drop (c.room pending) := fun hmem =>
        h.noNewline (List.mem_append_right _ (List.mem_of_mem_drop hmem))
      have hcalls' : splitCalls c (calls + 1)
          ⟨w.drop (c.room pending) ++ Bytes.lf :: rest, some (Bytes.space :: word)⟩ =
          some (buf :: more, ⟨rest, none⟩) := by
        rw [splitCalls, genRecvSplit_next hnext.fits hlf, hfill]
        simp only [hcalls, Option.map_some]
      have hle : front.length +
          (Bytes.chop Bytes.cr (Bytes.space :: word ++ w.drop (c.room pending))).length ≤
            (Bytes.chop Bytes.cr (pending ++ w)).length := by
        by_cases hcut : CleanCut c pending w
        · rw [← chop_of_cleanCut hne hcut hbody, List.length_append]
        · exact Nat.le_of_lt (length_lt_of_not_cleanCut hne hcut hbody)
      refine ⟨_, _, calls + 1, buf :: more, hsplit, hcalls',
        hpieces.cons h.length h.starts (lead_of_cut hbody) hle, ?_⟩
      rw [cleanCuts_cut hroom hbody hword, joined_cons h.length]
      constructor
      · rintro ⟨hcut, hrest⟩
        rw [hclean.mp hrest]
        exact chop_of_cleanCut hne hcut hbody
      · intro hjoined
        -- a piece that has lost a byte leaves too little for the whole line
        have hcut : CleanCut c pending w := by
          by_contra hcut
          have hlost := length_lt_of_not_cleanCut hne hcut hbody
          have hmore := hpieces.length_le
          have hlen := congrArg List.length hjoined
          rw [List.length_append] at hlen
          omega
        refine ⟨hcut, hclean.mpr ?_⟩
        rw [← chop_of_cleanCut hne hcut hbody] at hjoined
        exact List.append_cancel_left hjoined

/-! ## Calls -/

/-- A result is a C string. -/
theorem genRecvSplit_nul {s s' : SplitState} {buf : Bytes}
    (h : genRecvSplit c s = (.line buf, s')) : Bytes.nul ∉ buf := by
  -- the buffer is cut at its first NUL, and only gets shorter then
  have hcstr : ∀ x, Bytes.nul ∉ Bytes.chop Bytes.cr (Bytes.chop Bytes.lf (Bytes.cstr x)) := by
    intro x hmem
    have hin := mem_of_mem_chop (mem_of_mem_chop hmem)
    simpa using List.mem_takeWhile_imp hin
  -- a split line is a part of it
  have hbuffer : ∀ x stream, splitBuffer c x stream = (.line buf, s') → Bytes.nul ∉ buf := by
    intro x stream hx
    unfold splitBuffer at hx
    simp only at hx
    split at hx
    · cases hx
      exact hcstr x
    · split at hx
      · cases hx
        exact hcstr x
      · next front tail hpoint =>
        split at hx
        · cases hx
        · cases hx
          unfold splitPoint at hpoint
          split at hpoint
          · split at hpoint
            · cases hpoint
            · split at hpoint
              · cases hpoint
              · cases hpoint
                exact fun hmem => hcstr x (List.mem_of_mem_take hmem)
          · cases hpoint
  unfold genRecvSplit at h
  split at h
  · split at h
    · cases h
    · exact hbuffer _ _ h
  · split at h
    · cases h
    · split at h
      · cases h
      · exact hbuffer _ _ h

theorem splitBuffer_stream (buf stream : Bytes) : (splitBuffer c buf stream).2.stream = stream := by
  unfold splitBuffer
  simp only
  split
  · rfl
  · split
    · rfl
    · split <;> rfl

/-- A call that succeeds takes something from the stream. -/
theorem genRecvSplit_shorter {s s' : SplitState} {buf : Bytes}
    (h : genRecvSplit c s = (.line buf, s')) : s'.stream.length < s.stream.length := by
  have hrest : ∀ x stream, splitBuffer c x stream = (.line buf, s') → s'.stream = stream := by
    intro x stream hx
    rw [← splitBuffer_stream x stream, hx]
  unfold genRecvSplit at h
  split at h
  · split at h
    · cases h
    · next hread =>
      rw [hrest _ _ h]
      exact sockRead_shorter hread
  · split at h
    · cases h
    · split at h
      · cases h
      · next hread =>
        rw [hrest _ _ h]
        exact sockRead_shorter hread

theorem splitCalls_succ {calls : Nat} {s s' : SplitState} {results : List Bytes}
    (h : splitCalls c (calls + 1) s = some (results, s')) :
    ∃ buf s₁ more, genRecvSplit c s = (.line buf, s₁) ∧
      splitCalls c calls s₁ = some (more, s') ∧ results = buf :: more := by
  rw [splitCalls] at h
  split at h
  · next buf s₁ hcall =>
    obtain ⟨⟨more, s₂⟩, hmore, heq⟩ := Option.map_eq_some_iff.mp h
    cases heq
    exact ⟨buf, s₁, more, hcall, hmore, rfl⟩
  · cases h

theorem splitCalls_shorter {calls : Nat} {s s' : SplitState} {results : List Bytes}
    (h : splitCalls c calls s = some (results, s')) :
    s'.stream.length + calls ≤ s.stream.length := by
  induction calls generalizing s results with
  | zero =>
    cases h
    exact Nat.le_refl _
  | succ calls ih =>
    obtain ⟨buf, s₁, more, hcall, hmore, -⟩ := splitCalls_succ h
    have hfirst := genRecvSplit_shorter hcall
    have hrest := ih hmore
    omega

/-- How far the stream has been read says what was put out. -/
theorem splitCalls_unique {calls calls' : Nat} {s s₁ s₂ : SplitState} {xs ys : List Bytes}
    (h₁ : splitCalls c calls s = some (xs, s₁)) (h₂ : splitCalls c calls' s = some (ys, s₂))
    (hstream : s₁.stream = s₂.stream) : xs = ys := by
  induction calls generalizing calls' s xs ys with
  | zero =>
    cases calls' with
    | zero =>
      cases h₁
      cases h₂
      rfl
    | succ calls' =>
      cases h₁
      -- every call takes a line or a chunk off the stream
      have hlen := splitCalls_shorter h₂
      rw [hstream] at hlen
      omega
  | succ calls ih =>
    cases calls' with
    | zero =>
      cases h₂
      have hlen := splitCalls_shorter h₁
      rw [hstream] at hlen
      omega
    | succ calls' =>
      obtain ⟨buf, t, more, hcall, hmore, rfl⟩ := splitCalls_succ h₁
      obtain ⟨buf', t', more', hcall', hmore', rfl⟩ := splitCalls_succ h₂
      rw [hcall] at hcall'
      cases hcall'
      rw [ih hmore hmore']

theorem splitCalls_nul {calls : Nat} {s s' : SplitState} {results : List Bytes}
    (h : splitCalls c calls s = some (results, s')) : ∀ r ∈ results, Bytes.nul ∉ r := by
  induction calls generalizing s results with
  | zero =>
    cases h
    intro r hr
    cases hr
  | succ calls ih =>
    obtain ⟨buf, s₁, more, hcall, hmore, rfl⟩ := splitCalls_succ h
    intro r hr
    cases List.mem_cons.mp hr with
    | inl heq => exact heq ▸ genRecvSplit_nul hcall
    | inr hmem => exact ih hmore r hmem

/-! ## A line that fits -/

/-- `gen_recv` on a line that fits. -/
theorem recvLine_fits {next : Bytes} (hnext : Bytes.lf ∉ next) (hfits : next.length + 1 < c.size)
    (rest : Bytes) :
    recvLine c.size (next ++ Bytes.lf :: rest) =
        some (Bytes.chop Bytes.cr (Bytes.chop Bytes.lf (Bytes.cstr (next ++ [Bytes.lf]))), rest) ∧
      genRecvSplit c ⟨next ++ Bytes.lf :: rest, none⟩ =
        splitBuffer c (next ++ [Bytes.lf]) rest := by
  have hread : sockRead c.size (next ++ Bytes.lf :: rest) = some (next ++ [Bytes.lf], rest) := by
    rw [sockRead, if_neg (by omega), readUpTo_rest hnext, if_pos (by omega)]
  constructor
  · rw [recvLine, hread]
    rfl
  · unfold genRecvSplit
    simp only [hread]

/-- A line that fits is returned as by `gen_recv`, unless a zero byte hides its line feed, and it
is then split. -/
theorem fits_iff {next : Bytes} (hnext : Bytes.lf ∉ next) (hfits : next.length + 1 < c.size)
    (rest : Bytes) :
    (recvLine c.size (next ++ Bytes.lf :: rest)).map (fun r => (SplitReturn.line r.1,
        (⟨r.2, none⟩ : SplitState))) =
      some (genRecvSplit c ⟨next ++ Bytes.lf :: rest, none⟩) ↔
    Bytes.nul ∉ next ∨ splitPoint c (Bytes.chop Bytes.cr (Bytes.cstr next)) = none := by
  obtain ⟨hrecv, hcall⟩ := recvLine_fits hnext hfits rest
  rw [hrecv, hcall, Option.map_some, Option.some_inj]
  by_cases hnul : Bytes.nul ∈ next
  · have hcstr : Bytes.cstr (next ++ [Bytes.lf]) = Bytes.cstr next := by
      obtain ⟨front, tail, rfl⟩ := List.append_of_mem hnul
      rw [List.append_assoc, List.cons_append]
      simp only [Bytes.cstr, List.takeWhile_append]
      split <;> simp
    have hlast : (Bytes.cstr next).getLast? ≠ some Bytes.lf := by
      intro hlast
      exact hnext (List.takeWhile_prefix _ |>.subset (List.mem_of_getLast? hlast))
    simp only [splitBuffer, hcstr, chop_of_getLast? hlast]
    rw [if_neg hlast]
    -- the string ends at the zero byte, so no newline is seen at its end
    constructor
    · intro heq
      right
      split at heq
      · next hpoint => exact hpoint
      · split at heq
        · cases heq
        · cases heq
    · intro h
      cases h with
      | inl h => exact absurd hnul h
      | inr h => rw [h]
  · rw [splitBuffer_whole hnul]
    have hcstr : Bytes.cstr (next ++ [Bytes.lf]) = next ++ [Bytes.lf] := by
      apply Buffer.cstr_eq_self
      rw [List.mem_append, List.mem_singleton]
      exact not_or.mpr ⟨hnul, by decide⟩
    rw [hcstr, chop_concat]
    exact iff_of_true rfl (.inl hnul)

/-! ## The whole line -/

/-- What starts with the words has no zero byte in their place. -/
theorem nul_not_mem_of_startsWithCI {s : Bytes} (h : Bytes.startsWithCI s c.pre = true) :
    Bytes.nul ∉ s.take c.pre.length := by
  intro hmem
  have hmap : (s.take c.pre.length).map Bytes.toLower = c.pre.map Bytes.toLower :=
    of_decide_eq_true h
  have hlower : Bytes.nul ∈ c.pre.map Bytes.toLower := by
    rw [← hmap]
    exact List.mem_map.mpr ⟨_, hmem, rfl⟩
  obtain ⟨b, hb, hnul⟩ := List.mem_map.mp hlower
  exact c.plain (Bytes.eq_of_toLower hnul (by decide) ▸ hb)

theorem le_length_of_startsWithCI {s : Bytes} (h : Bytes.startsWithCI s c.pre = true) :
    c.pre.length ≤ s.length := by
  have hmap : (s.take c.pre.length).map Bytes.toLower = c.pre.map Bytes.toLower :=
    of_decide_eq_true h
  have hlen := congrArg List.length hmap
  rw [List.length_map, List.length_map, List.length_take] at hlen
  omega

variable (line : SplitLine c)

theorem SplitLine.le_length : c.pre.length ≤ line.raw.length := by
  apply Nat.le_trans (le_length_of_startsWithCI line.starts)
  cases chop_isPrefix Bytes.cr line.raw with
  | inl heq => rw [← heq]
  | inr heq =>
    have hlen := congrArg List.length heq
    rw [List.length_append] at hlen
    omega

/-- The words in front have nothing to do with the end of the line. -/
theorem SplitLine.chop_raw :
    Bytes.chop Bytes.cr line.raw =
      line.raw.take c.pre.length ++ Bytes.chop Bytes.cr (c.unprefixed line.raw) := by
  have hsplit := List.take_append_drop c.pre.length line.raw
  by_cases hnil : c.unprefixed line.raw = []
  · have hlen : line.raw.length = c.pre.length :=
      Nat.le_antisymm (List.drop_eq_nil_iff.mp hnil) line.le_length
    rw [hnil, chop_nil, List.append_nil, ← hlen, List.take_length]
    cases chop_isPrefix Bytes.cr line.raw with
    | inl heq => exact heq.symm
    | inr heq =>
      have hshort := le_length_of_startsWithCI line.starts
      have hlonger := congrArg List.length heq
      rw [List.length_append, List.length_singleton] at hlonger
      omega
  · have hchop := Bytes.chop_append (b := Bytes.cr) (line.raw.take c.pre.length) hnil
    rwa [SplitCtl.unprefixed, hsplit] at hchop

theorem SplitLine.unprefixed_chop :
    c.unprefixed (Bytes.chop Bytes.cr line.raw) = Bytes.chop Bytes.cr (c.unprefixed line.raw) := by
  rw [line.chop_raw]
  exact List.drop_left' (List.length_take_of_le line.le_length)

theorem SplitLine.splitting (hnul : Bytes.nul ∉ line.raw) :
    Splitting c (line.raw.take c.pre.length) [] (c.unprefixed line.raw) := by
  have hsplit : line.raw.take c.pre.length ++ c.unprefixed line.raw = line.raw :=
    List.take_append_drop _ _
  have hlen : (line.raw.take c.pre.length).length = c.pre.length :=
    List.length_take_of_le line.le_length
  constructor
  · exact hlen
  · have hstarts := line.starts
    rw [line.chop_raw] at hstarts
    unfold Bytes.startsWithCI at hstarts ⊢
    rw [List.take_left' hlen] at hstarts
    rwa [List.take_of_length_le (Nat.le_of_eq hlen)]
  · rwa [List.nil_append, hsplit]
  · intro hmem
    exact line.noNewline (List.mem_of_mem_drop hmem)
  · intro hnil
    rw [List.nil_append] at hnil
    have hchop := line.chop_raw
    have hraw := hsplit
    rw [hnil, List.append_nil] at hraw
    rw [hnil, chop_nil, List.append_nil, hraw] at hchop
    rwa [hraw]
  · rw [List.nil_append, ← line.unprefixed_chop]
    exact line.short
  · exact Nat.zero_le _

/-- A zero byte of the line would have to show in the results. -/
theorem SplitLine.nul_not_mem {results : List Bytes}
    (hsplit : LineSplit c (Bytes.chop Bytes.cr line.raw) results)
    (hresults : ∀ r ∈ results, Bytes.nul ∉ r) : Bytes.nul ∉ line.raw := by
  intro hmem
  have hfront : Bytes.nul ∉ line.raw.take c.pre.length := by
    have hstarts := nul_not_mem_of_startsWithCI line.starts
    rwa [line.chop_raw, List.take_left' (List.length_take_of_le line.le_length)] at hstarts
  have hrest : Bytes.nul ∈ c.unprefixed line.raw := by
    rw [← List.take_append_drop c.pre.length line.raw, List.mem_append] at hmem
    exact hmem.resolve_left hfront
  have hkept : Bytes.nul ∈ Bytes.chop Bytes.cr (c.unprefixed line.raw) := by
    cases chop_isPrefix Bytes.cr (c.unprefixed line.raw) with
    | inl heq => rwa [← heq]
    | inr heq =>
      rw [heq, List.mem_append] at hrest
      exact hrest.resolve_right (by decide)
  rw [← line.unprefixed_chop, ← hsplit.whole] at hkept
  obtain ⟨r, hr, hin⟩ := List.mem_flatMap.mp hkept
  exact hresults r hr (List.mem_of_mem_drop hin)

/-- Splitting loses nothing when no read that fills the buffer ends in a carriage return and no
line has a zero byte that does harm. -/
theorem splitsWell_iff (line : SplitLine c) {next : Bytes} (hnext : Bytes.lf ∉ next)
    (rest : Bytes) :
    SplitsWell c line next rest ↔
      Bytes.nul ∉ line.raw ∧
      cleanCuts c line.raw.length [] (c.unprefixed line.raw) = true ∧
      (next.length + 1 < c.size →
        Bytes.nul ∉ next ∨ splitPoint c (Bytes.chop Bytes.cr (Bytes.cstr next)) = none) := by
  have hfirst := @genRecvSplit_first c line.raw (next ++ Bytes.lf :: rest) line.le_length
    line.noNewline
  have hlen : (c.unprefixed line.raw).length ≤ line.raw.length := by
    rw [SplitCtl.unprefixed, List.length_drop]
    omega
  constructor
  -- the calls of the reading are those of the construction, as each takes something
  · rintro ⟨calls, results, hcalls, hsplit, hfits⟩
    have hnul := line.nul_not_mem hsplit (splitCalls_nul hcalls)
    obtain ⟨buf, s, calls', more, hfill, hmore, -, hclean⟩ :=
      (line.splitting hnul).pieces line.raw.length hlen (next ++ Bytes.lf :: rest)
    have hall : splitCalls c (calls' + 1)
        ⟨line.raw ++ Bytes.lf :: (next ++ Bytes.lf :: rest), none⟩ =
        some (buf :: more, ⟨next ++ Bytes.lf :: rest, none⟩) := by
      rw [splitCalls, hfirst]
      simp only [SplitCtl.unprefixed] at hfill
      simp only [hfill, hmore, Option.map_some]
    have hsame := splitCalls_unique hcalls hall rfl
    refine ⟨hnul, hclean.mpr ?_, fun h => (fits_iff hnext h rest).mp (hfits h)⟩
    rw [← hsame, hsplit.whole, line.unprefixed_chop, List.nil_append]
  · rintro ⟨hnul, hcuts, hfits⟩
    obtain ⟨buf, s, calls, more, hfill, hmore, hpieces, hclean⟩ :=
      (line.splitting hnul).pieces line.raw.length hlen (next ++ Bytes.lf :: rest)
    refine ⟨calls + 1, buf :: more, ?_, ⟨hpieces.starts, ?_, hpieces.uncut⟩,
      fun h => (fits_iff hnext h rest).mpr (hfits h)⟩
    · rw [splitCalls, hfirst]
      simp only [SplitCtl.unprefixed] at hfill
      simp only [hfill, hmore, Option.map_some]
    · rw [hclean.mp hcuts, line.unprefixed_chop, List.nil_append]

end

/-! ## A carriage return in a word -/

theorem shortWords_of_windows {m : Nat} {s : Bytes}
    (h : ∀ i < s.length + 1 - m, Bytes.space ∈ (s.drop i).take m) : ShortWords m s := by
  intro front word tail heq hword
  by_contra hlong
  have hlen := congrArg List.length heq
  simp only [List.length_append] at hlen
  have hwindow := h front.length (by omega)
  rw [heq, List.append_assoc, List.drop_left, List.take_append_of_le_length (by omega)] at hwindow
  exact hword (List.mem_of_mem_take hwindow)

/-- A small buffer. -/
def searchSplit : SplitCtl where
  pre := Bytes.lit "* SEARCH"
  plain := by decide
  size := 16
  cacheSize := 15
  roomy := by decide
  cache := by decide

/-- The first read ends in the carriage return, and `34` and `56` become one number. -/
def bareCr : SplitLine searchSplit where
  raw := Bytes.lit "* SEARCH 12 34\r56 78\r"
  noNewline := by decide
  starts := by decide
  short := shortWords_of_windows (by decide +kernel)

theorem bareCr_lost : ¬ SplitsWell searchSplit bareCr (Bytes.lit "* OK") [] := by
  rintro ⟨calls, results, hcalls, hsplit, -⟩
  have hthree : splitCalls searchSplit 3
      ⟨bareCr.raw ++ Bytes.lf :: (Bytes.lit "* OK" ++ Bytes.lf :: []), none⟩ =
      some ([Bytes.lit "* SEARCH 12", Bytes.lit "* SEARCH 3456", Bytes.lit "* SEARCH 78"],
        ⟨Bytes.lit "* OK" ++ Bytes.lf :: [], none⟩) := by
    decide +kernel
  have hwhole := hsplit.whole
  rw [splitCalls_unique hcalls hthree rfl] at hwhole
  revert hwhole
  decide +kernel

/-- A response that is split twice. -/
def threePieces : SplitLine searchSplit where
  raw := Bytes.lit "* SEARCH 12 34 56 78 90 11\r"
  noNewline := by decide
  starts := by decide
  short := shortWords_of_windows (by decide +kernel)

theorem splitsWell_iff_threePieces :
    SplitsWell searchSplit threePieces (Bytes.lit "* OK") [] ↔
      Bytes.nul ∉ threePieces.raw ∧
      cleanCuts searchSplit threePieces.raw.length [] (searchSplit.unprefixed threePieces.raw) =
        true ∧
      ((Bytes.lit "* OK").length + 1 < searchSplit.size →
        Bytes.nul ∉ Bytes.lit "* OK" ∨
          splitPoint searchSplit (Bytes.chop Bytes.cr (Bytes.cstr (Bytes.lit "* OK"))) = none) :=
  splitsWell_iff threePieces (by decide) []

end Fetchmail.Transact
