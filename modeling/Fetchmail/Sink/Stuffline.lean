import Fetchmail.Lib.Lines

/-!
# Writing Lines to the Sink

`stuffline` of `sink.c`. Its argument is a buffer, not a C string: the line ends at the
first zero byte that follows a line feed, so what lies in the buffer behind a zero byte
inside the line matters, and the function rewrites the buffer in place.
-/

namespace Fetchmail.Sink

open Fetchmail.Lib

/-- Where the lines go. -/
inductive SinkKind where
  /-- `ctl->mda` -/
  | mda
  /-- `ctl->bsmtp` -/
  | bsmtp
  /-- the socket of an SMTP or LMTP listener -/
  | socket
  deriving DecidableEq, Repr

/-- What `stuffline` reads of `struct query`. -/
structure LineCtl where
  kind : SinkKind
  /-- the protocol ends messages with a lone dot, so the server has stuffed its lines -/
  delimited : Bool
  forcecr : Bool
  stripcr : Bool
  deriving DecidableEq, Repr

/-- The bytes before the first zero byte that follows a line feed, or everything; `prev` is
the byte before. -/
def hunt (prev : UInt8) : Bytes → Bytes
  | [] => []
  | b :: mem => if b = Bytes.nul ∧ prev = Bytes.lf then [] else b :: hunt b mem

/-- The line that `stuffline` finds in a buffer. The byte at the start is not tested. -/
def huntLine : Bytes → Bytes
  | [] => []
  | b :: mem => b :: hunt b mem

/-- Terminate with CRLF a line that ends in a bare line feed. -/
def forceCr (line : Bytes) : Bytes :=
  let body := line.dropLast
  if body.getLast? = some Bytes.cr then line else body ++ Bytes.crlf

section

variable (ctl : LineCtl)

/-- The line with the line end that the sink wants. -/
def ended (found : Bytes) : Bytes := if ctl.forcecr then forceCr found else found

/-- The dot written ahead of the line: unless the server has stuffed it already, or the sink
is an MDA. -/
def stuffing (line : Bytes) : Bytes :=
  if line.head? = some Bytes.dot ∧ ctl.delimited = false ∧ ctl.kind ≠ .mda then [Bytes.dot] else []

/-- How many bytes at the start of the line are left out: an MDA gets the line without the
stuffing of the server. -/
def skipped (line : Bytes) : Nat :=
  if line.head? = some Bytes.dot ∧ ctl.delimited = true ∧ ctl.kind = .mda then 1 else 0

/-- Without carriage returns, where the user wants that. -/
def stripCr (line : Bytes) : Bytes :=
  if ctl.stripcr then line.filter (· ≠ Bytes.cr) else line

/-- Everything written for the line that was found in the buffer. -/
def sinkLine (found : Bytes) : Bytes :=
  let line := ended ctl found
  stuffing ctl line ++ stripCr ctl (line.drop (skipped ctl line))

/-- What one call of `stuffline` does. -/
structure Stuffed where
  written : Bytes
  /-- what the last write returned -/
  n : Int
  /-- the buffer afterwards -/
  mem : Bytes
  deriving DecidableEq, Repr

/-- `stuffline(ctl, buf)`, for a sink that takes what is written. -/
def stuffline (mem : Bytes) : Stuffed :=
  let found := huntLine mem
  let line := ended ctl found
  -- a carriage return more overwrites the zero byte; another is put behind
  let tail := if line.length = found.length then mem.drop found.length
    else Bytes.nul :: mem.drop (found.length + 2)
  let shipped := line.drop (skipped ctl line)
  let stripped := stripCr ctl shipped
  { written := sinkLine ctl found
    n := stripped.length
    mem := line.take (skipped ctl line) ++
      if ctl.stripcr then stripped ++ Bytes.nul :: (shipped ++ tail).drop (stripped.length + 1)
      else shipped ++ tail }

end

/-! ## Finding the end of the line -/

/-- Text without a line feed does not end the line. -/
theorem hunt_text {prev : UInt8} {text rest : Bytes} (hprev : prev ≠ Bytes.lf)
    (htext : Bytes.lf ∉ text) :
    hunt prev (text ++ rest) = text ++ hunt (text.getLast?.getD prev) rest := by
  induction text generalizing prev with
  | nil => rfl
  | cons b text ih =>
    have hb : b ≠ Bytes.lf := fun h => htext (by simp [h])
    have hrest : Bytes.lf ∉ text := fun h => htext (by simp [h])
    simp only [List.cons_append, hunt, hprev, and_false, if_false, ih hb hrest]
    simp [List.getLast?_cons]

/-- A line that a zero byte follows is found, whatever lies behind. -/
theorem huntLine_line {l tail : Bytes} (hl : ∃ text, Bytes.lf ∉ text ∧ l = text ++ [Bytes.lf]) :
    huntLine (l ++ Bytes.nul :: tail) = l := by
  obtain ⟨text, htext, rfl⟩ := hl
  cases text with
  | nil => simp [huntLine, hunt]
  | cons b text =>
    have hb : b ≠ Bytes.lf := fun h => htext (by simp [h])
    have hrest : Bytes.lf ∉ text := fun h => htext (by simp [h])
    simp only [List.cons_append, List.append_assoc, huntLine, hunt_text hb hrest]
    simp [hunt, Bytes.nul, Bytes.lf]

/-- What lies behind the zero byte that ends the line does not matter. -/
theorem hunt_tail {prev : UInt8} {w : Bytes} (tail : Bytes)
    (h : (prev :: w).getLast? = some Bytes.lf) :
    hunt prev (w ++ Bytes.nul :: tail) = hunt prev (w ++ [Bytes.nul]) := by
  induction w generalizing prev with
  | nil =>
    have hprev : prev = Bytes.lf := by simpa using h
    simp [hunt, hprev]
  | cons b w ih =>
    have hlast : (b :: w).getLast? = some Bytes.lf := by simpa [List.getLast?_cons_cons] using h
    simp only [List.cons_append, hunt, ih hlast]

/-- The line found is a part of the buffer up to a zero byte behind a line feed, and all of it
if there is no such byte. -/
theorem hunt_spec {prev : UInt8} {w : Bytes} (h : (prev :: w).getLast? = some Bytes.lf) :
    ∃ rest, w = hunt prev (w ++ [Bytes.nul]) ++ rest ∧
      (prev :: hunt prev (w ++ [Bytes.nul])).getLast? = some Bytes.lf ∧
      (rest = [] ∨ rest.head? = some Bytes.nul) ∧
      (rest = [] ↔ ¬ [Bytes.lf, Bytes.nul] <:+: prev :: w) := by
  induction w generalizing prev with
  | nil =>
    have hprev : prev = Bytes.lf := by simpa using h
    refine ⟨[], by simp [hunt, hprev], by simp [hunt, hprev], .inl rfl, ?_⟩
    simp [List.infix_cons_iff]
  | cons b w ih =>
    have hlast : (b :: w).getLast? = some Bytes.lf := by simpa [List.getLast?_cons_cons] using h
    simp only [List.cons_append, hunt]
    by_cases hstop : b = Bytes.nul ∧ prev = Bytes.lf
    · -- the hunt is over
      rw [if_pos hstop]
      refine ⟨b :: w, rfl, by simp [hstop.2], .inr (by simp [hstop.1]), ?_⟩
      simp [List.infix_cons_iff, hstop.1, hstop.2]
    · rw [if_neg hstop]
      obtain ⟨rest, hw, hend, hhead, hcut⟩ := ih hlast
      refine ⟨rest, by simpa using hw, ?_, hhead, hcut.trans ?_⟩
      · rwa [List.getLast?_cons_cons]
      · have hne : ¬ [Bytes.lf, Bytes.nul] <+: prev :: b :: w := by
          simp only [List.cons_prefix_cons, List.nil_prefix, and_true]
          exact fun heq => hstop ⟨heq.2.symm, heq.1.symm⟩
        conv_rhs => rw [List.infix_cons_iff]
        simp [hne]

theorem huntLine_tail {w : Bytes} (tail : Bytes) (h : w.getLast? = some Bytes.lf) :
    huntLine (w ++ Bytes.nul :: tail) = huntLine (w ++ [Bytes.nul]) := by
  cases w with
  | nil => simp at h
  | cons b w => simp only [List.cons_append, huntLine, hunt_tail tail h]

theorem huntLine_spec {w : Bytes} (h : w.getLast? = some Bytes.lf) :
    ∃ rest, w = huntLine (w ++ [Bytes.nul]) ++ rest ∧
      (huntLine (w ++ [Bytes.nul])).getLast? = some Bytes.lf ∧
      (rest = [] ∨ rest.head? = some Bytes.nul) ∧
      (rest = [] ↔ ¬ [Bytes.lf, Bytes.nul] <:+: w) := by
  cases w with
  | nil => simp at h
  | cons b w =>
    obtain ⟨rest, hw, hend, hhead, hcut⟩ := hunt_spec h
    exact ⟨rest, by simpa [huntLine] using hw, hend, hhead, hcut⟩

theorem length_huntLine_le (mem : Bytes) : (huntLine mem).length ≤ mem.length := by
  have hhunt : ∀ (mem : Bytes) (prev : UInt8), (hunt prev mem).length ≤ mem.length := by
    intro mem
    induction mem with
    | nil => simp [hunt]
    | cons b mem ih =>
      intro prev
      unfold hunt
      split
      · simp
      · simpa using ih b
  cases mem with
  | nil => simp [huntLine]
  | cons b mem => simpa [huntLine] using hhunt mem b

theorem length_ended (ctl : LineCtl) {found : Bytes} (h : found ≠ []) :
    (ended ctl found).length = found.length ∨ (ended ctl found).length = found.length + 1 := by
  have hpos : 0 < found.length := List.length_pos_iff.mpr h
  unfold ended forceCr
  split
  · simp only
    split
    · exact .inl rfl
    · right
      simp [Bytes.crlf]
      omega
  · exact .inl rfl

theorem length_stripCr_le (ctl : LineCtl) (line : Bytes) : (stripCr ctl line).length ≤ line.length := by
  unfold stripCr
  split
  · exact List.length_filter_le _ _
  · exact Nat.le_refl _

/-- `stuffline` keeps the size of the buffer, if the line leaves room for its zero byte. -/
theorem length_stuffline_mem {ctl : LineCtl} {mem : Bytes} (hne : huntLine mem ≠ [])
    (h : (ended ctl (huntLine mem)).length < mem.length) :
    (stuffline ctl mem).mem.length = mem.length := by
  have hle := length_huntLine_le mem
  have hlen := length_ended ctl hne
  have hstrip := length_stripCr_le ctl
    ((ended ctl (huntLine mem)).drop (skipped ctl (ended ctl (huntLine mem))))
  simp only [stuffline]
  generalize ended ctl (huntLine mem) = line at *
  simp only [List.length_drop] at hstrip
  split <;> split <;>
    simp only [List.length_append, List.length_take, List.length_drop, List.length_cons] <;> omega

/-! ## The line end -/

/-- The line end that the sink wants is put in place of the one there. -/
theorem ended_lineEnd (ctl : LineCtl) (w : Bytes) :
    ∃ e, ended ctl (w ++ [Bytes.lf]) = w ++ e ∧ LineEnd e ∧
      (e = [Bytes.lf] ↔ (ctl.forcecr = true → w.getLast? = some Bytes.cr)) := by
  have hne : Bytes.crlf ≠ [Bytes.lf] := by decide
  unfold ended forceCr
  rw [List.dropLast_concat]
  cases ctl.forcecr with
  | false => exact ⟨[Bytes.lf], rfl, .inl rfl, by simp⟩
  | true =>
    by_cases hcr : w.getLast? = some Bytes.cr
    · exact ⟨[Bytes.lf], by simp [hcr], .inl rfl, by simp [hcr]⟩
    · exact ⟨Bytes.crlf, by simp [hcr], .inr rfl, by simp [hcr, hne]⟩

theorem ended_crlf (ctl : LineCtl) (w : Bytes) :
    ended ctl (w ++ Bytes.crlf) = w ++ Bytes.crlf := by
  have hassoc : w ++ Bytes.crlf = (w ++ [Bytes.cr]) ++ [Bytes.lf] := by simp [Bytes.crlf]
  obtain ⟨e, hended, -, he⟩ := ended_lineEnd ctl (w ++ [Bytes.cr])
  rw [hassoc, hended, he.mpr (by simp)]

theorem terminated_ended (ctl : LineCtl) {w : Bytes} (h : w.getLast? = some Bytes.lf) :
    Terminated (ended ctl w) := by
  obtain ⟨k, rfl⟩ := List.getLast?_eq_some_iff.mp h
  obtain ⟨e, hended, he, -⟩ := ended_lineEnd ctl k
  rw [hended]
  exact he.terminated k

/-! ## Zero bytes -/

/-- A line keeps its zero bytes on the way to the sink: only dots and line ends are put in or
left out. -/
theorem count_nul_sinkLine (ctl : LineCtl) {w : Bytes} (h : w.getLast? = some Bytes.lf) :
    (sinkLine ctl w).count Bytes.nul = w.count Bytes.nul := by
  obtain ⟨k, rfl⟩ := List.getLast?_eq_some_iff.mp h
  obtain ⟨e, hended, he, -⟩ := ended_lineEnd ctl k
  have hend : (ended ctl (k ++ [Bytes.lf])).count Bytes.nul = (k ++ [Bytes.lf]).count Bytes.nul := by
    rw [hended, List.count_append, List.count_append]
    rcases he with rfl | rfl <;> rfl
  have hstuff : ∀ line, (stuffing ctl line).count Bytes.nul = 0 := by
    intro line
    unfold stuffing
    split <;> rfl
  have hstrip : ∀ line, (stripCr ctl line).count Bytes.nul = line.count Bytes.nul := by
    intro line
    unfold stripCr
    split
    · exact List.count_filter (by decide)
    · rfl
  have hskip : ∀ line : Bytes, (line.drop (skipped ctl line)).count Bytes.nul =
      line.count Bytes.nul := by
    intro line
    unfold skipped
    split
    · next hdot =>
      obtain ⟨rest, rfl⟩ := List.head?_eq_some_iff.mp hdot.1
      rfl
    · rfl
  rw [sinkLine, List.count_append, hstuff, hstrip, hskip, hend, Nat.zero_add]

end Fetchmail.Sink
