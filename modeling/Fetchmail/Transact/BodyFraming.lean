import Fetchmail.Lib.Lines
import Fetchmail.Transact.Readbody

/-!
# Framing of Bodies for Delimited Protocols

A protocol that is delimited ends a message body by a line that is a single dot. `readbody`
looks for it in what `SockRead` delivers, which for a line longer than the buffer is not the
line but its pieces. The body is framed right exactly when no line leaves a piece that looks
like the terminator; `Clean` says so by lengths.
-/

namespace Fetchmail.Transact

open Fetchmail.Lib
open Fetchmail.Sink

/-! ## Pieces of lines -/

/-- The most that `SockRead` delivers into an empty buffer. -/
def pieceSize : Nat := bufSize - 4 - 1

/-- The pieces in which `readbody` sees a line. -/
def pieces (l : Bytes) : List Bytes :=
  if pieceSize < l.length then l.take pieceSize :: pieces (l.drop pieceSize) else [l]
termination_by l.length
decreasing_by
  simp only [List.length_drop]
  have : 0 < pieceSize := by decide
  omega

/-- What `readbody` takes for the end of the message. -/
def looksLikeEnd (l : Bytes) : Bool :=
  l = terminator || l = [Bytes.dot, Bytes.lf]

/-- No piece of the line looks like the end of the message. -/
def Clean (l : Bytes) : Prop :=
  ∀ j, looksLikeEnd (l.drop (pieceSize * j)) = false

/-- What may be in the buffer after a read: a line, the end of a line, or a full buffer
without a line feed. -/
def Piece (p : Bytes) : Prop :=
  IsLine p ∨ (Bytes.lf ∉ p ∧ p.length = pieceSize)

theorem looksLikeEnd_length {l : Bytes} (h : looksLikeEnd l = true) :
    0 < l.length ∧ l.length ≤ 3 := by
  simp only [looksLikeEnd, Bool.or_eq_true, decide_eq_true_eq] at h
  rcases h with rfl | rfl <;> decide

theorem clean_short {l : Bytes} (h : l.length ≤ pieceSize) : Clean l ↔ looksLikeEnd l = false := by
  constructor
  · intro hc
    simpa using hc 0
  · intro hl j
    cases j with
    | zero => simpa using hl
    | succ j =>
      have hnil : l.drop (pieceSize * (j + 1)) = [] :=
        List.drop_eq_nil_of_le (Nat.le_trans h (Nat.le_mul_of_pos_right _ (Nat.succ_pos j)))
      rw [hnil]
      rfl

theorem clean_long {l : Bytes} (h : pieceSize < l.length) :
    Clean l ↔ Clean (l.drop pieceSize) := by
  constructor
  · intro hc j
    have hj := hc (j + 1)
    rwa [Nat.mul_succ, Nat.add_comm, ← List.drop_drop] at hj
  · intro hc j
    cases j with
    | zero =>
      rw [Nat.mul_zero, List.drop_zero, ← Bool.not_eq_true]
      intro hl
      have hlen := looksLikeEnd_length hl
      have hsize : pieceSize = 8191 := rfl
      omega
    | succ j =>
      rw [Nat.mul_succ, Nat.add_comm, ← List.drop_drop]
      exact hc j

/-! ## What the sink gets -/

/-- The pieces reached the sink in order. Behind a piece without a line feed come the zero
byte of the buffer, a byte that happened to lie there, and a line end of `readbody`'s. -/
inductive Forwarded (ctl : LineCtl) : List Bytes → Bytes → Prop where
  | nil : Forwarded ctl [] []
  | line {p : Bytes} {ps : List Bytes} {out : Bytes} : IsLine p → Forwarded ctl ps out →
      Forwarded ctl (p :: ps) (sinkLine ctl p ++ out)
  | cut {p : Bytes} {ps : List Bytes} {out : Bytes} (junk : UInt8) : Bytes.lf ∉ p →
      Forwarded ctl ps out →
      Forwarded ctl (p :: ps) (sinkLine ctl (p ++ [Bytes.nul, junk, Bytes.cr, Bytes.lf]) ++ out)

theorem Forwarded.append {ctl : LineCtl} {ps qs : List Bytes} {out out' : Bytes}
    (h : Forwarded ctl ps out) (h' : Forwarded ctl qs out') :
    Forwarded ctl (ps ++ qs) (out ++ out') := by
  induction h with
  | nil => exact h'
  | line hp _ ih => simpa using ih.line hp
  | cut junk hp _ ih => simpa using ih.cut junk hp

/-- Lines that are not cut arrive as `stuffline` writes them. -/
theorem Forwarded.eq_of_lines {ctl : LineCtl} {ps : List Bytes} {out : Bytes}
    (h : Forwarded ctl ps out) (hps : ∀ p ∈ ps, IsLine p) : out = ps.flatMap (sinkLine ctl) := by
  induction h with
  | nil => rfl
  | line _ _ ih => rw [ih fun p hp => hps p (by simp [hp]), List.flatMap_cons]
  | cut junk hlf _ _ =>
    obtain ⟨text, -, htext⟩ := hps _ List.mem_cons_self
    exact absurd (htext ▸ by simp) hlf

/-- Every piece without a line feed brings a zero byte with it that was not in the text. -/
theorem Forwarded.count_nul {ctl : LineCtl} {ps : List Bytes} {out : Bytes}
    (h : Forwarded ctl ps out) :
    ps.flatten.count Bytes.nul + ps.countP (Bytes.lf ∉ ·) ≤ out.count Bytes.nul := by
  induction h with
  | nil => rfl
  | line hp _ ih =>
    obtain ⟨text, -, rfl⟩ := hp
    rw [List.count_append, count_nul_sinkLine ctl (by simp), List.flatten_cons, List.count_append,
      List.countP_cons_of_neg (by simp)]
    omega
  | cut junk hlf _ ih =>
    rw [List.count_append, count_nul_sinkLine ctl (by simp), List.flatten_cons, List.count_append,
      List.countP_cons_of_pos (by simpa using hlf), List.count_append, List.count_cons_self]
    omega

theorem flatten_pieces (l : Bytes) : (pieces l).flatten = l := by
  unfold pieces
  split
  · rw [List.flatten_cons, flatten_pieces, List.take_append_drop]
  · simp
termination_by l.length
decreasing_by
  simp only [List.length_drop]
  have : 0 < pieceSize := by decide
  omega

theorem flatMap_pieces_short {ls : List Bytes} (h : ∀ l ∈ ls, l.length ≤ pieceSize) :
    ls.flatMap pieces = ls := by
  induction ls with
  | nil => rfl
  | cons l ls ih =>
    have hl : pieces l = [l] := by
      rw [pieces, if_neg (Nat.not_lt.mpr (h l (by simp)))]
    rw [List.flatMap_cons, hl, ih fun l' hl' => h l' (by simp [hl']), List.singleton_append]

/-- If the lines arrived whole, none of them was cut. -/
theorem Forwarded.short_of_lines {ctl : LineCtl} {ls : List Bytes} {out : Bytes}
    (h : Forwarded ctl (ls.flatMap pieces) out) (hls : ∀ l ∈ ls, IsLine l)
    (hout : out = ls.flatMap (sinkLine ctl)) {l : Bytes} (hl : l ∈ ls) :
    l.length ≤ pieceSize := by
  by_contra hlong
  -- the zero bytes of what arrived are those of the lines
  have htext : (ls.flatMap pieces).flatten = ls.flatten := by
    rw [List.flatMap, List.flatten_flatten, List.map_map]
    exact congrArg List.flatten ((List.map_congr_left fun l _ => flatten_pieces l).trans
      (List.map_id _))
  have hsame : out.count Bytes.nul = ls.flatten.count Bytes.nul := by
    rw [hout, List.flatMap, List.count_flatten, List.count_flatten, List.map_map]
    refine congrArg List.sum (List.map_congr_left fun l hl => ?_)
    obtain ⟨text, -, rfl⟩ := hls l hl
    exact count_nul_sinkLine ctl (by simp)
  -- the first piece of the long line has no line feed
  have hcut : 0 < (ls.flatMap pieces).countP (Bytes.lf ∉ ·) := by
    refine List.countP_pos_iff.mpr ⟨l.take pieceSize, ?_, ?_⟩
    · refine List.mem_flatMap.mpr ⟨l, hl, ?_⟩
      rw [pieces, if_pos (Nat.not_le.mp hlong)]
      exact List.mem_cons_self
    · simpa using (hls l hl).take (Nat.not_le.mp hlong)
  have hcount := h.count_nul
  rw [htext, hsame] at hcount
  omega

/-! ## The end-of-message test -/

theorem looksLikeEnd_of_lf_not_mem {p : Bytes} (h : Bytes.lf ∉ p) : looksLikeEnd p = false := by
  rw [← Bool.not_eq_true]
  intro hl
  simp only [looksLikeEnd, Bool.or_eq_true, decide_eq_true_eq] at hl
  rcases hl with rfl | rfl <;> exact h (by decide)

/-- On what a read leaves in the buffer, the test of the code is the one on the piece. -/
theorem endOfBody_piece {p tail : Bytes} (hp : Piece p) :
    endOfBody true (p ++ Bytes.nul :: tail) = looksLikeEnd p := by
  rcases hp with ⟨text, htext, rfl⟩ | ⟨hlf, hlen⟩
  · rcases text with _ | ⟨b, _ | ⟨x, _ | ⟨y, text⟩⟩⟩
    · simp [endOfBody, looksLikeEnd, terminator, Bytes.dot, Bytes.lf]
    · simp [endOfBody, emptyLine, looksLikeEnd, terminator, Bytes.crlf, Bytes.cr, Bytes.lf]
    · have hx : x ≠ Bytes.lf := fun h => htext (by simp [h])
      simp [endOfBody, emptyLine, looksLikeEnd, terminator, Bytes.crlf, hx]
    · have hx : x ≠ Bytes.lf := fun h => htext (by simp [h])
      have hy : y ≠ Bytes.lf := fun h => htext (by simp [h])
      simp [endOfBody, emptyLine, looksLikeEnd, terminator, Bytes.crlf, hx, hy]
  · rw [looksLikeEnd_of_lf_not_mem hlf]
    rcases p with _ | ⟨a, _ | ⟨x, _ | ⟨y, _ | ⟨z, p⟩⟩⟩⟩
    iterate 4 simp [pieceSize, bufSize] at hlen
    · have hx : x ≠ Bytes.lf := fun h => hlf (by simp [h])
      have hy : y ≠ Bytes.lf := fun h => hlf (by simp [h])
      simp [endOfBody, emptyLine, hx, hy]

/-! ## One read -/

/-- The settings that the framing is about. -/
structure PlainDelimited (c : BodyCtl) : Prop where
  delimited : c.line.delimited = true
  forward : c.forward = true
  decode : c.decode = false
  accepts : ∀ out, c.accepts out = true

/-- The loop between two reads. -/
structure Between (s : BodyLoop) : Prop where
  off : s.off = 0
  hard : s.issoftline = false
  size : s.mem.length = bufSize

/-- The loop went on with `rest` in the stream, having written `out`. -/
structure WentOn (s s' : BodyLoop) (rest out : Bytes) : Prop where
  between : Between s'
  stream : s'.stream = rest
  out : s'.out = s.out ++ out

theorem store_zero (mem p : Bytes) :
    store mem 0 p = p ++ Bytes.nul :: mem.drop (p.length + 1) := by
  simp [store]

theorem guardBuffer_store {mem p : Bytes} (hlen : p.length ≤ pieceSize) :
    guardBuffer (store mem 0 p) = p ++ Bytes.nul ::
      ((mem.drop (p.length + 1)).take (pieceSize + 1 - p.length) ++
        [Bytes.cr, Bytes.lf, Bytes.nul]) := by
  have hsize : 8193 - p.length = pieceSize + 1 - p.length + 1 := by
    simp only [pieceSize, bufSize] at *
    omega
  have htake : p.take 8193 = p := List.take_of_length_le (by
    simp only [pieceSize, bufSize] at hlen
    omega)
  rw [guardBuffer, store_zero, List.take_append, htake, hsize, List.take_succ_cons]
  simp

theorem length_guardBuffer {mem : Bytes} (hmem : mem.length = bufSize) :
    (guardBuffer mem).length = bufSize := by
  simp [guardBuffer, hmem, bufSize]

/-- A full buffer without a line feed is found up to the guard. -/
theorem huntLine_cut {p : Bytes} {junk : UInt8} (hne : p ≠ []) (hlf : Bytes.lf ∉ p) :
    huntLine (p ++ [Bytes.nul, junk, Bytes.cr, Bytes.lf, Bytes.nul]) =
      p ++ [Bytes.nul, junk, Bytes.cr, Bytes.lf] := by
  obtain ⟨b, p, rfl⟩ := List.exists_cons_of_ne_nil hne
  have hb : b ≠ Bytes.lf := fun h => hlf (by simp [h])
  have hp : Bytes.lf ∉ p := fun h => hlf (by simp [h])
  have hlast : p.getLast?.getD b ≠ Bytes.lf := by
    cases hl : p.getLast? with
    | none => simpa using hb
    | some x =>
      rintro rfl
      exact hp (List.mem_of_getLast? hl)
  have hzero : hunt (p.getLast?.getD b) [Bytes.nul, junk, Bytes.cr, Bytes.lf, Bytes.nul] =
      [Bytes.nul, junk, Bytes.cr, Bytes.lf] := by
    simp only [hunt, hlast, and_false, if_false]
    simp [Bytes.nul, Bytes.lf, Bytes.cr]
  simp only [List.cons_append, huntLine, hunt_text hb hp, hzero]

/-- What `stuffline` writes for the buffer that one read has left. -/
theorem stuffline_piece {ctl : LineCtl} {mem p : Bytes} (hmem : mem.length = bufSize)
    (hp : Piece p) (hlen : p.length ≤ pieceSize) :
    Forwarded ctl [p] (stuffline ctl (guardBuffer (store mem 0 p))).written ∧
      (stuffline ctl (guardBuffer (store mem 0 p))).mem.length = bufSize := by
  have hsize : (guardBuffer (store mem 0 p)).length = bufSize := by
    refine length_guardBuffer ?_
    rw [length_store (by simp only [pieceSize, bufSize] at *; omega), hmem]
  have hwritten : ∀ buf, (stuffline ctl buf).written = sinkLine ctl (huntLine buf) := fun _ => rfl
  -- a whole line, or as much of one as the buffer holds
  rcases hp with hline | ⟨hlf, hfull⟩
  · have hhunt : huntLine (guardBuffer (store mem 0 p)) = p := by
      rw [guardBuffer_store hlen, huntLine_line hline]
    have hne : p ≠ [] := by
      obtain ⟨text, -, rfl⟩ := hline
      simp
    refine ⟨?_, ?_⟩
    · rw [hwritten, hhunt]
      simpa using Forwarded.nil.line hline
    · rw [length_stuffline_mem (by rwa [hhunt]) ?_, hsize]
      have := length_ended ctl hne
      rw [hhunt, hsize]
      simp only [pieceSize, bufSize] at *
      omega
  · obtain ⟨junk, hjunk⟩ : ∃ junk, (mem.drop (p.length + 1)).take (pieceSize + 1 - p.length) =
        [junk] := by
      refine List.length_eq_one_iff.mp ?_
      rw [List.length_take, List.length_drop, hmem, hfull]
      rfl
    have hne : p ≠ [] := by
      rintro rfl
      simp [pieceSize, bufSize] at hfull
    have hhunt : huntLine (guardBuffer (store mem 0 p)) =
        p ++ [Bytes.nul, junk, Bytes.cr, Bytes.lf] := by
      rw [guardBuffer_store hlen, hjunk]
      exact huntLine_cut hne hlf
    refine ⟨?_, ?_⟩
    · rw [hwritten, hhunt]
      simpa using Forwarded.nil.cut junk hlf
    · have hended : ended ctl (p ++ [Bytes.nul, junk, Bytes.cr, Bytes.lf]) =
          p ++ [Bytes.nul, junk, Bytes.cr, Bytes.lf] := by
        unfold ended forceCr
        split
        · simp [List.dropLast_append_of_ne_nil, List.getLast?_append]
        · rfl
      rw [length_stuffline_mem (by simp [hhunt]) ?_, hsize]
      rw [hhunt, hended, hsize, List.length_append, hfull]
      simp [pieceSize, bufSize]

/-- A line that needs no decoding is shipped. -/
theorem shipLine_plain {c : BodyCtl} (hc : PlainDelimited c) {s : BodyLoop}
    (hs : s.issoftline = false) :
    shipLine c (decodeLine c s) = .more
      { s with
        off := 0
        mem := (stuffline c.line (guardBuffer s.mem)).mem
        out := s.out ++ (stuffline c.line (guardBuffer s.mem)).written } := by
  simp [shipLine, decodeLine, rbSend, hc.decode, hc.forward, hc.accepts, hs]

/-- **Step.** One read: the end of the message, or one piece forwarded. -/
theorem readbodyStep_piece {c : BodyCtl} {s : BodyLoop} {p rest : Bytes} (hc : PlainDelimited c)
    (hs : Between s) (hread : readUpTo pieceSize s.stream = some (p, rest)) (hp : Piece p)
    (hlen : p.length ≤ pieceSize) :
    if looksLikeEnd p then
      ∃ s', readbodyStep c s = .endOfMessage s' ∧ s'.stream = rest ∧ s'.issoftline = false ∧
        s'.out = s.out
    else
      ∃ s' out, readbodyStep c s = .more s' ∧ WentOn s s' rest out ∧
        Forwarded c.line [p] out := by
  have hsock : sockRead (bufSize - 4 - s.off) s.stream = some (p, rest) := by
    rw [hs.off]
    exact hread
  have hclip : clipLine c s p = (store s.mem 0 p, (p.length : Int), s.len - p.length) := by
    simp [clipLine, hc.delimited, hs.off]
  have hend : endOfBody c.line.delimited ((store s.mem 0 p).drop s.off) = looksLikeEnd p := by
    rw [hc.delimited, hs.off, List.drop_zero, store_zero, endOfBody_piece hp]
  obtain ⟨hfwd, hmem⟩ := @stuffline_piece c.line _ _ hs.size hp hlen
  simp only [readbodyStep, hsock, hclip, hend]
  cases looksLikeEnd p with
  | true => exact ⟨_, rfl, rfl, hs.hard, rfl⟩
  | false =>
    simp only [Bool.false_eq_true, if_false]
    exact ⟨_, _, shipLine_plain hc hs.hard, ⟨⟨rfl, hs.hard, hmem⟩, rfl, rfl⟩, hfwd⟩

/-! ## One line -/

theorem readUpTo_isLine {l rest : Bytes} (hl : IsLine l) :
    readUpTo pieceSize (l ++ rest) = some (l.take pieceSize, l.drop pieceSize ++ rest) := by
  obtain ⟨text, htext, rfl⟩ := hl
  simpa using readUpTo_line htext

theorem Piece.of_take {l : Bytes} (hl : IsLine l) :
    Piece (l.take pieceSize) ∧ (l.take pieceSize).length ≤ pieceSize := by
  refine ⟨?_, List.length_take_le _ _⟩
  by_cases h : pieceSize < l.length
  · exact .inr ⟨hl.take h, List.length_take_of_le (Nat.le_of_lt h)⟩
  · exact .inl ((List.take_of_length_le (Nat.not_lt.mp h)).symm ▸ hl)

/-- What reading one line does: a clean line is forwarded in its pieces, any other ends the
message. -/
def LineRead (c : BodyCtl) (s : BodyLoop) (l rest : Bytes) : Prop :=
  (Clean l → ∃ s' out, runBody c s = runBody c s' ∧ WentOn s s' rest out ∧
      Forwarded c.line (pieces l) out) ∧
    (¬ Clean l → ∃ s', runBody c s = (.success, s') ∧ s'.stream = rest)

theorem runBody_line {c : BodyCtl} (hc : PlainDelimited c) {l rest : Bytes} (hl : IsLine l)
    {s : BodyLoop} (hs : Between s) (hstream : s.stream = l ++ rest) : LineRead c s l rest := by
  have hread : readUpTo pieceSize s.stream = some (l.take pieceSize, l.drop pieceSize ++ rest) :=
    hstream ▸ readUpTo_isLine hl
  have hstep := readbodyStep_piece hc hs hread (Piece.of_take hl).1 (Piece.of_take hl).2
  have hrun := runBody_step (c := c) s (.inl hc.delimited)
  by_cases hlong : pieceSize < l.length
  · have hlook := looksLikeEnd_of_lf_not_mem (hl.take hlong)
    rw [hlook] at hstep
    obtain ⟨s₁, out₁, hmore, hwent, hfwd⟩ := hstep
    rw [hmore] at hrun
    -- the rest of the line is read like a line of its own
    have ih := runBody_line hc (hl.drop hlong) hwent.between hwent.stream
    refine ⟨fun hclean => ?_, fun hclean => ?_⟩
    · obtain ⟨s₂, out₂, hrun₂, hwent₂, hfwd₂⟩ := ih.1 ((clean_long hlong).mp hclean)
      refine ⟨s₂, out₁ ++ out₂, hrun.trans hrun₂, ⟨hwent₂.between, hwent₂.stream, ?_⟩, ?_⟩
      · rw [hwent₂.out, hwent.out, List.append_assoc]
      · rw [pieces, if_pos hlong]
        exact hfwd.append hfwd₂
    · obtain ⟨s₂, hrun₂, hstream₂⟩ := ih.2 fun h => hclean ((clean_long hlong).mpr h)
      exact ⟨s₂, hrun.trans hrun₂, hstream₂⟩
  · have hshort := Nat.not_lt.mp hlong
    rw [List.take_of_length_le hshort, List.drop_eq_nil_of_le hshort, List.nil_append] at hstep
    refine ⟨fun hclean => ?_, fun hclean => ?_⟩
    · rw [(clean_short hshort).mp hclean] at hstep
      obtain ⟨s₁, out₁, hmore, hwent, hfwd⟩ := hstep
      rw [hmore] at hrun
      refine ⟨s₁, out₁, hrun, hwent, ?_⟩
      rw [pieces, if_neg hlong]
      exact hfwd
    · rw [clean_short hshort, Bool.not_eq_false] at hclean
      rw [hclean] at hstep
      obtain ⟨s₁, hend, hstream₁, hhard, -⟩ := hstep
      rw [hend] at hrun
      refine ⟨s₁, ?_, hstream₁⟩
      simpa [flushLine, hhard] using hrun
termination_by l.length
decreasing_by
  simp only [List.length_drop]
  have : 0 < pieceSize := by decide
  omega

/-! ## The body -/

/-- What reading a body does that stands before a terminator. -/
def BodyRead (c : BodyCtl) (s : BodyLoop) (body rest : Bytes) : Prop :=
  ((∀ l ∈ lfLines body, Clean l) → ∃ s' out, runBody c s = (.success, s') ∧ s'.stream = rest ∧
      s'.out = s.out ++ out ∧ Forwarded c.line ((lfLines body).flatMap pieces) out) ∧
    (¬ (∀ l ∈ lfLines body, Clean l) → ∃ s', runBody c s = (.success, s') ∧
      rest.length < s'.stream.length)

theorem runBody_terminator {c : BodyCtl} (hc : PlainDelimited c) {rest : Bytes} {s : BodyLoop}
    (hs : Between s) (hstream : s.stream = terminator ++ rest) : BodyRead c s [] rest := by
  have hline : IsLine terminator := ⟨[Bytes.dot, Bytes.cr], by decide, rfl⟩
  have hread : readUpTo pieceSize s.stream = some (terminator, rest) := by
    rw [hstream, readUpTo_isLine hline]
    rfl
  obtain ⟨s', hend, hrest, hhard, hout⟩ := readbodyStep_piece hc hs hread (.inl hline) (by decide)
  have hrun := runBody_step (c := c) s (.inl hc.delimited)
  rw [hend] at hrun
  refine ⟨fun _ => ⟨s', [], ?_, hrest, by simp [hout], .nil⟩, fun h => absurd (by simp [lfLines]) h⟩
  simpa [flushLine, hhard] using hrun

/-- **Run.** The whole body, by induction over its lines. -/
theorem runBody_body {c : BodyCtl} (hc : PlainDelimited c) {body rest : Bytes}
    (hbody : Terminated body) {s : BodyLoop} (hs : Between s)
    (hstream : s.stream = body ++ (terminator ++ rest)) : BodyRead c s body rest := by
  refine hbody.rec_lines (fun body => ∀ s, Between s → s.stream = body ++ (terminator ++ rest) →
    BodyRead c s body rest) (fun s hs hstream => runBody_terminator hc hs hstream) ?_ s hs hstream
  intro text body htext _ ih s hs hstream
  have hl : IsLine (text ++ [Bytes.lf]) := ⟨text, htext, rfl⟩
  have hline : LineRead c s (text ++ [Bytes.lf]) (body ++ (terminator ++ rest)) :=
    runBody_line hc hl hs (hstream.trans (by simp))
  rw [BodyRead, lfLines_line_append body htext]
  by_cases hclean : Clean (text ++ [Bytes.lf])
  · obtain ⟨s₁, out₁, hrun₁, hwent, hfwd₁⟩ := hline.1 hclean
    have hih := ih s₁ hwent.between hwent.stream
    simp only [List.forall_mem_cons, hclean, true_and, List.flatMap_cons]
    refine ⟨fun hall => ?_, fun hnot => ?_⟩
    · obtain ⟨s₂, out₂, hrun₂, hrest, hout₂, hfwd₂⟩ := hih.1 hall
      refine ⟨s₂, out₁ ++ out₂, hrun₁.trans hrun₂, hrest, ?_, hfwd₁.append hfwd₂⟩
      rw [hout₂, hwent.out, List.append_assoc]
    · obtain ⟨s₂, hrun₂, hlt⟩ := hih.2 hnot
      exact ⟨s₂, hrun₁.trans hrun₂, hlt⟩
  · obtain ⟨s₁, hrun₁, hrest⟩ := hline.2 hclean
    simp only [List.forall_mem_cons, hclean, false_and, false_implies, not_false_eq_true,
      true_implies, true_and]
    refine ⟨s₁, hrun₁, ?_⟩
    simp only [hrest, List.length_append, terminator, Bytes.crlf, List.length_cons]
    omega

/-- The end of the body was found: `readbody` succeeded and left the stream behind the
terminator. -/
def Ended (rest : Bytes) (r : Ps × BodyLoop) : Prop :=
  r.1 = .success ∧ r.2.stream = rest

/-- The body was framed: its end was found, and every line of it reached the sink whole, as
`stuffline` writes a line. -/
def Framed (c : BodyCtl) (body rest : Bytes) (r : Ps × BodyLoop) : Prop :=
  Ended rest r ∧ r.2.out = (lfLines body).flatMap (sinkLine c.line)

section

variable {c : BodyCtl} {texts : List Bytes} {rest mem : Bytes} {len : Int} {mime : Mime.MimeState}
  {msglen : Int}

theorem readbody_bodyRead (hc : PlainDelimited c) (hmem : mem.length = bufSize) :
    BodyRead c ⟨stuffed texts ++ (terminator ++ rest), mem, 0, false, len, mime, msglen, []⟩
      (stuffed texts) rest :=
  runBody_body hc (terminated_stuffed texts) ⟨rfl, rfl, hmem⟩ rfl

/-- A body of clean lines is read to its end, and its lines are forwarded in their pieces. -/
theorem forwarded_of_clean (rest : Bytes) (len : Int) (mime : Mime.MimeState) (msglen : Int)
    (hc : PlainDelimited c) (hmem : mem.length = bufSize)
    (hclean : ∀ l ∈ lfLines (stuffed texts), Clean l) :
    Ended rest (readbody c (stuffed texts ++ (terminator ++ rest)) mem len mime msglen) ∧
      Forwarded c.line ((lfLines (stuffed texts)).flatMap pieces)
        (readbody c (stuffed texts ++ (terminator ++ rest)) mem len mime msglen).2.out := by
  obtain ⟨s', out, hrun, hrest, hout, hfwd⟩ := (readbody_bodyRead hc hmem).1 hclean
  rw [readbody, hrun]
  refine ⟨⟨rfl, hrest⟩, ?_⟩
  rw [hout]
  exact hfwd

/-- A line that is not clean leaves too much in the stream. -/
theorem not_ended_of_not_clean (hc : PlainDelimited c) (hmem : mem.length = bufSize)
    (hclean : ¬ ∀ l ∈ lfLines (stuffed texts), Clean l) :
    ¬ Ended rest
      (readbody c (stuffed texts ++ (terminator ++ rest)) mem len mime msglen) := by
  obtain ⟨s', hrun, hlt⟩ := (readbody_bodyRead hc hmem).2 hclean
  rw [readbody, hrun]
  rintro ⟨-, hrest⟩
  rw [hrest] at hlt
  exact absurd hlt (Nat.lt_irrefl _)

/-- **The terminator.** The end of a dot-stuffed body is found exactly when no line of it
leaves a piece that looks like the end of the message. -/
theorem readbody_ended_iff (hc : PlainDelimited c) (hmem : mem.length = bufSize) :
    Ended rest (readbody c (stuffed texts ++ (terminator ++ rest)) mem len mime msglen) ↔
      ∀ l ∈ lfLines (stuffed texts), Clean l := by
  constructor
  · intro hended
    by_contra hclean
    exact not_ended_of_not_clean hc hmem hclean hended
  · exact fun hclean => (forwarded_of_clean rest len mime msglen hc hmem hclean).1

/-- For a delimited protocol, a dot-stuffed body is framed exactly when every line of it fits
into what one read delivers, and none is a lone dot. (Stuffing rules out a lone dot, but not
behind a bare line feed inside a line.) -/
theorem readbody_framed_iff (hc : PlainDelimited c) (texts : List Bytes) (rest : Bytes)
    (hmem : mem.length = bufSize) (len : Int) (mime : Mime.MimeState) (msglen : Int) :
    Framed c (stuffed texts) rest
        (readbody c (stuffed texts ++ (terminator ++ rest)) mem len mime msglen) ↔
      ∀ l ∈ lfLines (stuffed texts), l.length ≤ pieceSize ∧ looksLikeEnd l = false := by
  have hlines : ∀ l ∈ lfLines (stuffed texts), IsLine l :=
    fun l hl => (terminated_stuffed texts).isLine_of_mem hl
  constructor
  · rintro ⟨hended, hout⟩ l hl
    have hclean := (readbody_ended_iff hc hmem).mp hended
    have hfwd := (forwarded_of_clean rest len mime msglen hc hmem hclean).2
    -- a piece that was cut off leaves a zero byte in the sink that the body does not have
    have hshort := hfwd.short_of_lines hlines hout hl
    exact ⟨hshort, (clean_short hshort).mp (hclean l hl)⟩
  · intro hall
    have hclean : ∀ l ∈ lfLines (stuffed texts), Clean l :=
      fun l hl => (clean_short (hall l hl).1).mpr (hall l hl).2
    obtain ⟨hended, hfwd⟩ := forwarded_of_clean rest len mime msglen hc hmem hclean
    refine ⟨hended, ?_⟩
    rw [flatMap_pieces_short fun l hl => (hall l hl).1] at hfwd
    exact hfwd.eq_of_lines hlines

end

/-! ## Which lines are clean -/

theorem lfLines_stuffed {texts : List Bytes} (h : ∀ text ∈ texts, Bytes.lf ∉ text) :
    lfLines (stuffed texts) = texts.map fun text => stuff text ++ Bytes.crlf := by
  induction texts with
  | nil => rfl
  | cons text texts ih =>
    have hlf : Bytes.lf ∉ stuff text ++ [Bytes.cr] := by
      have htext := h text (by simp)
      have hcr : Bytes.lf ≠ Bytes.cr := by decide
      have hdot : Bytes.lf ≠ Bytes.dot := by decide
      unfold stuff
      split <;> simp [htext, hcr, hdot]
    have hline := lfLines_line_append (stuffed texts) hlf
    have hcons : stuffed (text :: texts) = (stuff text ++ [Bytes.cr]) ++ Bytes.lf :: stuffed texts := by
      simp [stuffed, Bytes.crlf]
    rw [hcons, hline, ih fun t ht => h t (by simp [ht])]
    simp [Bytes.crlf]

/-- What is left of a line looks like the end exactly if it is its last dot and CRLF. -/
theorem looksLikeEnd_drop {w : Bytes} {n : Nat} :
    looksLikeEnd ((w ++ Bytes.crlf).drop n) = true ↔
      w.length = n + 1 ∧ w.getLast? = some Bytes.dot := by
  simp only [looksLikeEnd, Bool.or_eq_true, decide_eq_true_eq]
  constructor
  · rintro (h | h)
    · have hlen := congrArg List.length h
      simp only [List.length_drop, List.length_append, terminator, Bytes.crlf, List.length_cons,
        List.length_nil] at hlen
      have hn : n ≤ w.length := by omega
      rw [List.drop_append_of_le_length hn] at h
      have hdot : w.drop n = [Bytes.dot] := List.append_cancel_right (by simpa [terminator] using h)
      refine ⟨by omega, ?_⟩
      rw [← List.take_append_drop n w, hdot, List.getLast?_concat]
    · -- a bare line feed cannot be the end of a line that has a CRLF
      have hlast := congrArg (fun l => l.dropLast.getLast?) h
      have hlen := congrArg List.length h
      simp only [List.length_drop, List.length_append, Bytes.crlf, List.length_cons,
        List.length_nil] at hlen
      have hn : n ≤ w.length := by omega
      rw [List.drop_append_of_le_length hn, Bytes.crlf, List.dropLast_append_of_ne_nil (by simp),
        List.dropLast_cons_of_ne_nil (by simp)] at hlast
      simp [Bytes.cr, Bytes.dot] at hlast
  · rintro ⟨hlen, hlast⟩
    -- the last piece of the line is a dot
    obtain ⟨init, hinit⟩ := List.getLast?_eq_some_iff.mp hlast
    left
    have hn : init.length = n := by
      rw [hinit, List.length_append] at hlen
      simpa using hlen
    rw [hinit, List.append_assoc, List.drop_left' hn]
    rfl

/-- A stuffed line ended by CRLF is clean unless its last dot stands alone behind a multiple
of the buffer. -/
theorem clean_iff_length {text : Bytes} :
    Clean (stuff text ++ Bytes.crlf) ↔
      ∀ j, 0 < j → (stuff text).length = pieceSize * j + 1 →
        (stuff text).getLast? ≠ some Bytes.dot := by
  have hfirst : ¬ ((stuff text).length = 1 ∧ (stuff text).getLast? = some Bytes.dot) := by
    rintro ⟨hlen, hlast⟩
    obtain ⟨b, hb⟩ := List.length_eq_one_iff.mp hlen
    unfold stuff at hb
    split at hb
    · simp_all
    · simp_all [stuff]
  unfold Clean
  simp only [← Bool.not_eq_true, looksLikeEnd_drop]
  constructor
  · exact fun h j _ hlen hlast => h j ⟨hlen, hlast⟩
  · intro h j hj
    rcases Nat.eq_zero_or_pos j with rfl | hpos
    · exact hfirst (by simpa using hj)
    · exact h j hpos hj.1 hj.2

/-! ## A line that is not framed -/

/-- A line of text that fills the buffer and has a dot behind. -/
def longText : Bytes := List.replicate pieceSize 97 ++ [Bytes.dot]

/-- A body without MIME, forwarded to an SMTP listener. -/
def plainBody : BodyCtl where
  line := ⟨.socket, true, false, false⟩
  forward := true
  decode := false
  bodyHeader st s := (⟨s, s.length, false⟩, st)
  accepts _ := true

def plainMime : Mime.MimeState := ⟨.data, [], false, false⟩

theorem plainDelimited_plainBody : PlainDelimited plainBody :=
  ⟨rfl, rfl, rfl, fun _ => rfl⟩

/-- A line of text that is cut at the end of the buffer, with two bytes behind the cut. -/
def cutText : Bytes := List.replicate pieceSize 97 ++ Bytes.lit ".b"

theorem longText_not_framed :
    ¬ Framed plainBody (stuffed [longText]) []
        (readbody plainBody (stuffed [longText] ++ (terminator ++ []))
          (List.replicate bufSize 0) 0 plainMime 0) ∧
      ¬ Framed plainBody (stuffed [cutText]) []
        (readbody plainBody (stuffed [cutText] ++ (terminator ++ []))
          (List.replicate bufSize 0) 0 plainMime 0) := by
  have hlong : ∀ tail : Bytes, Bytes.lf ∉ tail → tail ≠ [] →
      ¬ ∀ l ∈ lfLines (stuffed [List.replicate pieceSize 97 ++ tail]),
        l.length ≤ pieceSize ∧ looksLikeEnd l = false := by
    intro tail hlf hne hall
    have hstuff : stuff (List.replicate pieceSize 97 ++ tail) =
        List.replicate pieceSize 97 ++ tail := by
      have hhead : (List.replicate pieceSize (97 : UInt8) ++ tail).head? = some 97 := rfl
      rw [stuff, hhead]
      rfl
    rw [lfLines_stuffed (by simpa [Bytes.lf] using hlf), List.map_singleton, hstuff] at hall
    have hshort := (hall _ (List.mem_singleton_self _)).1
    have hpos := List.length_pos_iff.mpr hne
    simp only [List.length_append, List.length_replicate] at hshort
    omega
  have hmem : (List.replicate bufSize (0 : UInt8)).length = bufSize := List.length_replicate
  have hframed := fun tail => readbody_framed_iff plainDelimited_plainBody
    [List.replicate pieceSize 97 ++ tail] [] hmem 0 plainMime 0
  refine ⟨fun h => ?_, fun h => ?_⟩
  · exact hlong [Bytes.dot] (by decide) (by simp) ((hframed [Bytes.dot]).mp h)
  · exact hlong (Bytes.lit ".b") (by decide) (by decide) ((hframed (Bytes.lit ".b")).mp h)

/-- Four lines, one of them stuffed and one empty. -/
theorem readbody_framed_iff_short :
    Framed plainBody (stuffed [Bytes.lit "hi", Bytes.lit ".", [], Bytes.lit "bye."]) (Bytes.lit "+OK")
        (readbody plainBody (stuffed [Bytes.lit "hi", Bytes.lit ".", [], Bytes.lit "bye."] ++
          (terminator ++ Bytes.lit "+OK")) (List.replicate bufSize 0) 0 plainMime 0) ↔
      ∀ l ∈ lfLines (stuffed [Bytes.lit "hi", Bytes.lit ".", [], Bytes.lit "bye."]),
        l.length ≤ pieceSize ∧ looksLikeEnd l = false :=
  readbody_framed_iff plainDelimited_plainBody _ _ (by simp) _ _ _

end Fetchmail.Transact
