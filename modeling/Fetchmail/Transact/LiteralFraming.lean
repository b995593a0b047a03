import Fetchmail.Transact.BodyFraming
import Fetchmail.Transact.LiteralHeaders

/-!
# Framing of Body Literals

The loop of `readbody` counts down the length of a literal. The line in which the literal
ends is cut off there, and gets a line end. Here nothing is left to the contents of the
literal, with one exception: an unfinished last line that just fills the buffer is not cut
off, and so gets no line end.

Together with the headers: an IMAP exchange is framed by the lengths of its literals, if and
only if the header literal is framed and the sink takes the lines of the body, the last of
which does not fill the buffer.
-/

namespace Fetchmail.Transact

open Fetchmail.Lib
open Fetchmail.Sink

/-! ## What is forwarded -/

/-- A text with a line end, if it has none. -/
def closeText (b : Bytes) : Bytes :=
  if b = [] ∨ b.getLast? = some Bytes.lf then b else b ++ Bytes.crlf

/-- What goes to the sink for some lines. -/
def forwardedLines (ctl : LineCtl) (ls : List Bytes) : Bytes := ls.flatMap (sinkLine ctl)

/-- `readbody` for a protocol with lengths that forwards a body as it is; only bodies that
are to be forwarded are fetched separately. -/
structure PlainLiteral (c : BodyCtl) : Prop where
  delimited : c.line.delimited = false
  forward : c.forward = true
  decode : c.decode = false

/-- The sink takes the lines one by one. -/
def Takes (c : BodyCtl) (out : Bytes) (ls : List Bytes) : Prop :=
  ∀ done, done <+: ls → done ≠ [] → c.accepts (out ++ forwardedLines c.line done) = true

theorem takes_cons {c : BodyCtl} {out l : Bytes} {ls : List Bytes} :
    Takes c out (l :: ls) ↔ c.accepts (out ++ sinkLine c.line l) = true ∧
      Takes c (out ++ sinkLine c.line l) ls := by
  constructor
  · intro h
    refine ⟨?_, fun done hdone hne => ?_⟩
    · simpa [forwardedLines] using h [l] (by simp) (by simp)
    · have := h (l :: done) ((List.cons_prefix_cons).mpr ⟨rfl, hdone⟩) (by simp)
      simpa [forwardedLines] using this
  · rintro ⟨hl, hls⟩ done hdone hne
    cases done with
    | nil => exact absurd rfl hne
    | cons l' done =>
      obtain ⟨rfl, hrest⟩ := List.cons_prefix_cons.mp hdone
      cases done with
      | nil => simpa [forwardedLines] using hl
      | cons l'' done =>
        have := hls (l'' :: done) hrest (by simp)
        simpa [forwardedLines] using this

/-- The last line, where it has no line feed, does not fill the buffer. -/
def NoFullEnd (b : Bytes) : Prop := ∀ l ∈ (lfLines b).getLast?, Bytes.lf ∉ l → l.length < pieceSize

/-! ## One read -/

/-- The buffer behind a line, and its guard. -/
theorem guardBuffer_line {p tail : Bytes} (hlen : p.length ≤ 8192) :
    guardBuffer (p ++ Bytes.nul :: tail) =
      p ++ Bytes.nul :: (tail.take (8192 - p.length) ++ [Bytes.cr, Bytes.lf, Bytes.nul]) := by
  have htake : p.take 8193 = p := List.take_of_length_le (by omega)
  have hsize : 8193 - p.length = 8192 - p.length + 1 := by omega
  rw [guardBuffer, List.take_append, htake, hsize, List.take_succ_cons]
  simp

/-- A line that lies in the buffer is handed to the sink. -/
theorem shipLine_line {c : BodyCtl} (hc : PlainLiteral c) {s : BodyLoop} {p tail : Bytes}
    (hs : s.issoftline = false) (hp : IsLine p) (hlen : p.length ≤ 8192)
    (hmem : s.mem = p ++ Bytes.nul :: tail) (hsize : s.mem.length = bufSize) :
    if c.accepts (s.out ++ sinkLine c.line p) = true then
      ∃ s', shipLine c (decodeLine c s) = .more s' ∧ Between s' ∧ s'.stream = s.stream ∧
        s'.len = s.len ∧ s'.out = s.out ++ sinkLine c.line p
    else ∃ s', shipLine c (decodeLine c s) = .leave .ioerr s' := by
  have hne : p ≠ [] := by
    obtain ⟨text, -, rfl⟩ := hp
    simp
  have hhunt : huntLine (guardBuffer s.mem) = p := by
    rw [hmem, guardBuffer_line hlen, huntLine_line hp]
  have hwritten : (stuffline c.line (guardBuffer s.mem)).written = sinkLine c.line p :=
    congrArg (sinkLine c.line) hhunt
  have hmem' : (stuffline c.line (guardBuffer s.mem)).mem.length = bufSize := by
    have hguard := length_guardBuffer hsize
    have hended := length_ended c.line hne
    rw [length_stuffline_mem (by rwa [hhunt]) (by rw [hhunt, hguard, bufSize]; omega), hguard]
  have hdecode : decodeLine c s = s := by simp [decodeLine, hc.decode]
  rw [hdecode]
  simp only [shipLine, rbSend, hc.forward, hs, Bool.false_eq_true, not_false_eq_true, and_self,
    if_true, hwritten]
  split
  · exact ⟨_, rfl, ⟨rfl, rfl, hmem'⟩, rfl, rfl, rfl⟩
  · exact ⟨_, rfl⟩

/-! ## The loop -/

section

variable (c : BodyCtl) (e : LiteralExchange)

/-- The lines of a text as they are forwarded. -/
def closedLines (b : Bytes) : List Bytes := lfLines (closeText b)

/-- The loop ends well: it has read to the end of the literal, and forwarded `b`. -/
def EndsWell (s : BodyLoop) (b : Bytes) : Prop :=
  ∃ s', runBody c s = (.success, s') ∧ e.ReadTo s'.stream ∧
    s'.out = s.out ++ forwardedLines c.line (closedLines b)

theorem closedLines_line {text : Bytes} (rest : Bytes) (htext : Bytes.lf ∉ text) :
    closedLines (text ++ Bytes.lf :: rest) = (text ++ [Bytes.lf]) :: closedLines rest := by
  unfold closedLines closeText
  cases rest with
  | nil => simp [lfLines_line_append [] htext]
  | cons b rest =>
    have hlast : (text ++ Bytes.lf :: b :: rest).getLast? = (b :: rest).getLast? := by
      rw [List.append_cons, List.getLast?_append]
      simp [List.getLast?_cons]
    rw [hlast]
    by_cases hend : (b :: rest).getLast? = some Bytes.lf
    · rw [if_pos (.inr hend), if_pos (.inr hend), lfLines_line_append _ htext]
    · rw [if_neg (by simp [hend]), if_neg (by simp [hend]), List.append_assoc, List.cons_append,
        lfLines_line_append _ htext]

theorem closedLines_unfinished {text : Bytes} (hne : text ≠ []) (htext : Bytes.lf ∉ text) :
    closedLines text = [text ++ Bytes.crlf] := by
  have hlast : text.getLast? ≠ some Bytes.lf := fun h => htext (List.mem_of_getLast? h)
  have hsplit : text ++ Bytes.crlf = (text ++ [Bytes.cr]) ++ Bytes.lf :: [] := by simp [Bytes.crlf]
  rw [closedLines, closeText, if_neg (by simp [hne, hlast]), hsplit,
    lfLines_line_append [] (by simpa [htext] using (by decide : Bytes.lf ≠ Bytes.cr))]
  simp [lfLines]

theorem noFullEnd_line {text : Bytes} (rest : Bytes) (htext : Bytes.lf ∉ text) :
    NoFullEnd (text ++ Bytes.lf :: rest) ↔ NoFullEnd rest := by
  unfold NoFullEnd
  rw [lfLines_line_append rest htext]
  cases hrest : lfLines rest with
  | nil => simp
  | cons l ls => rw [List.getLast?_cons_cons]

/-- A full buffer without a line end is not forwarded as it should be. -/
theorem sinkLine_full_ne (ctl : LineCtl) (hdelimited : ctl.delimited = false) {p : Bytes}
    (hne : p ≠ []) (junk : UInt8) :
    sinkLine ctl (p ++ [Bytes.nul, junk, Bytes.cr, Bytes.lf]) ≠ sinkLine ctl (p ++ Bytes.crlf) := by
  have hended : ∀ q : Bytes, ended ctl (q ++ [Bytes.cr, Bytes.lf]) = q ++ [Bytes.cr, Bytes.lf] := by
    intro q
    unfold ended forceCr
    split
    · simp [List.dropLast_append_of_ne_nil, List.getLast?_append]
    · rfl
  have hsplit : p ++ [Bytes.nul, junk, Bytes.cr, Bytes.lf] =
      (p ++ [Bytes.nul, junk]) ++ [Bytes.cr, Bytes.lf] := by simp
  -- the zero byte is neither dropped nor added
  have hnuls : ∀ q : Bytes, (stripCr ctl q).count Bytes.nul = q.count Bytes.nul := by
    intro q
    unfold stripCr
    split
    · rw [List.count_filter (by decide)]
    · rfl
  intro heq
  have hcount := congrArg (List.count Bytes.nul) heq
  have hskipped : ∀ q : Bytes, skipped ctl q = 0 := fun q => by simp [skipped, hdelimited]
  have hhead : ∀ q : Bytes, stuffing ctl (p ++ q) = stuffing ctl p := by
    intro q
    obtain ⟨b, p, rfl⟩ := List.exists_cons_of_ne_nil hne
    rfl
  rw [hsplit] at hcount
  simp only [sinkLine, Bytes.crlf, hended, hskipped, List.drop_zero, List.count_append, hnuls] at hcount
  rw [List.append_assoc, hhead, hhead] at hcount
  simp [Bytes.nul, Bytes.cr, Bytes.lf] at hcount

/-! ### One iteration -/

/-- Nothing remains of the literal. -/
theorem runBody_done (hc : PlainLiteral c) {s : BodyLoop} (hs : s.issoftline = false)
    (hlen : s.len = 0) : runBody c s = (.success, s) := by
  have hdone : ¬ (c.line.delimited = true ∨ 0 < s.len) := by simp [hc.delimited, hlen]
  have hflush : flushLine c s = (.success, s) := by simp [flushLine, hs]
  unfold runBody
  cases s.stream.length <;> rw [readbodyLoop, if_neg hdone, hflush]

/-- What an iteration does with the line that it reads. -/
theorem runBody_read (hc : PlainLiteral c) {s : BodyLoop} (hs : Between s) (hlen : 0 < s.len)
    {chunk rest : Bytes} (hread : readUpTo pieceSize s.stream = some (chunk, rest)) :
    runBody c s =
      match shipLine c (decodeLine c { s with
          stream := rest, mem := (clipLine c s chunk).1, len := (clipLine c s chunk).2.2
          msglen := s.msglen + (clipLine c s chunk).2.1 }) with
      | .more s' => runBody c s'
      | .endOfMessage s' => flushLine c s'
      | .leave err s' => (err, s') := by
  have hsock : sockRead (bufSize - 4 - s.off) s.stream = some (chunk, rest) := by
    rw [hs.off]
    exact hread
  have hend : ∀ mem, endOfBody false mem = false := fun _ => rfl
  have hstep : readbodyStep c s = shipLine c (decodeLine c { s with
      stream := rest, mem := (clipLine c s chunk).1, len := (clipLine c s chunk).2.2
      msglen := s.msglen + (clipLine c s chunk).2.1 }) := by
    rw [readbodyStep, hsock]
    simp only [hend, hc.delimited, Bool.false_eq_true, false_and, if_false, Int.sub_zero]
  have hrun := runBody_step (c := c) s (.inr hlen)
  rw [hstep] at hrun
  refine hrun.trans ?_
  cases shipLine c (decodeLine c _) <;> rfl

/-- An iteration that hands a line to the sink ends well if the sink takes it and the rest
ends well. -/
theorem endsWell_ship (hc : PlainLiteral c) {s : BodyLoop} (hs : Between s) (hlen : 0 < s.len)
    {chunk rest p tail : Bytes} (hread : readUpTo pieceSize s.stream = some (chunk, rest))
    (hp : IsLine p) (hp' : p.length ≤ 8192)
    (hmem : (clipLine c s chunk).1 = p ++ Bytes.nul :: tail)
    (hsize : (clipLine c s chunk).1.length = bufSize) :
    if c.accepts (s.out ++ sinkLine c.line p) = true then
      ∃ s', runBody c s = runBody c s' ∧ Between s' ∧ s'.stream = rest ∧
        s'.len = (clipLine c s chunk).2.2 ∧ s'.out = s.out ++ sinkLine c.line p
    else ∃ s', runBody c s = (.ioerr, s') := by
  have hrun := runBody_read c hc hs hlen hread
  have hship := @shipLine_line c hc { s with
    stream := rest, mem := (clipLine c s chunk).1, len := (clipLine c s chunk).2.2
    msglen := s.msglen + (clipLine c s chunk).2.1 } p tail hs.hard hp hp' hmem hsize
  by_cases haccepts : c.accepts (s.out ++ sinkLine c.line p) = true
  · rw [if_pos haccepts] at hship ⊢
    obtain ⟨s', hmore, hbetween, hstream, hlen', hout⟩ := hship
    rw [hmore] at hrun
    exact ⟨s', hrun, hbetween, hstream, hlen', hout⟩
  · rw [if_neg haccepts] at hship ⊢
    obtain ⟨s', hleave⟩ := hship
    rw [hleave] at hrun
    exact ⟨s', hrun⟩

theorem not_endsWell_ioerr {s s' : BodyLoop} {b : Bytes} (h : runBody c s = (.ioerr, s')) :
    ¬ EndsWell c e s b := by
  rintro ⟨s'', hrun, -⟩
  rw [h] at hrun
  cases hrun

/-! ### The last line -/

/-- A line that ends the literal without a line feed is read with what the server puts behind
it on the line, as far as that fits into the buffer. -/
theorem readUpTo_unfinished {text : Bytes} (htext : Bytes.lf ∉ text) (hlen : text.length ≤ pieceSize) :
    readUpTo pieceSize (text ++ (e.trail ++ e.completion)) =
      some (text ++ e.trail.take (pieceSize - text.length),
        e.trail.drop (pieceSize - text.length) ++ e.completion) := by
  obtain ⟨t, ht, htrail⟩ := e.trail_line
  have hstream : text ++ (e.trail ++ e.completion) =
      (text ++ t) ++ Bytes.lf :: e.completion := by simp [htrail]
  have hline : text ++ t ++ [Bytes.lf] = text ++ e.trail := by simp [htrail]
  have htake : text.take pieceSize = text := List.take_of_length_le hlen
  have hdrop : text.drop pieceSize = [] := List.drop_eq_nil_of_le hlen
  rw [hstream, readUpTo_line (by simp [htext, ht]), hline, List.take_append, List.drop_append,
    htake, hdrop, List.nil_append]

/-- The line is cut off at the end of the literal. -/
theorem clipLine_unfinished (hc : PlainLiteral c) {s : BodyLoop} (hs : Between s)
    {text more : Bytes} (hlen : s.len = text.length) (hmore : more ≠ [])
    (hsize : text.length + more.length ≤ pieceSize) :
    (∃ tail, (clipLine c s (text ++ more)).1 = (text ++ Bytes.crlf) ++ Bytes.nul :: tail) ∧
      (clipLine c s (text ++ more)).1.length = bufSize ∧
      (clipLine c s (text ++ more)).2.2 = 0 := by
  have hpos := List.length_pos_iff.mpr hmore
  have hclip : clipLine c s (text ++ more) =
      (store (store s.mem 0 (text ++ more)) text.length Bytes.crlf, s.len + 2, 0) := by
    have hlt : s.len < (text ++ more).length := by
      rw [List.length_append]
      omega
    simp only [clipLine]
    rw [if_pos ⟨hc.delimited, hlt⟩, hs.off, hlen, Int.toNat_natCast, Nat.zero_add]
  have hpiece : pieceSize = 8191 := rfl
  have hbuf : bufSize = 8196 := rfl
  have hstored : (store s.mem 0 (text ++ more)).length = bufSize := by
    rw [length_store (by rw [hs.size, List.length_append]; omega), hs.size]
  rw [hclip]
  refine ⟨⟨(store s.mem 0 (text ++ more)).drop (text.length + Bytes.crlf.length + 1), ?_⟩, ?_, rfl⟩
  · have htake : (store s.mem 0 (text ++ more)).take text.length = text := by
      rw [store_zero, List.append_assoc, List.take_left' rfl]
    rw [store, htake]
  · have hcrlf : Bytes.crlf.length = 2 := rfl
    rw [length_store (by rw [hstored, hcrlf]; omega), hstored]

/-- The literal ends without a line feed. -/
theorem endsWell_unfinished (hc : PlainLiteral c) {text : Bytes} (hne : text ≠ [])
    (hlf : Bytes.lf ∉ text) (hsize : text.length ≤ pieceSize) {s : BodyLoop} (hs : Between s)
    (hstream : s.stream = text ++ (e.trail ++ e.completion)) (hlen : s.len = text.length) :
    EndsWell c e s text ↔ Takes c s.out (closedLines text) ∧ NoFullEnd text := by
  have hpiece : pieceSize = 8191 := rfl
  have hbuf : bufSize = 8196 := rfl
  have hcrlf : Bytes.crlf.length = 2 := rfl
  have hpos := List.length_pos_iff.mpr hne
  have hleft : 0 < s.len := by omega
  have hfull : NoFullEnd text ↔ text.length < pieceSize := by
    simp [NoFullEnd, lfLines_unfinished hne hlf, hlf]
  have htakes : Takes c s.out (closedLines text) ↔
      c.accepts (s.out ++ sinkLine c.line (text ++ Bytes.crlf)) = true := by
    rw [closedLines_unfinished hne hlf, takes_cons]
    refine and_iff_left fun done hdone hne' => ?_
    exact absurd (List.prefix_nil.mp hdone) hne'
  have hread := hstream ▸ readUpTo_unfinished e hlf hsize
  rw [htakes, hfull]
  by_cases hroom : text.length < pieceSize
  · -- the line is cut off
    have htrailPos : 0 < e.trail.length := by
      obtain ⟨t, -, htrail⟩ := e.trail_line
      simp [htrail]
    have hmore : e.trail.take (pieceSize - text.length) ≠ [] := by
      rw [← List.length_pos_iff, List.length_take]
      omega
    obtain ⟨⟨tail, hmem⟩, hmemlen, hzero⟩ := clipLine_unfinished c hc hs hlen hmore
      (by rw [List.length_take]; omega)
    have hline : IsLine (text ++ Bytes.crlf) := by
      refine ⟨text ++ [Bytes.cr], ?_, by simp [Bytes.crlf]⟩
      simpa [hlf] using (by decide : Bytes.lf ≠ Bytes.cr)
    -- what is read of the trailer is clipped off, and the line is ended
    have hship := endsWell_ship c hc hs hleft hread hline
      (by rw [List.length_append, hcrlf]; omega) hmem hmemlen
    by_cases haccepts : c.accepts (s.out ++ sinkLine c.line (text ++ Bytes.crlf)) = true
    · rw [if_pos haccepts] at hship
      obtain ⟨s', hrun, hbetween, hstream', hlen', hout⟩ := hship
      rw [hzero] at hlen'
      have hends : EndsWell c e s text := by
        refine ⟨s', hrun.trans (runBody_done c hc hbetween.hard hlen'), ?_, ?_⟩
        · rw [hstream']
          exact ⟨_, List.drop_suffix _ _, rfl⟩
        · rw [hout, closedLines_unfinished hne hlf]
          simp [forwardedLines]
      simp [hends, haccepts, hroom]
    · rw [if_neg haccepts] at hship
      obtain ⟨s', hrun⟩ := hship
      simp [haccepts, not_endsWell_ioerr c e hrun]
  · -- the line fills the buffer, and is not
    have hlen' : text.length = pieceSize := by omega
    have hchunk : text ++ e.trail.take (pieceSize - text.length) = text := by simp [hlen']
    rw [hchunk] at hread
    have hclip : clipLine c s text = (store s.mem 0 text, (text.length : Int), 0) := by
      have hnot : ¬ (c.line.delimited = false ∧ s.len < text.length) := by
        rw [hlen]
        omega
      simp only [clipLine]
      rw [if_neg hnot, hs.off, hlen, Int.sub_self]
    obtain ⟨hfwd, hmem⟩ := @stuffline_piece c.line _ _ hs.size (.inr ⟨hlf, hlen'⟩) hsize
    -- the guard at the end of the buffer is written as well
    obtain ⟨junk, hwritten⟩ : ∃ junk, (stuffline c.line (guardBuffer (store s.mem 0 text))).written =
        sinkLine c.line (text ++ [Bytes.nul, junk, Bytes.cr, Bytes.lf]) := by
      generalize (stuffline c.line (guardBuffer (store s.mem 0 text))).written = written at hfwd
      cases hfwd with
      | line hline _ =>
        obtain ⟨t, -, rfl⟩ := hline
        simp at hlf
      | cut junk _ hnil =>
        cases hnil
        exact ⟨junk, List.append_nil _⟩
    have hnot : ¬ EndsWell c e s text := by
      rintro ⟨s', hrun, -, hout⟩
      rw [runBody_read c hc hs hleft hread, hclip] at hrun
      simp only [shipLine, decodeLine, rbSend, hc.decode, hc.forward, hs.hard, Bool.false_eq_true,
        if_false, not_false_eq_true, and_self, if_true, hwritten] at hrun
      by_cases haccepts : c.accepts
          (s.out ++ sinkLine c.line (text ++ [Bytes.nul, junk, Bytes.cr, Bytes.lf])) = true
      · simp only [haccepts, if_true] at hrun
        rw [runBody_done c hc rfl rfl] at hrun
        cases hrun
        rw [closedLines_unfinished hne hlf] at hout
        simp only [forwardedLines, List.flatMap_cons, List.flatMap_nil, List.append_nil,
          List.append_cancel_left_eq] at hout
        exact sinkLine_full_ne c.line hc.delimited hne junk hout
      · simp [haccepts] at hrun
    simp [hnot, hroom]

/-! ### The literal -/

/-- **Run.** What is left of the literal is read and forwarded well, if and only if the sink
takes it and its last line does not fill the buffer. -/
theorem endsWell_iff (hc : PlainLiteral c) {todo : Bytes}
    (hshort : ∀ l ∈ lfLines todo, l.length < 8192) {s : BodyLoop} (hs : Between s)
    (hstream : s.stream = todo ++ (e.trail ++ e.completion)) (hlen : s.len = todo.length) :
    EndsWell c e s todo ↔ Takes c s.out (closedLines todo) ∧ NoFullEnd todo := by
  induction hn : todo.length using Nat.strong_induction_on generalizing todo s with
  | _ n ih =>
    have hpiece : pieceSize = 8191 := rfl
    have hbuf : bufSize = 8196 := rfl
    by_cases hnil : todo = []
    · -- nothing is left
      subst hnil
      have hrun := runBody_done c hc hs.hard (by simpa using hlen)
      have htakes : Takes c s.out (closedLines []) := by
        rintro done hdone hne
        exact absurd (List.prefix_nil.mp hdone) hne
      refine ⟨fun _ => ⟨htakes, by simp [NoFullEnd, lfLines]⟩, fun _ => ⟨s, hrun, ?_, ?_⟩⟩
      · rw [hstream]
        exact readTo_trail e
      · simp [closedLines, closeText, lfLines, forwardedLines]
    have hpos := List.length_pos_iff.mpr hnil
    have hleft : 0 < s.len := by omega
    by_cases hlf : Bytes.lf ∈ todo
    · -- a whole line
      obtain ⟨text, rest, htext, rfl⟩ := exists_line_append hlf
      rw [lfLines_line_append rest htext] at hshort
      have hlength : (text ++ Bytes.lf :: rest).length = (text ++ [Bytes.lf]).length + rest.length := by
        rw [List.append_cons, List.length_append]
      have hline : (text ++ [Bytes.lf]).length ≤ pieceSize := by
        have := hshort _ List.mem_cons_self
        omega
      have hread : readUpTo pieceSize s.stream =
          some (text ++ [Bytes.lf], rest ++ (e.trail ++ e.completion)) := by
        rw [hstream, List.append_assoc, List.cons_append, readUpTo_line htext,
          List.take_of_length_le hline, List.drop_eq_nil_of_le hline, List.nil_append]
      have hclip : clipLine c s (text ++ [Bytes.lf]) = (store s.mem 0 (text ++ [Bytes.lf]),
          ((text ++ [Bytes.lf]).length : Int), s.len - (text ++ [Bytes.lf]).length) := by
        have hnot : ¬ (c.line.delimited = false ∧ s.len < (text ++ [Bytes.lf]).length) := by
          rw [hlen, hlength]
          omega
        simp only [clipLine]
        rw [if_neg hnot, hs.off]
      have hship := @endsWell_ship c hc s hs hleft _ _ (text ++ [Bytes.lf])
        (s.mem.drop ((text ++ [Bytes.lf]).length + 1)) hread ⟨text, htext, rfl⟩ (by omega)
        (by rw [hclip, store_zero]) (by rw [hclip, length_store (by rw [hs.size]; omega), hs.size])
      rw [closedLines_line rest htext, takes_cons, noFullEnd_line rest htext]
      by_cases haccepts : c.accepts (s.out ++ sinkLine c.line (text ++ [Bytes.lf])) = true
      · rw [if_pos haccepts] at hship
        obtain ⟨s', hrun, hbetween, hstream', hlen', hout⟩ := hship
        have hleft' : s'.len = rest.length := by
          rw [hlen', hclip, hlen, hlength]
          push_cast
          omega
        have hrec := ih rest.length (by rw [← hn, List.length_append, List.length_cons]; omega)
          (fun l hl => hshort l (List.mem_cons_of_mem _ hl)) hbetween hstream' hleft' rfl
        rw [hout] at hrec
        -- the line is taken, and the rest is a literal of its own
        have hends : EndsWell c e s (text ++ Bytes.lf :: rest) ↔ EndsWell c e s' rest := by
          unfold EndsWell
          rw [hrun, closedLines_line rest htext, hout]
          simp only [forwardedLines, List.flatMap_cons, List.append_assoc]
        rw [hends, hrec]
        simp [haccepts]
      · rw [if_neg haccepts] at hship
        obtain ⟨s', hrun⟩ := hship
        simp [haccepts, not_endsWell_ioerr c e hrun]
    · rw [lfLines_unfinished hnil hlf] at hshort
      have := hshort todo List.mem_cons_self
      exact endsWell_unfinished c e hc hnil hlf (by omega) hs hstream hlen

end

/-! ## An exchange -/

/-- The headers and the body of a message are fetched as literals: nothing but their lengths
says how far is read, and the body is forwarded as it is, with a line end if it has none. -/
structure LengthFramed (c : HeaderCtl) (d : BodyCtl) (h b : LiteralExchange) (mem : Bytes)
    (mime : Mime.MimeState) (msglen : Int) : Prop where
  headers : ∃ rest, headersLeft c h.sent h.literal.length = some rest ∧ h.ReadTo rest
  body : ∃ s, readbody d b.sent mem b.literal.length mime msglen = (.success, s) ∧
    b.ReadTo s.stream ∧ s.out = forwardedLines d.line (closedLines b.literal)

/-- IMAP literals are framed by their lengths, if and only if no line of the header literal
but the last looks empty, its zero bytes do not outrun the response line, the sink takes the
body, and the body does not end in a line that fills the buffer. -/
theorem lengthFramed_iff {c : HeaderCtl} {d : BodyCtl} {h b : LiteralExchange} {mem : Bytes}
    {mime : Mime.MimeState} {msglen : Int} (hc : c.line.delimited = false) (hd : PlainLiteral d)
    (hshort : ∀ l ∈ lfLines b.literal, l.length < 8192) (hmem : mem.length = bufSize) :
    LengthFramed c d h b mem mime msglen ↔
      HeadersFramed h ∧ Takes d [] (closedLines b.literal) ∧ NoFullEnd b.literal := by
  have hheaders := headersLeft_iff h hc
  have hbody := @endsWell_iff d b hd b.literal hshort
    ⟨b.sent, mem, 0, false, b.literal.length, mime, msglen, []⟩ ⟨rfl, rfl, hmem⟩ rfl rfl
  constructor
  · rintro ⟨hleft, hends⟩
    exact ⟨hheaders.mp hleft, hbody.mp hends⟩
  · rintro ⟨hframed, htakes⟩
    exact ⟨hheaders.mpr hframed, hbody.mpr htakes⟩

/-! ## A line that looks empty -/

/-- A literal and what comes behind it. -/
def fetched (literal : Bytes) : LiteralExchange where
  literal := literal
  trail := Bytes.lit ")\r\n"
  completion := Bytes.lit "a0006 OK\r\n"
  trail_line := ⟨Bytes.lit ")\r", by decide, rfl⟩
  trail_plain := by decide
  trail_text := ⟨41, by decide, by decide, by decide⟩
  completion_begins := ⟨97, Bytes.lit "0006 OK\r\n", rfl, by decide, by decide⟩

/-- Bodies that are forwarded to an SMTP listener. -/
def literalBody : BodyCtl where
  line := ⟨.socket, false, false, false⟩
  forward := true
  decode := false
  bodyHeader st s := (⟨s, s.length, false⟩, st)
  accepts _ := true

/-- An empty buffer. -/
def zeroBuffer : Bytes := List.replicate bufSize 0

/-- Headers with a line of a single carriage return, and one that looks like a completion. -/
def smuggled : Bytes := Bytes.lit "A: b\r\n\r\r\na0006 OK\r\n\r\n"

/-- The completion that is part of the headers is left to be read as one of the server's. -/
theorem smuggled_not_framed :
    ¬ LengthFramed plainHeaders literalBody (fetched smuggled) (fetched []) zeroBuffer
      ⟨.data, [], false, false⟩ 0 := by
  rintro ⟨hheaders, -⟩
  have hframed := (headersLeft_iff (fetched smuggled) rfl).mp hheaders
  exact absurd hframed.inner (by decide)

theorem lengthFramed_hi :
    LengthFramed plainHeaders literalBody (fetched (Bytes.lit "A: b\r\n\r\n"))
      (fetched (Bytes.lit "hi")) zeroBuffer ⟨.data, [], false, false⟩ 0 := by
  refine (lengthFramed_iff rfl ⟨rfl, rfl, rfl⟩ (by decide) List.length_replicate).mpr
    ⟨⟨by decide, .inl (by decide)⟩, fun _ _ _ => rfl, ?_⟩
  unfold NoFullEnd
  decide

end Fetchmail.Transact
