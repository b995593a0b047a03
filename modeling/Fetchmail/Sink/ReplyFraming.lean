import Fetchmail.Lib.Lines
import Fetchmail.Sink.Smtp
import Fetchmail.Transact.Socket

/-!
# Framing of SMTP Replies

A reply of the listener is any number of lines `ddd-text` and a last line `ddd text`, or
`ddd` alone. `SMTP_ok` and the loop of `SMTP_ehlo` each take exactly one reply off the
stream, whatever follows it, so neither leaves the dialogue out of step. They judge it by
the class of its last line with one exception: `SMTP_ehlo` has no use for a line of less
than four characters, and takes a last line of a bare positive code for an error.
-/

namespace Fetchmail.Sink

open Fetchmail.Lib
open Fetchmail.Transact

/-! ## Well-formed replies -/

/-- `ddd` -/
def IsCode (code : Bytes) : Prop := code.length = 3 ∧ ∀ b ∈ code, Bytes.isdigit b = true

/-- `ddd-text` with its line end, short enough for the buffer. -/
def ContinuationLine (line : Bytes) : Prop :=
  ∃ code text lineEnd, IsCode code ∧ Bytes.lf ∉ text ∧ LineEnd lineEnd ∧
    line = code ++ Bytes.dash :: text ++ lineEnd ∧ line.length < msgbufsize - 2

/-- `ddd text` or `ddd`, likewise. -/
def FinalLine (line : Bytes) : Prop :=
  ∃ code text lineEnd, IsCode code ∧ Bytes.lf ∉ text ∧ LineEnd lineEnd ∧
    (text = [] ∨ ∃ text', text = Bytes.space :: text') ∧
    line = code ++ text ++ lineEnd ∧ line.length < msgbufsize - 2

/-- A reply as the listener sends it. -/
structure ListenerReply where
  continued : List Bytes
  last : Bytes
  continued_wf : ∀ line ∈ continued, ContinuationLine line
  last_wf : FinalLine last

namespace ListenerReply

/-- The octets of a reply. -/
def bytes (r : ListenerReply) : Bytes := (r.continued ++ [r.last]).flatten

/-- The class of the code is 1, 2 or 3. -/
def positive (r : ListenerReply) : Bool := Bytes.charAt r.last 0 ∈ [49, 50, 51]

/-- The last line is a code and nothing else. -/
def bare (r : ListenerReply) : Bool := (chompReply r.last).length = 3

end ListenerReply

/-! ## Reading a reply -/

/-- The lines that `SockRead` delivers from a stream, into a buffer for replies. -/
def sockLines : Nat → Bytes → List Bytes
  | 0, _ => []
  | fuel + 1, stream =>
    match sockRead (msgbufsize - 1) stream with
    | none => []
    | some (line, rest) => line :: sockLines fuel rest

/-- The lines that will still come from the listener. -/
def linesOf (stream : Bytes) : List Bytes := sockLines stream.length stream

/-- Which of the two functions reads a reply. -/
inductive Reader where
  | smtpOk
  | smtpEhlo
  deriving DecidableEq, Repr

/-- Whether the reply is a success, and the lines left. -/
def Reader.read : Reader → List Bytes → Bool × List Bytes
  | .smtpOk, lines => let r := smtpOkLoop [] lines; (r.1 = .ok, r.2.2)
  | .smtpEhlo, lines => let r := smtpEhloLoop ⟨[], none⟩ lines; (r.1 = .ok, r.2.2)

/-- One reply for each command of a dialogue. -/
def readAll : List Reader → List Bytes → List Bool × List Bytes
  | [], lines => ([], lines)
  | reader :: readers, lines =>
    let r := reader.read lines
    let rest := readAll readers r.2
    (r.1 :: rest.1, rest.2)

/-! ## Lines of the stream -/

theorem sockLines_of_length_le {fuel fuel' : Nat} {stream : Bytes} (h : stream.length ≤ fuel)
    (h' : stream.length ≤ fuel') : sockLines fuel stream = sockLines fuel' stream := by
  induction fuel generalizing fuel' stream with
  | zero =>
    obtain rfl : stream = [] := by simpa using h
    cases fuel' <;> rfl
  | succ fuel ih =>
    cases fuel' with
    | zero =>
      obtain rfl : stream = [] := by simpa using h'
      rfl
    | succ fuel' =>
      simp only [sockLines]
      cases hread : sockRead (msgbufsize - 1) stream with
      | none => rfl
      | some r =>
        obtain ⟨line, rest⟩ := r
        have hshort := sockRead_shorter hread
        simp only [List.cons.injEq, true_and]
        exact ih (by omega) (by omega)

/-- A line that fits into the buffer is delivered whole. -/
theorem linesOf_append {line : Bytes} (rest : Bytes) (hline : IsLine line)
    (hlen : line.length < msgbufsize - 2) : linesOf (line ++ rest) = line :: linesOf rest := by
  obtain ⟨text, htext, rfl⟩ := hline
  have hfits : (text ++ [Bytes.lf]).length ≤ msgbufsize - 1 - 1 := by
    unfold msgbufsize at *
    omega
  have hread : sockRead (msgbufsize - 1) (text ++ [Bytes.lf] ++ rest) =
      some (text ++ [Bytes.lf], rest) := by
    have hbuf : ¬ msgbufsize - 1 < 2 := by decide
    have hcat : text ++ [Bytes.lf] ++ rest = text ++ Bytes.lf :: rest := by simp
    rw [sockRead, if_neg hbuf, hcat, readUpTo_line htext, List.take_of_length_le hfits,
      List.drop_eq_nil_of_le hfits, List.nil_append]
  have hlength : (text ++ [Bytes.lf] ++ rest).length = (text.length + rest.length) + 1 := by
    simp only [List.length_append, List.length_singleton]
    omega
  unfold linesOf
  rw [hlength, sockLines, hread]
  simp only [List.cons.injEq, true_and]
  exact sockLines_of_length_le (by omega) (Nat.le_refl _)

theorem linesOf_flatten {lines : List Bytes} (rest : Bytes)
    (h : ∀ line ∈ lines, IsLine line ∧ line.length < msgbufsize - 2) :
    linesOf (lines.flatten ++ rest) = lines ++ linesOf rest := by
  induction lines with
  | nil => rfl
  | cons line lines ih =>
    obtain ⟨hline, hlen⟩ := h line List.mem_cons_self
    rw [List.flatten_cons, List.append_assoc, linesOf_append _ hline hlen,
      ih fun line' hmem => h line' (List.mem_cons_of_mem _ hmem), List.cons_append]

/-! ## What the loops see of a line -/

/-- A byte that neither ends a line nor a string, and is not stomped over. -/
def Visible (b : UInt8) : Prop := Bytes.iscntrl b = false

theorem Visible.ne_control {b : UInt8} (h : Visible b) :
    b ≠ Bytes.nul ∧ b ≠ Bytes.lf ∧ b ≠ Bytes.cr := by
  refine ⟨?_, ?_, ?_⟩ <;> rintro rfl <;> cases h

theorem visible_of_isdigit {b : UInt8} (h : Bytes.isdigit b = true) : Visible b := by
  simp only [Bytes.isdigit, Bool.and_eq_true, decide_eq_true_eq, UInt8.le_iff_toNat_le] at h
  have hne : b ≠ 127 := by
    rintro rfl
    exact absurd h.2 (by decide)
  have hlow : ¬ b < 32 := by
    rw [UInt8.lt_iff_toNat_lt]
    have : (48 : UInt8).toNat = 48 := rfl
    have : (32 : UInt8).toNat = 32 := rfl
    omega
  simp [Visible, Bytes.iscntrl, hlow, hne]

theorem chop_append {b : UInt8} {s t : Bytes} (h : b ∉ s) :
    Bytes.chop b (s ++ t) = s ++ Bytes.chop b t := by
  cases t with
  | nil =>
    have hlast : s.getLast? ≠ some b := fun heq => h (List.mem_of_getLast? heq)
    simp [Bytes.chop, hlast]
  | cons c t => exact Bytes.chop_append s (List.cons_ne_nil c t)

/-- What a line starts with survives. -/
theorem chompReply_append {s : Bytes} (t : Bytes) (h : ∀ b ∈ s, Visible b) :
    chompReply (s ++ t) = s ++ chompReply t := by
  have hcstr : Bytes.cstr (s ++ t) = s ++ Bytes.cstr t := by
    unfold Bytes.cstr
    rw [List.takeWhile_append_of_pos]
    exact fun b hb => decide_eq_true (h b hb).ne_control.1
  unfold chompReply
  rw [hcstr, chop_append fun hmem => (h _ hmem).ne_control.2.1 rfl,
    chop_append fun hmem => (h _ hmem).ne_control.2.2 rfl]

theorem cleanReply_append {s : Bytes} (t : Bytes) (h : ∀ b ∈ s, Visible b) :
    cleanReply (s ++ t) = s ++ cleanReply t := by
  have hkeep : s.map (fun b => if Bytes.iscntrl b then 63 else b) = s := by
    refine (List.map_congr_left fun b hb => ?_).trans (List.map_id s)
    have hvisible : Bytes.iscntrl b = false := h b hb
    simp [hvisible]
  unfold cleanReply
  rw [chompReply_append t h, List.map_append, hkeep]

theorem chompReply_lineEnd {e : Bytes} (h : LineEnd e) : chompReply e = [] := by
  rcases h with rfl | rfl <;> rfl

/-- The bytes of a code. -/
theorem IsCode.eq {code : Bytes} (h : IsCode code) :
    ∃ a b c, code = [a, b, c] ∧ Bytes.isdigit a = true ∧ Bytes.isdigit b = true ∧
      Bytes.isdigit c = true := by
  obtain ⟨hlen, hdigits⟩ := h
  match code, hlen with
  | [a, b, c], _ => exact ⟨a, b, c, rfl, by simp_all⟩

theorem IsCode.visible {code : Bytes} (h : IsCode code) : ∀ b ∈ code, Visible b :=
  fun b hb => visible_of_isdigit (h.2 b hb)

/-- The loops go on after a continuation line. -/
theorem ContinuationLine.next {line : Bytes} (h : ContinuationLine line) :
    (∀ resp, ∃ resp', ∀ lines, smtpOkLoop resp (line :: lines) = smtpOkLoop resp' lines) ∧
      ∀ i, ∃ i', ∀ lines, smtpEhloLoop i (line :: lines) = smtpEhloLoop i' lines := by
  obtain ⟨code, text, lineEnd, hcode, -, -, rfl, -⟩ := h
  -- code and dash survive the cleaning of the line
  have hvisible : ∀ b ∈ code ++ [Bytes.dash], Visible b := by
    intro b hb
    rcases List.mem_append.mp hb with hb | hb
    · exact hcode.visible b hb
    · obtain rfl := List.mem_singleton.mp hb
      rfl
  have hsplit : code ++ Bytes.dash :: text ++ lineEnd =
      (code ++ [Bytes.dash]) ++ (text ++ lineEnd) := by simp
  have hclean := cleanReply_append (text ++ lineEnd) hvisible
  have hchomp := chompReply_append (text ++ lineEnd) hvisible
  rw [← hsplit] at hclean hchomp
  obtain ⟨a, b, c, rfl, -⟩ := hcode.eq
  generalize [a, b, c] ++ Bytes.dash :: text ++ lineEnd = line at *
  refine ⟨fun resp => ⟨Bytes.strlcat (Bytes.strlcat resp (cleanReply line) msgbufsize) Bytes.crlf
    msgbufsize, fun lines => ?_⟩, fun i => ⟨i.scan (chompReply line), fun lines => ?_⟩⟩
  · have hcode : replyCode (cleanReply line) = true := by
      rw [hclean]
      simp [replyCode, Bytes.charAt]
    have hdash : Bytes.charAt (cleanReply line) 3 = Bytes.dash := by
      rw [hclean]
      rfl
    have hgood : replyGood (cleanReply line) = false := by
      have hnot : Bytes.dash ∉ [Bytes.space, Bytes.nul] := by decide
      rw [replyGood, hdash, decide_eq_false hnot, Bool.and_false]
    simp [smtpOkLoop, hcode, hgood, hdash]
  · have hlong : ¬ (chompReply line).length < 4 := by
      rw [hchomp]
      simp
    have hdash : Bytes.charAt (chompReply line) 3 = Bytes.dash := by
      rw [hchomp]
      rfl
    have hspace : Bytes.dash ≠ Bytes.space := by decide
    simp [smtpEhloLoop, hlong, hdash, hspace]

/-- The loops stop at the last line, and judge it by its class. -/
theorem FinalLine.stops {line : Bytes} (h : FinalLine line) (lines : List Bytes) :
    (∀ resp, (smtpOkLoop resp (line :: lines)).1 =
        (if Bytes.charAt line 0 ∈ [49, 50, 51] then .ok else .error) ∧
      (smtpOkLoop resp (line :: lines)).2.2 = lines) ∧
    ∀ i, (smtpEhloLoop i (line :: lines)).1 =
        (if Bytes.charAt line 0 ∈ [49, 50, 51] ∧ (chompReply line).length ≠ 3 then .ok
          else .error) ∧
      (smtpEhloLoop i (line :: lines)).2.2 = lines := by
  obtain ⟨code, text, lineEnd, hcode, -, hend, htext, rfl, -⟩ := h
  obtain ⟨a, b, c, rfl, -, hb, hc⟩ := hcode.eq
  have hfirst : Bytes.charAt ([a, b, c] ++ text ++ lineEnd) 0 = a := rfl
  rw [hfirst]
  rcases htext with rfl | ⟨text', rfl⟩
  -- the code alone, which is no good reply to EHLO
  · have hclean := cleanReply_append lineEnd hcode.visible
    have hchomp := chompReply_append lineEnd hcode.visible
    have hnil : cleanReply lineEnd = [] := by simp [cleanReply, chompReply_lineEnd hend]
    rw [hnil] at hclean
    rw [chompReply_lineEnd hend] at hchomp
    simp only [List.append_nil] at hclean hchomp ⊢
    refine ⟨fun resp => ?_, fun i => ?_⟩
    · rw [smtpOkLoop, hclean]
      have hcode : replyCode [a, b, c] = true := rfl
      have hgood : replyGood [a, b, c] = decide (a ∈ [49, 50, 51]) := by
        simp [replyGood, Bytes.charAt, hb, hc]
      have hnul : Bytes.charAt [a, b, c] 3 = Bytes.nul := rfl
      have hdash : Bytes.charAt [a, b, c] 3 ≠ Bytes.dash := by
        rw [hnul]
        decide
      simp only [hcode, Bool.not_true, Bool.false_eq_true, if_false, hgood, decide_eq_true_eq,
        ne_eq, hdash, not_false_eq_true, if_true]
      split <;> simp
    · rw [smtpEhloLoop, hchomp]
      simp
  · have hvisible : ∀ x ∈ [a, b, c] ++ [Bytes.space], Visible x := by
      intro x hx
      rcases List.mem_append.mp hx with hx | hx
      · exact hcode.visible x hx
      · obtain rfl := List.mem_singleton.mp hx
        rfl
    have hsplit : [a, b, c] ++ Bytes.space :: text' ++ lineEnd =
        ([a, b, c] ++ [Bytes.space]) ++ (text' ++ lineEnd) := by simp
    have hclean := cleanReply_append (text' ++ lineEnd) hvisible
    have hchomp := chompReply_append (text' ++ lineEnd) hvisible
    rw [← hsplit] at hclean hchomp
    refine ⟨fun resp => ?_, fun i => ?_⟩
    · rw [smtpOkLoop, hclean]
      have hcode : replyCode ([a, b, c] ++ [Bytes.space] ++ cleanReply (text' ++ lineEnd)) = true := by
        simp [replyCode, Bytes.charAt]
      have hgood : replyGood ([a, b, c] ++ [Bytes.space] ++ cleanReply (text' ++ lineEnd)) =
          decide (a ∈ [49, 50, 51]) := by
        simp [replyGood, Bytes.charAt, hb, hc]
      have hdash : Bytes.charAt ([a, b, c] ++ [Bytes.space] ++ cleanReply (text' ++ lineEnd)) 3 ≠
          Bytes.dash := by
        simp [Bytes.charAt]
        decide
      simp only [hcode, Bool.not_true, Bool.false_eq_true, if_false, hgood, decide_eq_true_eq,
        ne_eq, hdash, not_false_eq_true, if_true]
      split <;> simp
    · rw [smtpEhloLoop, hchomp]
      have hlong : ¬ (([a, b, c] ++ [Bytes.space] ++ chompReply (text' ++ lineEnd)).length < 4) := by
        simp
      have hdash : Bytes.charAt ([a, b, c] ++ [Bytes.space] ++ chompReply (text' ++ lineEnd)) 3 =
          Bytes.space := by
        simp [Bytes.charAt]
      have hzero : Bytes.charAt ([a, b, c] ++ [Bytes.space] ++ chompReply (text' ++ lineEnd)) 0 =
          a := by
        simp [Bytes.charAt]
      have hne : ([a, b, c] ++ [Bytes.space] ++ chompReply (text' ++ lineEnd)).length ≠ 3 := by
        simp
      have hspace : Bytes.space ≠ Bytes.dash := by decide
      simp only [hlong, if_false, hdash, hzero, hne, and_true, ne_eq, not_false_eq_true, hspace,
        if_true]
      split <;> simp

/-! ## Whole replies -/

/-- A line end comes last. -/
theorem isLine_append {s e : Bytes} (hs : Bytes.lf ∉ s) (h : LineEnd e) : IsLine (s ++ e) := by
  rcases h with rfl | rfl
  · exact ⟨s, hs, rfl⟩
  · have hcr : Bytes.lf ≠ Bytes.cr := by decide
    exact ⟨s ++ [Bytes.cr], by simp [hs, hcr], by simp [Bytes.crlf]⟩

theorem IsCode.lf_not_mem {code : Bytes} (h : IsCode code) : Bytes.lf ∉ code :=
  fun hmem => (h.visible _ hmem).ne_control.2.1 rfl

theorem ContinuationLine.isLine {line : Bytes} (h : ContinuationLine line) :
    IsLine line ∧ line.length < msgbufsize - 2 := by
  obtain ⟨code, text, lineEnd, hcode, htext, hend, rfl, hlen⟩ := h
  have hdash : Bytes.lf ≠ Bytes.dash := by decide
  exact ⟨isLine_append (by simp [hcode.lf_not_mem, htext, hdash]) hend, hlen⟩

theorem FinalLine.isLine {line : Bytes} (h : FinalLine line) :
    IsLine line ∧ line.length < msgbufsize - 2 := by
  obtain ⟨code, text, lineEnd, hcode, htext, hend, -, rfl, hlen⟩ := h
  exact ⟨isLine_append (by simp [hcode.lf_not_mem, htext]) hend, hlen⟩

namespace ListenerReply

/-- The lines of a reply are what `SockRead` delivers of it. -/
theorem linesOf_bytes (r : ListenerReply) (rest : Bytes) :
    linesOf (r.bytes ++ rest) = r.continued ++ r.last :: linesOf rest := by
  have hlines : ∀ line ∈ r.continued ++ [r.last],
      IsLine line ∧ line.length < msgbufsize - 2 := by
    intro line hmem
    rcases List.mem_append.mp hmem with hmem | hmem
    · exact (r.continued_wf line hmem).isLine
    · exact List.mem_singleton.mp hmem ▸ r.last_wf.isLine
  rw [bytes, linesOf_flatten rest hlines, List.append_assoc, List.singleton_append]

end ListenerReply

/-- Both loops pass over continuation lines. -/
theorem skip_continued {continued : List Bytes} (h : ∀ line ∈ continued, ContinuationLine line) :
    (∀ resp, ∃ resp', ∀ lines,
        smtpOkLoop resp (continued ++ lines) = smtpOkLoop resp' lines) ∧
      ∀ i, ∃ i', ∀ lines, smtpEhloLoop i (continued ++ lines) = smtpEhloLoop i' lines := by
  induction continued with
  | nil => exact ⟨fun resp => ⟨resp, fun _ => rfl⟩, fun i => ⟨i, fun _ => rfl⟩⟩
  | cons line continued ih =>
    obtain ⟨hok, hehlo⟩ := (h line List.mem_cons_self).next
    obtain ⟨ihok, ihehlo⟩ := ih fun l hmem => h l (List.mem_cons_of_mem _ hmem)
    refine ⟨fun resp => ?_, fun i => ?_⟩
    · obtain ⟨resp₁, h₁⟩ := hok resp
      obtain ⟨resp₂, h₂⟩ := ihok resp₁
      exact ⟨resp₂, fun lines => (h₁ _).trans (h₂ lines)⟩
    · obtain ⟨i₁, h₁⟩ := hehlo i
      obtain ⟨i₂, h₂⟩ := ihehlo i₁
      exact ⟨i₂, fun lines => (h₁ _).trans (h₂ lines)⟩

/-- Whether a function takes a reply for a success. -/
def Reader.accepts : Reader → ListenerReply → Bool
  | .smtpOk, r => r.positive
  | .smtpEhlo, r => r.positive && !r.bare

/-- **Step.** Either function takes one reply off the stream and nothing else. -/
theorem Reader.read_reply (reader : Reader) (r : ListenerReply) (rest : Bytes) :
    reader.read (linesOf (r.bytes ++ rest)) = (reader.accepts r, linesOf rest) := by
  obtain ⟨hok, hehlo⟩ := skip_continued r.continued_wf
  obtain ⟨hlast, hlast'⟩ := r.last_wf.stops (linesOf rest)
  rw [r.linesOf_bytes]
  cases reader with
  | smtpOk =>
    obtain ⟨resp, hresp⟩ := hok []
    obtain ⟨hstatus, hleft⟩ := hlast resp
    simp only [Reader.read, Reader.accepts, ListenerReply.positive, hresp, hstatus, hleft]
    split <;> simp_all
  | smtpEhlo =>
    obtain ⟨i, hi⟩ := hehlo ⟨[], none⟩
    obtain ⟨hstatus, hleft⟩ := hlast' i
    simp only [Reader.read, Reader.accepts, ListenerReply.positive, ListenerReply.bare, hi,
      hstatus, hleft]
    split <;> simp_all

/-- **Run.** A dialogue of any length takes its own replies and no more. -/
theorem readAll_replies (dialogue : List (Reader × ListenerReply)) (rest : Bytes) :
    readAll (dialogue.map Prod.fst) (linesOf (dialogue.flatMap (fun p => p.2.bytes) ++ rest)) =
      (dialogue.map fun p => p.1.accepts p.2, linesOf rest) := by
  induction dialogue with
  | nil => rfl
  | cons p dialogue ih =>
    rw [List.flatMap_cons, List.append_assoc]
    simp only [List.map_cons, readAll, Reader.read_reply, ih]

/-- Every reply of the dialogue is read by the command it belongs to, a success if and only
if its class is 1, 2 or 3, and what follows the last one is left. -/
def InStep (dialogue : List (Reader × ListenerReply)) : Prop :=
  ∀ rest, readAll (dialogue.map Prod.fst)
      (linesOf (dialogue.flatMap (fun p => p.2.bytes) ++ rest)) =
    (dialogue.map fun p => p.2.positive, linesOf rest)

/-- `250` and nothing else. -/
def bareReply : ListenerReply where
  continued := []
  last := Bytes.lit "250\r\n"
  continued_wf := by simp
  last_wf := ⟨Bytes.lit "250", [], Bytes.crlf, ⟨rfl, by decide⟩, by simp, .inr rfl, .inl rfl, rfl,
    by decide⟩

end Fetchmail.Sink
