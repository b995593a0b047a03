import Fetchmail.Basic
import Fetchmail.Mime.QuotedPrintable
import Fetchmail.Sink.Stuffline
import Fetchmail.Transact.Socket

/-!
# Reading a Message Body

`readbody` of `transact.c`: lines are read from the mail server into a buffer, decoded there
when the message needs it, and handed to `stuffline`. Lines that end in a soft line break
stay in the buffer, and the next line is read behind them.
-/

namespace Fetchmail.Transact

open Fetchmail.Lib
open Fetchmail.Mime
open Fetchmail.Sink

/-- What `readbody` reads of its arguments and of the globals. -/
structure BodyCtl where
  line : LineCtl
  forward : Bool
  /-- `ctl->mimedecode` and `MSG_NEEDS_DECODE` in `ctl->mimemsg` -/
  decode : Bool
  /-- `UnMimeBodyline` on the header lines of a body part -/
  bodyHeader : MimeState → Bytes → Decoded × MimeState
  /-- the sink takes what is written, given everything written so far -/
  accepts : Bytes → Bool

/-- `sizeof(buf)` -/
def bufSize : Nat := 8192 + 4

/-- The variables of the loop. -/
structure BodyLoop where
  /-- what the mail server will still send -/
  stream : Bytes
  /-- `buf` -/
  mem : Bytes
  /-- `inbufp - buf` -/
  off : Nat
  issoftline : Bool
  len : Int
  mime : MimeState
  /-- `msgblk.msglen` -/
  msglen : Int
  /-- written to the sink so far -/
  out : Bytes

/-- How an iteration ends. -/
inductive BodyNext where
  | more (s : BodyLoop)
  /-- `break` -/
  | endOfMessage (s : BodyLoop)
  | leave (err : Ps) (s : BodyLoop)

/-- `EMPTYLINE`, on a buffer -/
def emptyLine (s : Bytes) : Bool :=
  s.take 3 = [Bytes.cr, Bytes.lf, Bytes.nul] || s.take 2 = [Bytes.lf, Bytes.nul]

/-- The end-of-message test on what lies in the buffer at `inbufp`. -/
def endOfBody (delimited : Bool) (s : Bytes) : Bool :=
  delimited && s.head? = some Bytes.dot && emptyLine s.tail

/-- A line was read into the buffer. For a protocol that announces lengths, what exceeds
the length is cut off, and a line end that was not part of the message put behind it. Yields
the buffer, the length of the line and the length that remains. -/
def clipLine (c : BodyCtl) (s : BodyLoop) (chunk : Bytes) : Bytes × Int × Int :=
  let mem := store s.mem s.off chunk
  if c.line.delimited = false ∧ s.len < chunk.length then
    (store mem (s.off + s.len.toNat) Bytes.crlf, s.len + 2, 0)
  else (mem, chunk.length, s.len - chunk.length)

/-- The line in the buffer is decoded; a soft line break that would overrun the buffer is
replaced by a newline. -/
def decodeLine (c : BodyCtl) (s : BodyLoop) : BodyLoop :=
  if c.decode then
    let r := unMimeBodyline c.bodyHeader c.line.delimited s.issoftline s.mime
      (Bytes.cstr (s.mem.drop s.off))
    let off := s.off + r.1.advance
    let s := { s with mem := store s.mem s.off r.1.text, off := off, issoftline := r.1.soft,
                      mime := r.2 }
    if s.issoftline ∧ bufSize < off + 1 + 200 then
      { s with mem := store s.mem off [Bytes.lf], issoftline := false }
    else s
  else s

/-- Ship the buffer. -/
def rbSend (c : BodyCtl) (s : BodyLoop) : Ps × BodyLoop :=
  let r := stuffline c.line s.mem
  if c.accepts (s.out ++ r.written) then
    (.success, { s with mem := r.mem, out := s.out ++ r.written })
  else (.ioerr, { s with mem := r.mem })

/-- Guard against very long lines. -/
def guardBuffer (mem : Bytes) : Bytes :=
  mem.take 8193 ++ [Bytes.cr, Bytes.lf, Bytes.nul]

/-- Ship the line, unless it goes on. -/
def shipLine (c : BodyCtl) (s : BodyLoop) : BodyNext :=
  if c.forward ∧ ¬ s.issoftline then
    let r := rbSend c { s with off := 0, mem := guardBuffer s.mem }
    if r.1 = .success then .more r.2 else .leave r.1 r.2
  else .more s

/-- One iteration of the loop of `readbody`. -/
def readbodyStep (c : BodyCtl) (s : BodyLoop) : BodyNext :=
  match sockRead (bufSize - 4 - s.off) s.stream with
  | none => .leave .socket s
  | some (chunk, stream) =>
    let r := clipLine c s chunk
    let s := { s with stream := stream, mem := r.1, len := r.2.2 }
    if endOfBody c.line.delimited (s.mem.drop s.off) then .endOfMessage s
    else
      -- the dot escape does not count
      let escape := if c.line.delimited ∧ (s.mem.drop s.off).head? = some Bytes.dot then 1 else 0
      shipLine c (decodeLine c { s with msglen := s.msglen - escape + r.2.1 })

/-- After the loop: flush a line that was to go on. -/
def flushLine (c : BodyCtl) (s : BodyLoop) : Ps × BodyLoop :=
  if c.forward ∧ s.issoftline then rbSend c { s with mem := store s.mem s.off Bytes.crlf }
  else (.success, s)

/-- The loop of `readbody`, for at most `fuel` lines. -/
def readbodyLoop (c : BodyCtl) : (fuel : Nat) → BodyLoop → Ps × BodyLoop
  | 0, s => if c.line.delimited ∨ 0 < s.len then (.socket, s) else flushLine c s
  | fuel + 1, s =>
    if c.line.delimited ∨ 0 < s.len then
      match readbodyStep c s with
      | .more s => readbodyLoop c fuel s
      | .endOfMessage s => flushLine c s
      | .leave err s => (err, s)
    else flushLine c s

/-- The loop with enough fuel: every line takes something from the stream. -/
def runBody (c : BodyCtl) (s : BodyLoop) : Ps × BodyLoop :=
  readbodyLoop c s.stream.length s

/-- `readbody` -/
def readbody (c : BodyCtl) (stream mem : Bytes) (len : Int) (mime : MimeState) (msglen : Int) :
    Ps × BodyLoop :=
  runBody c ⟨stream, mem, 0, false, len, mime, msglen, []⟩

/-! ## Fuel -/

@[simp]
theorem decodeLine_stream (c : BodyCtl) (s : BodyLoop) : (decodeLine c s).stream = s.stream := by
  simp only [decodeLine]
  split
  · split <;> rfl
  · rfl

theorem shipLine_stream {c : BodyCtl} {s s' : BodyLoop} (h : shipLine c s = .more s') :
    s'.stream = s.stream := by
  simp only [shipLine, rbSend] at h
  split at h
  · split at h <;> simp_all
    simp [← h]
  · simp_all

/-- An iteration that goes on has taken something from the stream. -/
theorem readbodyStep_shorter {c : BodyCtl} {s s' : BodyLoop} (h : readbodyStep c s = .more s') :
    s'.stream.length < s.stream.length := by
  simp only [readbodyStep] at h
  split at h
  · cases h
  · next chunk rest hread =>
    split at h
    · cases h
    · rw [shipLine_stream h, decodeLine_stream]
      exact sockRead_shorter hread

theorem readbodyStep_nil {c : BodyCtl} {s : BodyLoop} (h : s.stream = []) :
    readbodyStep c s = .leave .socket s := by
  have hnone : sockRead (bufSize - 4 - s.off) s.stream = none := by
    unfold sockRead
    split
    · rfl
    · next hlen =>
      obtain ⟨n, hn⟩ : ∃ n, bufSize - 4 - s.off - 1 = n + 1 := ⟨bufSize - 4 - s.off - 2, by omega⟩
      rw [hn, h]
      rfl
  simp [readbodyStep, hnone]

/-- One step more of fuel changes nothing, if there was enough. -/
theorem readbodyLoop_succ {c : BodyCtl} {fuel : Nat} {s : BodyLoop} (h : s.stream.length ≤ fuel) :
    readbodyLoop c (fuel + 1) s = readbodyLoop c fuel s := by
  induction fuel generalizing s with
  | zero =>
    have hnil : s.stream = [] := List.length_eq_zero_iff.mp (Nat.le_zero.mp h)
    simp only [readbodyLoop, readbodyStep_nil hnil]
  | succ fuel ih =>
    rw [readbodyLoop]
    conv_rhs => rw [readbodyLoop]
    cases hstep : readbodyStep c s with
    | more s' =>
      have hlt := readbodyStep_shorter hstep
      simp only [ih (show s'.stream.length ≤ fuel by omega)]
    | endOfMessage s' => rfl
    | leave err s' => rfl

theorem readbodyLoop_fuel {c : BodyCtl} {fuel : Nat} {s : BodyLoop}
    (h : s.stream.length ≤ fuel) : readbodyLoop c fuel s = runBody c s := by
  obtain ⟨extra, rfl⟩ := Nat.exists_eq_add_of_le h
  induction extra with
  | zero => rfl
  | succ extra ih => rw [← Nat.add_assoc, readbodyLoop_succ (by omega), ih (by omega)]

/-- One iteration of the loop. -/
theorem runBody_step {c : BodyCtl} (s : BodyLoop) (h : c.line.delimited = true ∨ 0 < s.len) :
    runBody c s = match readbodyStep c s with
      | .more s' => runBody c s'
      | .endOfMessage s' => flushLine c s'
      | .leave err s' => (err, s') := by
  rw [runBody, ← readbodyLoop_succ (Nat.le_refl _), readbodyLoop, if_pos h]
  cases hstep : readbodyStep c s with
  | more s' => exact readbodyLoop_fuel (Nat.le_of_lt (readbodyStep_shorter hstep))
  | endOfMessage s' => rfl
  | leave err s' => rfl

end Fetchmail.Transact
