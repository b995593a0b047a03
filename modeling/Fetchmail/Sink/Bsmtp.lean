import Fetchmail.Basic
import Fetchmail.Sink.Bounce
import Fetchmail.Sink.Stuffline

/-!
# The BSMTP Sink

`open_bsmtp_sink`, `release_sink` and `close_sink` of `sink.c` for an account with `bsmtp`,
and what `readheaders`, `readbody` and `fetch_messages` do with the sink for one message. The
batch is a file that each message is appended to, or the standard output; in both cases what
counts is the octets that have been written. The variable `sinkfp` is static and outlives a
message.

Which writes fail, and how much of the text they write all the same, is up to a `Disk`, and
so is what the mail server sends: a `Message` tells how far the headers get, what is handed
to `stuffline`, and whether the connection breaks.
-/

namespace Fetchmail.Sink.Bsmtp

open Fetchmail.Lib

/-! ## The output stream -/

/-- What happens to the operations on files, by their number. -/
structure Disk where
  /-- a write fails: how much it may still write, which is never all of the text -/
  fault : Nat → Option Nat
  /-- `fopen` succeeds -/
  opens : Nat → Bool
  /-- `fclose` succeeds -/
  closes : Nat → Bool

/-- The batch, and the variables of `sink.c`. -/
structure Batch where
  octets : Bytes
  /-- `sinkfp`, with the error indicator of the stream -/
  sinkfp : Option Bool
  /-- how many operations there have been -/
  ops : Nat
  deriving DecidableEq, Repr

/-- What is read of `struct query`. -/
structure BsmtpCtl where
  line : LineCtl
  /-- `ctl->bsmtp` is `-` -/
  dash : Bool
  user : Bytes
  smtpaddress : Option Bytes
  smtpname : Option Bytes
  pass8bits : Bool

section

variable (c : BsmtpCtl) (e : Disk)

/-- `ferror(sinkfp)` -/
def Batch.ferror (b : Batch) : Bool := b.sinkfp = some true

/-- Write to `sinkfp`. -/
def Batch.write (b : Batch) (text : Bytes) : Batch :=
  match e.fault b.ops with
  | none => { b with octets := b.octets ++ text, ops := b.ops + 1 }
  | some n => ⟨b.octets ++ text.take (min n (text.length - 1)), some true, b.ops + 1⟩

/-- Write texts one after the other, whatever happens. -/
def Batch.writeAll (b : Batch) (texts : List Bytes) : Batch := texts.foldl (Batch.write e) b

/-- `stuffline` into the batch: whether it succeeds. -/
def Batch.stuff (b : Batch) (mem : Bytes) : Bool × Batch :=
  let line := ended c.line (huntLine mem)
  let dot := stuffing c.line line
  let b := if dot = [] then b else b.write e dot
  if dot ≠ [] ∧ b.ferror then (false, b)
  else
    let b := b.write e (stripCr c.line (line.drop (skipped c.line line)))
    (!b.ferror, b)

/-! ## Opening and closing -/

/-- `MSG_IS_8BIT` and `MSG_IS_7BIT` in `ctl->mimemsg` -/
structure MimeMsg where
  is8bit : Bool
  is7bit : Bool

/-- The writes that make up the `MAIL FROM` line. -/
def mailWrites (msg : Msgblk) (mime : MimeMsg) : List Bytes :=
  let anglebrs := msg.returnPath.head? ≠ some 60
  let sender := if msg.returnPath = [] then c.user else msg.returnPath
  [Bytes.lit "MAIL FROM:" ++
      (if anglebrs then Bytes.lit "<" ++ sender ++ Bytes.lit ">" else sender)] ++
    (if c.pass8bits || mime.is8bit then [Bytes.lit " BODY=8BITMIME"]
      else if mime.is7bit then [Bytes.lit " BODY=7BIT"] else []) ++
    [Bytes.crlf]

/-- The `RCPT TO` lines. -/
def rcptLines (msg : Msgblk) : List Bytes :=
  msg.accepted.map fun r => Bytes.lit "RCPT TO:<" ++
    rcptAddress c.smtpname (c.smtpaddress.getD (Bytes.lit "localhost")) r.id ++
      Bytes.lit ">" ++ Bytes.crlf

/-- The line that starts the content. -/
def dataLine : Bytes := Bytes.lit "DATA" ++ Bytes.crlf

/-- What is written ahead of the message. -/
def preamble (msg : Msgblk) (mime : MimeMsg) : List Bytes :=
  mailWrites c msg mime ++ rcptLines c msg ++ [dataLine]

/-- The first lines of `open_bsmtp_sink`. -/
def openStream (b : Batch) : Batch :=
  -- the standard output keeps its error indicator
  if c.dash then { b with sinkfp := some (b.sinkfp.getD false) }
  else { b with sinkfp := if e.opens b.ops then some false else none, ops := b.ops + 1 }

/-- `open_bsmtp_sink` -/
def openBsmtpSink (msg : Msgblk) (mime : MimeMsg) (b : Batch) : Ps × Batch :=
  let b := openStream c e b
  if b.sinkfp ≠ some false then (.bsmtp, b)
  else
    let b := b.writeAll e (preamble c msg mime)
    -- `fflush`
    let b := b.write e []
    (if b.ferror then .bsmtp else .success, b)

/-- `release_sink` -/
def releaseSink (b : Batch) : Batch :=
  if b.sinkfp ≠ none ∧ c.dash = false then { b with sinkfp := none, ops := b.ops + 1 } else b

/-- `close_sink`; the flag `forward` is not looked at. -/
def closeSink (b : Batch) : Bool × Batch :=
  if b.sinkfp ≠ none then
    let b := b.write e terminator
    if c.dash then (!b.ferror, b)
    else (!b.ferror && e.closes b.ops, { b with sinkfp := none, ops := b.ops + 1 })
  else (true, b)

/-! ## One message -/

/-- How far `readheaders` gets before it opens the sink. -/
inductive Headers where
  /-- it returns, without opening the sink -/
  | stopped (status : Ps) (failed : status ≠ .success)
  /-- what is then handed to `stuffline`: the headers, and a warning -/
  | addressed (texts : List Bytes) (warning : Option Bytes)

/-- A message on the mail server, as it is fetched. -/
structure Message where
  msg : Msgblk
  mime : MimeMsg
  headers : Headers
  /-- a body that is not forwarded is read all the same -/
  reads : Bool
  /-- what is handed to `stuffline` for the body -/
  body : List Bytes
  /-- the connection breaks behind that -/
  breaks : Bool

/-- Ship the headers; the sink is released when that fails. -/
def shipTexts : List Bytes → Batch → Bool × Batch
  | [], b => (true, b)
  | text :: texts, b =>
    let r := b.stuff c e text
    if r.1 then shipTexts texts r.2 else (false, releaseSink c r.2)

/-- The warning; whether it could be written is not looked at. -/
def shipWarning (warning : Option Bytes) (b : Batch) : Batch :=
  match warning with
  | some text => (b.stuff c e text).2
  | none => b

/-- The line between the headers and the body. -/
def delimiterLine : Bytes := Bytes.crlf ++ [Bytes.nul]

/-- `readheaders`, from where the message has been addressed. -/
def readheaders (m : Message) (b : Batch) : Ps × Batch :=
  match m.headers with
  | .stopped status _ => (status, b)
  | .addressed texts warning =>
    let r := openBsmtpSink c e m.msg m.mime b
    if r.1 ≠ .success then r
    else
      let r := shipTexts c e texts r.2
      if r.1 then
        let r := (shipWarning c e warning r.2).stuff c e delimiterLine
        (if r.1 then .success else .socket, r.2)
      else (.ioerr, r.2)

/-- `readbody` -/
def readbody (forward : Bool) (m : Message) (b : Batch) : Ps × Batch :=
  let r := if forward then shipTexts c e m.body b else (true, b)
  if !r.1 then (.ioerr, r.2)
  else if m.breaks then (.socket, releaseSink c r.2)
  else (.success, r.2)

/-- The errors of `readheaders` after which `fetch_messages` goes on, without forwarding. -/
def suppressesForward (status : Ps) : Bool :=
  status = .retained || status = .transient || status = .refused

/-- What `fetch_messages` does with a message: the result of `close_sink`, and whether the
message was to be forwarded; `none` if the session ends with an error, after which
`do_session` releases the sink. -/
def deliver (m : Message) (b : Batch) : Option (Bool × Bool) × Batch :=
  let r := readheaders c e m b
  if r.1 ≠ .success ∧ suppressesForward r.1 = false then (none, releaseSink c r.2)
  else
    let forward := r.1 = .success
    let r := if forward || m.reads then readbody c e forward m r.2 else (.success, r.2)
    if r.1 ≠ .success then (none, releaseSink c r.2)
    else
      let r := closeSink c e r.2
      (some (r.1, forward), r.2)

/-- The message is reported as delivered. -/
def delivered (m : Message) (b : Batch) : Bool := (deliver c e m b).1 = some (true, true)

end

end Fetchmail.Sink.Bsmtp
