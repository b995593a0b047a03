import Fetchmail.Basic
import Fetchmail.Sink.Stuffline
import Fetchmail.Transact.Socket

/-!
# Reading and Shipping Message Headers

`readheaders` of `transact.c`. Header lines are read from the mail server one by one, with
their continuation lines; the ones that are kept are collected in a single block. When the
end of the headers is reached and the sink is open, the block is handed to `stuffline` in
one or two pieces: the trace lines of fetchmail go ahead of the first `Received` line of the
message.

The functions that rewrite a line or take an address out of it are parameters, and so is what
becomes of the addresses: whom the message is for and whether the sink could be opened.

The lines of fetchmail's own are whole here. In the source they are written to `buf` and `errhd` by
`snprintf`, which cuts them where names of several thousand bytes do not fit.
-/

namespace Fetchmail.Transact

open Fetchmail.Lib
open Fetchmail.Sink

/-! ## Settings -/

/-- A text without line feeds and zero bytes, such as a name from the configuration. -/
structure PlainText where
  text : Bytes
  plain : ∀ b ∈ text, b ≠ Bytes.lf ∧ b ≠ Bytes.nul

/-- A function that rewrites a line and leaves the line feed at its end. (`reply_hack` stops at a
zero byte, which a decoded word may have: such lines are not among those that it is a model of.) -/
structure LineEdit where
  edit : Bytes → Bytes
  keeps_end : ∀ line, line.getLast? = some Bytes.lf → (edit line).getLast? = some Bytes.lf

/-- Whom the message is for, in the trace lines. -/
inductive ForClause where
  /-- no recipient was accepted; the address of the postmaster -/
  | byDefault (postmaster : PlainText)
  | one (recipient : PlainText) (multidrop : Bool)
  | several

/-- What the trace lines tell. -/
structure TraceInfo where
  truename : PlainText
  /-- the address of the server, when it is known -/
  saddr : Option PlainText
  fetchmailhost : PlainText
  protocolName : PlainText
  version : PlainText
  /-- `ctl->server.tracepolls`: the name and the account that are polled, and the folder -/
  tracepolls : Option (PlainText × PlainText × Option PlainText)
  forClause : ForClause
  timestamp : PlainText

/-- What there is to warn the recipient about, besides zero bytes in the message. -/
structure WarningInfo where
  /-- no recipient address matched a local name; the address, when there was just one -/
  noLocalMatches : Option (Option PlainText)
  /-- the recipients that the listener rejected, and whether it is the last of the list -/
  badAddresses : List (PlainText × Bool)
  /-- the byte that lies two places behind the name of the header before it is written -/
  stale : UInt8

/-- What becomes of a message that has been addressed. -/
structure Addressed where
  /-- `PS_TRANSIENT` after DNS errors, else the result of `open_sink` -/
  status : Ps
  trace : TraceInfo
  warning : WarningInfo

/-- What `readheaders` reads of its arguments and of the globals. -/
structure HeaderCtl where
  line : LineCtl
  num : Int
  /-- `ctl->server.badheader == BHACCEPT` -/
  acceptBad : Bool
  mimedecode : Bool
  dropdelivered : Bool
  dropstatus : Bool
  rewrite : Bool
  /-- `run.invisible` -/
  invisible : Bool
  user : PlainText
  fetchmailhost : PlainText
  remotename : PlainText
  truename : PlainText
  /-- `UnMimeHeader`, and where the end of the line is found again -/
  unMimeHeader : LineEdit
  replyHack : LineEdit
  nxtaddr : Bytes → Option Bytes
  /-- the headers are those of the message before, and the envelope recipient is not known -/
  duplicate : Bytes → Bool
  /-- addressing the message and opening the sink, given the headers -/
  address : Bytes → Addressed
  /-- the sink takes what is written, given everything written so far -/
  accepts : Bytes → Bool

/-! ## Reading a header line -/

/-- The variables of the loop. -/
structure HeaderLoop where
  /-- what the mail server will still send -/
  stream : Bytes
  remaining : Int
  /-- `msgblk.headers` -/
  headers : Option Bytes
  retainMail : Bool
  refuseMail : Bool
  hasNuls : Bool
  /-- `msgblk.return_path`, once a header gave it -/
  returnPath : Option Bytes
  suppressReadbody : Bool

/-- How reading a line ends. -/
inductive HeaderRead where
  | failed
  /-- the end of the headers -/
  | eoh (s : HeaderLoop)
  | line (line : Bytes) (s : HeaderLoop)

/-- `end_of_header` -/
def endOfHeader (line : Bytes) : Bool := line.dropWhile (· = Bytes.cr) = [Bytes.lf]

/-- The end-of-message test on a line. -/
def endOfMessage (delimited : Bool) (line : Bytes) : Bool :=
  delimited && (line = [Bytes.dot, Bytes.cr, Bytes.lf] || line = [Bytes.dot, Bytes.lf])

section

variable (c : HeaderCtl)

/-- A line that is no header. -/
def incorrectHeader (line : Bytes) : Bool :=
  !c.acceptBad && !Bytes.isspace (Bytes.charAt line 0) && !(58 ∈ Bytes.cstr line)

/-- What is read next to come into the buffer, with the line end fixed. -/
def fixLineEnd (chunk : Bytes) : Bytes := if c.line.forcecr then forceCr chunk else chunk

/-- Read a line and the lines that continue it, for at most `fuel` calls of `SockRead`;
`line` is what has been read of it. -/
def readHeaderLine : (fuel : Nat) → (line : Bytes) → HeaderLoop → HeaderRead
  | 0, _, _ => .failed
  | fuel + 1, line, s =>
    match sockRead 8192 s.stream with
    | none => .failed
    | some (read, stream) =>
      -- smash out any zero bytes
      let chunk := read.filter (· ≠ Bytes.nul)
      let s := { s with stream := stream, remaining := s.remaining - chunk.length }
      if chunk = [] then readHeaderLine fuel line s
      else if chunk.getLast? ≠ some Bytes.lf then readHeaderLine fuel (line ++ chunk) s
      else
        let line := line ++ fixLineEnd c chunk
        if endOfHeader line then .eoh s
        else if endOfMessage c.line.delimited line then .eoh { s with suppressReadbody := true }
        else
          let s := { s with refuseMail := s.refuseMail || incorrectHeader c line }
          -- a line that starts with a blank continues this one
          if stream.head? = some Bytes.space ∨ stream.head? = some Bytes.tab then
            readHeaderLine fuel line s
          else .line line s

/-! ## Collecting header lines -/

/-- A `Status` header that is empty, or that the user wants dropped. -/
def dropsStatus (line : Bytes) : Bool :=
  let value :=
    if Bytes.startsWithCI line (Bytes.lit "Status:") then some (line.drop 7)
    else if Bytes.startsWithCI line (Bytes.lit "X-Mozilla-Status:") then some (line.drop 17)
    else none
  match value with
  | some value => c.dropstatus || (Bytes.cstr value).all Bytes.isspace
  | none => false

/-- Put a line behind the headers. -/
def appendHeader (line : Bytes) (s : HeaderLoop) : HeaderLoop :=
  { s with headers := some (s.headers.getD [] ++ line) }

/-- A line that is kept: it may be the return path, which only an MDA gets. -/
def keepLine (line : Bytes) (s : HeaderLoop) : HeaderLoop :=
  let line := if c.rewrite then c.replyHack.edit line else line
  if s.returnPath.isNone ∧ Bytes.startsWithCI line (Bytes.lit "Return-Path:") then
    match c.nxtaddr line with
    | some addr =>
      let s := { s with returnPath := some (if addr = [] then Bytes.lit "<>" else addr) }
      if c.line.kind = .mda then appendHeader line s else s
    | none => appendHeader line s
  else appendHeader line s

/-- What is done with a line that was read. In a build with POP2 the test for the folder data of
an IMAP server is not made for POP2. -/
def processLine (line : Bytes) (s : HeaderLoop) : HeaderLoop :=
  let line := if c.mimedecode then c.unMimeHeader.edit line else line
  -- skip processing if we are going to retain or refuse this mail
  if s.retainMail ∨ s.refuseMail then s
  else
    let s := { s with hasNuls := s.hasNuls || (Bytes.nul ∈ line : Bool) }
    if c.num = 1 ∧ Bytes.startsWithCI line (Bytes.lit "X-IMAP:") then { s with retainMail := true }
    else if Bytes.startsWithCI line (Bytes.lit ">From ") ∨
        Bytes.startsWithCI line (Bytes.lit "From ") then s
    else if c.dropdelivered ∧ Bytes.startsWithCI line (Bytes.lit "Delivered-To:") then s
    else if dropsStatus c line then s
    else keepLine c line s

/-- The loop over the header lines, for at most `fuel` of them; `none` when the connection
fails. -/
def collectHeaders : (fuel : Nat) → HeaderLoop → Option HeaderLoop
  | 0, _ => none
  | fuel + 1, s =>
    if 0 < s.remaining ∨ c.line.delimited then
      match readHeaderLine c (s.stream.length + 1) [] s with
      | .failed => none
      | .eoh s => some s
      | .line line s => collectHeaders fuel (processLine c line s)
    else some s

/-! ## The lines of fetchmail's own -/

/-- The headers of a message that has none. -/
def fakeHeaders : Bytes :=
  Bytes.lit "From: FETCHMAIL-DAEMON\r\nTo: " ++ c.user.text ++ Bytes.lit "@" ++
    c.fetchmailhost.text ++ Bytes.lit "\r\nSubject: Headerless mail from " ++ c.remotename.text ++
    Bytes.lit "'s mailbox on " ++ c.truename.text ++ Bytes.crlf

end

/-- `Received: from` -/
def fromLine (t : TraceInfo) : Bytes :=
  Bytes.lit "Received: from " ++ t.truename.text ++
    (match t.saddr with
      | some saddr => Bytes.lit " [" ++ saddr.text ++ Bytes.lit "]"
      | none => [])

/-- `by`, with the account that is polled where the user wants that. -/
def byLine (t : TraceInfo) : Bytes :=
  Bytes.lit "\tby " ++ t.fetchmailhost.text ++ Bytes.lit " with " ++ t.protocolName.text ++
    Bytes.lit " (fetchmail-" ++ t.version.text ++
    (match t.tracepolls with
      | some (pollname, remotename, folder) =>
        Bytes.lit " polling " ++ pollname.text ++ Bytes.lit " account " ++ remotename.text ++
          (match folder with
            | some folder => Bytes.lit " folder " ++ folder.text
            | none => [])
      | none => []) ++ Bytes.lit ")"

/-- `for`, and the time. -/
def forLine (t : TraceInfo) : Bytes :=
  Bytes.lit "\t" ++
    (match t.forClause with
      | .byDefault postmaster => Bytes.lit "for <" ++ postmaster.text ++ Bytes.lit "> (by default); "
      | .one recipient multidrop =>
        Bytes.lit "for <" ++ recipient.text ++ Bytes.lit "> (" ++
          (if multidrop then Bytes.lit "multi-drop" else Bytes.lit "single-drop") ++ Bytes.lit "); "
      | .several => []) ++ t.timestamp.text

/-- The `Received` lines of fetchmail. -/
def receivedLines (t : TraceInfo) : List Bytes := [fromLine t, byLine t, forLine t]

/-- `X-Fetchmail-Warning`, if there is something to warn about. The texts are joined by
semicolons; whether there is one before the text at hand is told from the byte two places
behind the name of the header, which no text may have set yet. -/
def warningLine (w : WarningInfo) (hasNuls : Bool) : Option Bytes :=
  if w.noLocalMatches.isNone && !hasNuls && w.badAddresses.isEmpty then none
  else
    let start := match w.noLocalMatches with
      | some (some id) =>
        Bytes.lit "recipient address " ++ id.text ++ Bytes.lit " didn't match any local name"
      | some none => Bytes.lit "no recipient addresses matched declared local names"
      | none => []
    let join (text : Bytes) : Bytes :=
      if text ≠ [] ∨ w.stale ≠ Bytes.nul then text ++ Bytes.lit "; " else text
    let nuls := if hasNuls then join start ++ Bytes.lit "message has embedded NULs" else start
    let bad := if w.badAddresses.isEmpty then nuls else
      join nuls ++ Bytes.lit "SMTP listener rejected local recipient addresses: " ++
        w.badAddresses.flatMap fun id => id.1.text ++ (if id.2 then [] else Bytes.lit ", ")
    some (Bytes.lit "X-Fetchmail-Warning: " ++ bad)

/-! ## Shipping the headers -/

/-- Go back to the start of the line that `i` is in. -/
def lineStart (h : Bytes) (i : Nat) : Nat :=
  i - ((h.take i).reverse.takeWhile (· ≠ Bytes.lf)).length

/-- Where the trace lines go: ahead of the line with the first `Received:`, or of all. -/
def receivedAt (h : Bytes) : Nat :=
  match Bytes.findSub (Bytes.lit "Received:") (Bytes.cstr h) with
  | some i => lineStart h i
  | none => 0

section

variable (c : HeaderCtl)

/-- Hand a buffer to `stuffline`; `none` when the sink does not take it. -/
def ship (out mem : Bytes) : Option Bytes :=
  let written := (stuffline c.line mem).written
  if c.accepts (out ++ written) then some (out ++ written) else none

/-- Ship lines of fetchmail's own, each put into a buffer. -/
def shipLines : (out : Bytes) → List Bytes → Option Bytes
  | out, [] => some out
  | out, text :: texts =>
    (ship c out (text ++ Bytes.crlf ++ [Bytes.nul])).bind fun out => shipLines out texts

/-- The headers up to the trace lines, ended by a zero byte that is put over the next byte. -/
def headBuffer (h : Bytes) : Bytes :=
  h.take (receivedAt h) ++ Bytes.nul :: (h.drop (receivedAt h + 1) ++ [Bytes.nul])

/-- The rest of the headers. The byte under the zero byte has been put back; what the bytes
behind are depends on what `stuffline` did to its buffer. -/
def restBuffer (h : Bytes) : Bytes :=
  if receivedAt h = 0 then h ++ [Bytes.nul]
  else h.getD (receivedAt h) Bytes.nul ::
    (stuffline c.line (headBuffer h)).mem.drop (receivedAt h + 1)

/-- Ship the headers and the trace lines. -/
def shipHeaders (h : Bytes) (t : TraceInfo) : Option Bytes :=
  (if receivedAt h = 0 then some [] else ship c [] (headBuffer h)).bind fun out =>
    (if c.invisible then some out else shipLines c out (receivedLines t)).bind fun out =>
      ship c out (restBuffer c h)

/-- What `readheaders` does in the end. -/
inductive HeaderResult where
  /-- the headers were not shipped -/
  | stopped (status : Ps)
  /-- the headers were shipped, and everything written to the sink is `out` -/
  | shipped (status : Ps) (headers : Bytes) (hasNuls : Bool) (out : Bytes)
  deriving DecidableEq, Repr

/-- Write the warning and the empty line that ends the headers. -/
def finishHeaders (h out : Bytes) (hasNuls : Bool) : HeaderResult :=
  let warning := warningLine (c.address h).warning hasNuls
  -- a warning that the sink does not take is forgotten
  let out := ((warning.map fun text => ship c out (text ++ Bytes.crlf ++ [Bytes.nul])).getD
    (some out)).getD out
  let r := stuffline c.line (Bytes.crlf ++ [Bytes.nul])
  if c.accepts (out ++ r.written) then
    .shipped (if r.n = (Bytes.cstr r.mem).length then .success else .socket) h hasNuls
      (out ++ r.written)
  else .shipped .socket h hasNuls out

/-- `readheaders` -/
def readheaders (stream : Bytes) (fetchlen : Int) : HeaderResult :=
  match collectHeaders c (stream.length + 1)
      ⟨stream, fetchlen, none, false, false, false, none, false⟩ with
  | none => .stopped .socket
  | some s =>
    if s.retainMail then .stopped .retained
    else if s.refuseMail then .stopped .refused
    else if (s.headers.map c.duplicate).getD false then .stopped .refused
    else
      let h := s.headers.getD (fakeHeaders c)
      let a := c.address h
      if a.status ≠ .success then .stopped a.status
      else
        match shipHeaders c h a.trace with
        | none => .stopped .ioerr
        | some out => finishHeaders c h out s.hasNuls

end

end Fetchmail.Transact
