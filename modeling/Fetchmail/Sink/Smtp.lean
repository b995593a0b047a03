import Fetchmail.Lib.Act
import Fetchmail.Lib.Bytes
import Fetchmail.Sink.Bounce

/-!
# The SMTP Client

`smtp.c`: the commands of an SMTP or LMTP transaction and `SMTP_ok`, which reads one reply
of any number of lines. The socket to the listener is the list of lines that `SockRead`
will still deliver on it; on a closed socket there are none. What a command says does not
influence the client, so a command is its `Stage` and its effect is that of the reply.

Every complete reply leaves an `Answer` in the trace. The listener's side of the story is
kept in the state: `wire` records every command with what became of it, over all
connections.
-/

namespace Fetchmail.Sink

open Fetchmail.Lib

/-! ## Connection state -/

/-- `SM_OK`, `SM_ERROR`, `SM_UNRECOVERABLE`. -/
inductive SmtpStatus where
  | ok
  | error
  | unrecoverable
  deriving DecidableEq, Repr

/-- `smtphostmode` -/
inductive Mode where
  | smtp
  | lmtp
  deriving DecidableEq, Repr

/-- The command a reply belongs to. -/
inductive Stage where
  | mailFrom
  | rcpt
  /-- `RCPT TO` for the postmaster, when no recipient was good -/
  | postmaster
  | data
  | rset
  | quit
  /-- the end-of-message dot -/
  | eom (mode : Mode)
  deriving DecidableEq, Repr

/-- A complete reply of the listener, as `SMTP_ok` judged and saved it, or the outcome of
sending the LMTP failure list back to the sender. -/
inductive Answer where
  | reply (stage : Stage) (status : SmtpStatus) (smtpResponse : Bytes)
  | partialBounce (sent : Bool)
  deriving DecidableEq, Repr

/-- What passes over the wire. -/
inductive Wire where
  | opened
  /-- a command and the reply to it; over LMTP each reply to the end of a message -/
  | exchange (stage : Stage) (status : SmtpStatus) (smtpResponse : Bytes)
  /-- the end-of-message dot of an LMTP message -/
  | dot
  | closed
  deriving DecidableEq, Repr

/-- The connection to the listener; `ω` is the rest of the world. -/
structure Listener (ω : Type) where
  /-- `smtp_socket` is not -1 -/
  isOpen : Bool
  mode : Mode
  /-- lines still to be read from the socket -/
  replies : List Bytes
  /-- `destaddr` -/
  destaddr : Bytes
  /-- the global `batchcount` -/
  batchcount : Nat
  /-- the global `smtp_response` -/
  smtpResponse : Bytes
  /-- the static `lmtp_responses` -/
  lmtpResponses : Nat
  /-- the global `msgblk` -/
  msg : Msgblk
  /-- what has passed over the wire so far -/
  wire : List Wire
  /-- the bounces composed so far -/
  bounces : List Bounce
  rest : ω

abbrev SmtpM (ω : Type) := Act (Listener ω) Answer

/-! ## Replies -/

/-- `MSGBUFSIZE` -/
def msgbufsize : Nat := 8192

/-- A line without its line end. -/
def chompReply (line : Bytes) : Bytes :=
  Bytes.chop Bytes.cr (Bytes.chop Bytes.lf (Bytes.cstr line))

/-- The same, control characters stomped over. -/
def cleanReply (line : Bytes) : Bytes :=
  (chompReply line).map fun b => if Bytes.iscntrl b then 63 else b

/-- `strchr(" -", reply[3])` of a reply of at least three characters; the terminating zero
counts as found. -/
def replyCode (reply : Bytes) : Bool :=
  3 ≤ reply.length && Bytes.charAt reply 3 ∈ [Bytes.space, Bytes.dash, Bytes.nul]

/-- A final line that reports success. -/
def replyGood (reply : Bytes) : Bool :=
  Bytes.charAt reply 0 ∈ [49, 50, 51] && Bytes.isdigit (Bytes.charAt reply 1) &&
    Bytes.isdigit (Bytes.charAt reply 2) && Bytes.charAt reply 3 ∈ [Bytes.space, Bytes.nul]

/-- The loop of `SMTP_ok` over the lines of a reply: status, `smtp_response`, lines left. -/
def smtpOkLoop (smtpResponse : Bytes) : List Bytes → SmtpStatus × Bytes × List Bytes
  | [] => (.unrecoverable, smtpResponse, [])
  | line :: lines =>
    let reply := cleanReply line
    if !replyCode reply then (.unrecoverable, smtpResponse, lines)
    else
      let smtpResponse := Bytes.strlcat smtpResponse reply msgbufsize
      if replyGood reply then (.ok, smtpResponse, lines)
      else if Bytes.charAt reply 3 ≠ Bytes.dash then (.error, smtpResponse, lines)
      else smtpOkLoop (Bytes.strlcat smtpResponse Bytes.crlf msgbufsize) lines

/-- `ESMTP_8BITMIME`, `ESMTP_SIZE`, `ESMTP_ETRN`, `ESMTP_AUTH`: bits of `esmtp_options`. -/
inductive Extension where
  | eightBitMime
  | size
  | etrn
  | auth
  deriving DecidableEq, Repr

/-- The table `extensions`, without ODMR. -/
def extensions : List (Bytes × Extension) :=
  [(Bytes.lit "8BITMIME", .eightBitMime), (Bytes.lit "SIZE", .size), (Bytes.lit "ETRN", .etrn),
    (Bytes.lit "AUTH ", .auth)]

/-- What `SMTP_ehlo` learns of the listener. -/
structure EhloInfo where
  /-- `*opt` -/
  opt : List Extension
  /-- `auth_response`, once a line has announced `AUTH` -/
  authResponse : Option Bytes
  deriving DecidableEq, Repr

/-- One line of the reply to `EHLO`, of at least four characters. -/
def EhloInfo.scan (i : EhloInfo) (line : Bytes) : EhloInfo :=
  extensions.foldl (fun i e =>
    if Bytes.startsWithCI (line.drop 4) e.1 then
      ⟨i.opt ++ [e.2], if e.2 = .auth then some (line.take 510) else i.authResponse⟩
    else i) i

/-- The loop of `SMTP_ehlo`: status, what was announced, lines left. -/
def smtpEhloLoop (i : EhloInfo) : List Bytes → SmtpStatus × EhloInfo × List Bytes
  | [] => (.unrecoverable, i, [])
  | line :: lines =>
    let smtpResponse := chompReply line
    if smtpResponse.length < 4 then (.error, i, lines)
    else
      let i := i.scan smtpResponse
      if Bytes.charAt smtpResponse 0 ∈ [49, 50, 51] ∧ Bytes.charAt smtpResponse 3 = Bytes.space then
        (.ok, i, lines)
      else if Bytes.charAt smtpResponse 3 ≠ Bytes.dash then (.error, i, lines)
      else smtpEhloLoop i lines

section

variable {ω : Type}

/-- `SMTP_ok` -/
def smtpOk (stage : Stage) : SmtpM ω SmtpStatus := do
  let (status, smtpResponse, replies) ← Act.gets fun w => smtpOkLoop [] w.replies
  Act.modify fun w =>
    { w with
      smtpResponse := smtpResponse, replies := replies,
      wire := w.wire ++ [.exchange stage status smtpResponse] }
  if status ≠ .unrecoverable then Act.emit (.reply stage status smtpResponse)
  return status

/-- `SMTP_eom`: over LMTP the replies are left to the caller. -/
def smtpEom : SmtpM ω SmtpStatus := do
  match ← Act.gets Listener.mode with
  | .smtp => smtpOk (.eom .smtp)
  | .lmtp =>
    Act.modify fun w => { w with wire := w.wire ++ [.dot] }
    return .ok

/-- `smtp_close` -/
def smtpClose (sayquit : Bool) : SmtpM ω Unit := do
  if ← Act.gets Listener.isOpen then
    if sayquit then let _ ← smtpOk .quit
    Act.modify fun w => { w with isOpen := false, replies := [], wire := w.wire ++ [.closed] }
  Act.modify fun w => { w with batchcount := 0 }

/-- `smtp_rset` -/
def smtpRset : SmtpM ω Unit := do
  let status ← smtpOk .rset
  if status = .unrecoverable then smtpClose false

end

/-! ## Reply codes -/

/-- The reply code as the code reads it, `atoi(smtp_response)`. -/
def smtperr (smtpResponse : Bytes) : Int := Bytes.atoi smtpResponse

/-- A permanent negative reply. -/
def permanent (code : Int) : Bool := 500 ≤ code && code ≤ 599

end Fetchmail.Sink
