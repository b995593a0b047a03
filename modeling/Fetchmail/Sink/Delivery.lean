import Fetchmail.Driver.FetchMessages
import Fetchmail.Sink.Smtp

/-!
# Delivery to an SMTP or LMTP Listener

The functions of `sink.c` through which a message reaches the listener: `smtp_setup`,
`open_smtp_sink` with its envelope commands, `close_sink` with the end-of-message dialogue,
and the functions that turn a negative reply into a return code or a bounce. `transact`
puts them behind the interface that the fetch loop calls.

The build is the default one: `EXPLICIT_BOUNCE_ON_BAD_ADDRESS`, which `sink.c` defines
itself, but not `__DONT_FEED_THE_SPAMMERS__`, and no fallback MDA. What surrounds the
dialogue (parsing the headers, the hunt for a listener that is up, writing lines to it, the
dialogue that a bounce is sent with) is `External`, arbitrary.
-/

namespace Fetchmail.Sink

open Fetchmail.Lib
open Fetchmail.Driver

/-- What the sink reads of `struct query` and `struct runctl`. -/
structure SinkCtl where
  /-- `ctl->antispam` -/
  antispam : List Int
  /-- `ctl->batchlimit` -/
  batchlimit : Int
  /-- `ctl->smtpname` -/
  smtpname : Option Bytes
  /-- `run.bouncemail` -/
  bouncemail : Bool
  /-- `run.spambounce` -/
  spambounce : Bool
  /-- `run.postmaster` -/
  postmaster : Bytes
  deriving Repr

/-- How `readheaders` gets to `open_sink`, if it does. -/
inductive Collected where
  /-- it returns before -/
  | early (result : HeaderResult)
  /-- the message and its recipients -/
  | addressed (msg : Msgblk)

/-- What the hunt for a listener ends with. -/
structure Hunted where
  /-- whether one was found; the rest is set in either case -/
  found : Bool
  mode : Mode
  destaddr : Bytes
  replies : List Bytes
  smtpResponse : Bytes
  /-- a host that did not take `EHLO` was hung up on, which sets `batchcount` to zero -/
  hungUp : Bool

/-- The functions around the dialogue. -/
structure External (ω : Type) where
  /-- `readheaders` up to the call of `open_sink` -/
  collect : Int → Int → Nat → Bool → ω → Collected × ω
  /-- whether the connection has been idle for longer than `mytimeout` -/
  stale : ω → Bool × ω
  /-- the hunt of `smtp_setup` through the SMTP hosts, greeting and `EHLO` included -/
  hunt : ω → Hunted × ω
  /-- `readheaders` after `open_sink` succeeded, with the numbers of good and bad addresses -/
  ship : Nat → Nat → ω → HeaderResult × ω
  /-- `readbody` -/
  readbody : Bool → Int → ω → Ps × ω
  /-- what `send_bouncemail` fills in -/
  bounceHost : BounceHost
  /-- `send_bouncemail` up to its `DATA`: whether that is accepted, and `smtp_response` -/
  bounceOpen : Bytes → Bytes × ω → Bool × Bytes × ω
  /-- `send_bouncemail` from there on: whether the bounce is sent, and `smtp_response` -/
  bounceClose : Bytes → Bytes × ω → Bool × Bytes × ω

section

variable {ω : Type} (k : SinkCtl) (x : External ω)

/-! ## The connection -/

/-- Maybe it's time to close the socket in order to force delivery: it has been idle. -/
def closeStale : SmtpM ω Unit := do
  let stale ← Act.lift fun w => let r := x.stale w.rest; (r.1, { w with rest := r.2 })
  if stale then smtpClose true

/-- Or it has taken a batch of messages. -/
def closeBatch : SmtpM ω Unit := do
  if 0 < k.batchlimit then
    let batchcount ← Act.gets Listener.batchcount
    if batchcount = k.batchlimit then smtpClose true
    Act.modify fun w => { w with batchcount := w.batchcount + 1 }

/-- Look for a listener that is up. -/
def raiseListener : SmtpM ω Unit :=
  Act.modify fun w =>
    let (h, rest) := x.hunt w.rest
    { w with
      isOpen := h.found, mode := h.mode, replies := h.replies, destaddr := h.destaddr,
      batchcount := if h.hungUp then 0 else w.batchcount,
      smtpResponse := h.smtpResponse, rest := rest,
      wire := if h.found then w.wire ++ [.opened] else w.wire }

/-- `smtp_setup`: whether there is a connection. -/
def smtpSetup : SmtpM ω Bool := do
  closeStale x
  closeBatch k
  let isOpen ← Act.gets Listener.isOpen
  if !isOpen then raiseListener x
  Act.gets Listener.isOpen

/-! ## Negative replies -/

/-- The dialogue of a bounce, which uses the same `smtp_response`. -/
def bounceDialogue (f : Bytes × ω → Bool × Bytes × ω) : SmtpM ω Bool :=
  Act.lift fun w =>
    let r := f (w.smtpResponse, w.rest)
    (r.1, { w with smtpResponse := r.2.1, rest := r.2.2 })

/-- `send_bouncemail` -/
def sendBouncemail (userclass : Xmit) (message : Bytes) (errors : List Bytes) : SmtpM ω Bool := do
  let msg ← Act.gets Listener.msg
  if !msg.bounceable then return true
  let bounceTo := if k.bouncemail then msg.returnPath else k.postmaster
  if !(← bounceDialogue (x.bounceOpen bounceTo)) then return false
  let destaddr ← Act.gets Listener.destaddr
  let listed := listing (rcptAddress k.smtpname destaddr) userclass errors msg.recipients 0
  let text := bounceText x.bounceHost bounceTo message listed errors.length msg.headers
  Act.modify fun w => { w with bounces := w.bounces ++ [⟨bounceTo, listed, text⟩] }
  bounceDialogue (x.bounceClose text)

/-- Send a bounce about one reply to all recipients, where the user wants such bounces. -/
def bounceIf (wanted : Bool) (message response : Bytes) : SmtpM ω Unit := do
  if wanted then let _ ← sendBouncemail k x .accept message [response]

/-- The reason given for a bounce that `spambounce` asked for. -/
def rejmsg (response : Bytes) : Bytes :=
  (Bytes.lit "spam filter or virus scanner rejected message because:\r\n" ++ response ++
    Bytes.crlf).take 159

/-- `handle_smtp_report` -/
def handleSmtpReport : SmtpM ω Ps := do
  let response ← Act.gets Listener.smtpResponse
  let smtperr := smtperr response
  if smtperr ∈ k.antispam then
    bounceIf k x k.spambounce (rejmsg response) response
    return .refused
  if smtperr = 552 then
    bounceIf k x k.bouncemail (Bytes.lit "This message was too large (SMTP error 552).\r\n") response
    return .refused
  if smtperr = 553 then return .refused
  if smtperr = 530 then return .transient
  if permanent smtperr then
    bounceIf k x k.bouncemail (Bytes.lit "General SMTP/ESMTP error.\r\n") response
    return .refused
  return .transient

/-- `handle_smtp_report_without_bounce` -/
def handleSmtpReportWithoutBounce (smtpResponse : Bytes) : Ps :=
  let smtperr := smtperr smtpResponse
  if smtperr ∈ k.antispam then
    if k.spambounce then .success else .refused
  else if smtperr = 552 then
    if k.bouncemail then .success else .refused
  else if smtperr = 553 then .refused
  else if permanent smtperr then .success
  else .transient

/-! ## The envelope -/

/-- How the recipients fared. -/
structure Tally where
  /-- `*good_addresses` -/
  good : Nat
  /-- `from_responses`; there are `*bad_addresses` of them -/
  fromResponses : List Bytes
  /-- `force_transient_error` -/
  forceTransient : Bool

/-- `RCPT TO` for one recipient; `none` when the connection failed. -/
def rcptTo (r : Recipient) (t : Tally) : SmtpM ω (Option (Recipient × Tally)) := do
  if r.mark ≠ .accept then return some (r, t)
  match ← smtpOk .rcpt with
  | .unrecoverable => return none
  | .ok => return some (r, { t with good := t.good + 1 })
  | .error =>
    let response ← Act.gets Listener.smtpResponse
    match handleSmtpReportWithoutBounce k response with
    | .transient => return some (r, { t with forceTransient := true })
    | .success =>
      return some ({ r with mark := .rcptbad },
        { t with fromResponses := t.fromResponses ++ [response] })
    | _ => return some (r, t)

/-- The loop over the recipients: whether the connection lasted, the tally, and the
recipients with the marks they have then. -/
def rcptLoop : List Recipient → Tally → SmtpM ω (Bool × Tally × List Recipient)
  | [], t => return (true, t, [])
  | r :: rs, t => do
    match ← rcptTo k r t with
    | none => return (false, t, r :: rs)
    | some (r', t') =>
      let (lasted, t'', rs') ← rcptLoop rs t'
      return (lasted, t'', r' :: rs')

/-- What `open_sink` hands back. -/
structure Opened where
  err : Ps
  /-- `*good_addresses` -/
  good : Nat
  /-- `*bad_addresses` -/
  bad : Nat
  deriving DecidableEq, Repr

/-- `RCPT TO` for the postmaster, when no recipient was good; `none` to go on. -/
def rcptPostmaster : SmtpM ω (Option Ps) := do
  if k.postmaster = [] then
    smtpRset
    return some .refused
  match ← smtpOk .postmaster with
  | .unrecoverable =>
    smtpClose false
    return some .transient
  | .error =>
    smtpRset
    return some .refused
  | .ok => return none

/-- `DATA`, and the number of replies to expect after an LMTP message. -/
def openData (good : Nat) : SmtpM ω Ps := do
  match ← smtpOk .data with
  | .unrecoverable =>
    smtpClose false
    return .transient
  | .error =>
    let err ← handleSmtpReport k x
    smtpRset
    return err
  | .ok =>
    Act.modify fun w => { w with lmtpResponses := good }
    return .success

/-- Bounce to those recipients that the listener rejected. -/
def bounceRejected (fromResponses : List Bytes) : SmtpM ω Unit := do
  if fromResponses ≠ [] then
    let _ ← sendBouncemail k x .rcptbad
      (Bytes.lit "Some addresses were rejected by the MDA fetchmail forwards to.\r\n")
      fromResponses

/-- A last resort, and `DATA`. -/
def openMessage (good : Nat) : SmtpM ω Ps := do
  if good = 0 then
    match ← rcptPostmaster k with
    | some err => return err
    | none => openData k x good
  else openData k x good

/-- The recipients and `DATA`. On every way out `*bad_addresses` has been counted down to
zero, since it is the index with which `from_responses` is freed. -/
def openRecipients : SmtpM ω Opened := do
  let msg ← Act.gets Listener.msg
  let (lasted, t, recipients) ← rcptLoop k msg.recipients ⟨0, [], false⟩
  Act.modify fun w => { w with msg := { w.msg with recipients := recipients } }
  if !lasted then
    smtpClose false
    return ⟨.transient, t.good, 0⟩
  if t.forceTransient then
    smtpRset
    return ⟨.transient, t.good, 0⟩
  bounceRejected k x t.fromResponses
  let err ← openMessage k x t.good
  return ⟨err, t.good, 0⟩

/-- `open_smtp_sink` -/
def openSmtpSink : SmtpM ω Opened := do
  match ← smtpOk .mailFrom with
  | .unrecoverable =>
    smtpClose false
    return ⟨.transient, 0, 0⟩
  | .error =>
    let err ← handleSmtpReport k x
    smtpRset
    return ⟨err, 0, 0⟩
  | .ok => openRecipients k x

/-- `open_sink`, without MDA and BSMTP -/
def openSink : SmtpM ω Opened := do
  if ← smtpSetup k x then openSmtpSink k x else return ⟨.smtp, 0, 0⟩

/-! ## End of message -/

/-- The replies to an LMTP message, errors saved; `none` when the connection failed. -/
def lmtpReplies : Nat → List Bytes → SmtpM ω (Option (List Bytes))
  | 0, errors => return some errors
  | n + 1, errors => do
    match ← smtpOk (.eom .lmtp) with
    | .unrecoverable => return none
    | .ok => lmtpReplies n errors
    | .error => do
      let response ← Act.gets Listener.smtpResponse
      lmtpReplies n (errors ++ [response])

/-- The LMTP end-of-message dialogue: one reply per good recipient. -/
def lmtpEom : SmtpM ω Bool := do
  let responses ← Act.gets Listener.lmtpResponses
  if responses = 0 then
    let _ ← smtpOk (.eom .lmtp)
    return false
  match ← lmtpReplies responses [] with
  | none =>
    smtpClose false
    return false
  | some [] => return true
  | some errors =>
    let sent ← sendBouncemail k x .accept (Bytes.lit "LMTP partial delivery failure.\r\n") errors
    Act.emit (.partialBounce sent)
    return sent

/-- `close_sink`, without MDA and BSMTP -/
def closeSink (forward : Bool) : SmtpM ω Bool := do
  if !forward then return true
  match ← smtpEom with
  | .unrecoverable =>
    smtpClose false
    return false
  | .error =>
    let err ← handleSmtpReport k x
    smtpRset
    return err = .refused
  | .ok =>
    match ← Act.gets Listener.mode with
    | .smtp => return true
    | .lmtp => lmtpEom k x

end

/-! ## Behind the interface of the fetch loop -/

/-- The listener, and what it answered, message by message. -/
structure Session (ω : Type) where
  listener : Listener ω
  /-- the message that `readheaders` was last called for -/
  num : Nat
  /-- answers of the listener so far, with the message each was about -/
  log : List (Nat × Answer)

section

variable {ω : Type} (k : SinkCtl) (x : External ω)

/-- Conduct a piece of dialogue about the current message. -/
def Session.conduct {α : Type} (s : Session ω) (a : SmtpM ω α) : α × Session ω :=
  let o := a.run s.listener
  (o.val, { s with listener := o.state, log := s.log ++ o.trace.map (s.num, ·) })

/-- Let a function that does not talk to the listener act. -/
def Session.aside {α : Type} (f : ω → α × ω) (s : Session ω) : α × Session ω :=
  let r := f s.listener.rest
  (r.1, { s with listener := { s.listener with rest := r.2 } })

/-- `readheaders` from its call of `open_sink` on. -/
def shipHeaders (msg : Msgblk) (s : Session ω) : HeaderResult × Session ω :=
  let r := Session.conduct { s with listener := { s.listener with msg := msg } } (openSink k x)
  if r.1.err = .success then r.2.aside (x.ship r.1.good r.1.bad) else (⟨r.1.err, false, 0⟩, r.2)

/-- `readheaders` -/
def readheaders (reallen fetchlen : Int) (num : Nat) (suppressible : Bool) (s : Session ω) :
    HeaderResult × Session ω :=
  let r := Session.aside (x.collect reallen fetchlen num suppressible) { s with num := num }
  match r.1 with
  | .early result => (result, r.2)
  | .addressed msg => shipHeaders k x msg r.2

/-- The transaction layer over the SMTP sink. -/
def transact : Transact (Session ω) where
  readheaders := readheaders k x
  readbody forward len := Session.aside (x.readbody forward len)
  closeSink forward s := s.conduct (closeSink k x forward)

/-- Protocol methods do not talk to the listener. -/
def sessionMethod (m : Method ω) : Method (Session ω) where
  isOld := m.isOld.map fun f num => Session.aside (f num)
  getpartialsizes := m.getpartialsizes.map fun f first last sizes =>
    Session.aside (f first last sizes)
  fetchHeaders num := Session.aside (m.fetchHeaders num)
  fetchBody := m.fetchBody.map fun f num => Session.aside (f num)
  trail := m.trail.map Session.aside
  deleteMsg := m.deleteMsg.map fun f num => Session.aside (f num)
  markSeen := m.markSeen.map fun f num => Session.aside (f num)

end

end Fetchmail.Sink
