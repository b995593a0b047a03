import Fetchmail.Basic
import Fetchmail.Lib.Act

/-!
# The Fetch Loop

`fetch_messages` of `driver.c`: the lockstep loop over the messages of one mailbox. The
protocol methods and the transaction layer are function pointers and external functions in
the source; here they are the fields of `Method` and `Transact`, state transformers over an
arbitrary world `σ`. Each call leaves a `Call` in the trace, tagged with the message it was
made for.

The loop body is cut at the places where the source changes its subject:

- `checkOld`, the `is_old` test;
- `getSizes`, the window of sizes for `fetchsizelimit`;
- `retrieve`, headers, body and end-of-message processing;
- `flagthemail`, from the label of that name to the end of the loop body.

Reports and progress dots are left out, as is `mark_oversized`, which only collects sizes
for a warning mail.
-/

namespace Fetchmail.Driver

open Fetchmail.Lib

/-! ## Settings and interfaces -/

/-- What `fetch_messages` reads of `struct query`, `struct runctl` and the globals. -/
structure Ctl where
  protocol : Protocol
  keep : Bool
  flush : Bool
  fetchall : Bool
  limit : Int
  limitflush : Bool
  fetchsizelimit : Int
  /-- `ctl->errcount` as the previous pass left it -/
  errcount : Nat
  /-- `run.softbounce` -/
  softbounce : Bool
  /-- the global `peek_capable`, set by the protocol's `getauth` -/
  peekCapable : Bool
  deriving Repr

/-- The members of `struct method` that the loop calls; `none` is a null pointer. -/
structure Method (σ : Type) where
  isOld : Option (Nat → σ → Bool × σ)
  /-- called with the first and last message and the zeroed array, which it fills -/
  getpartialsizes : Option (Nat → Nat → List Int → σ → (Ps × List Int) × σ)
  /-- the second component is `*lenp` -/
  fetchHeaders : Nat → σ → (Ps × Int) × σ
  fetchBody : Option (Nat → σ → (Ps × Int) × σ)
  trail : Option (σ → Ps × σ)
  deleteMsg : Option (Nat → σ → Ps × σ)
  markSeen : Option (Nat → σ → Ps × σ)

/-- What `readheaders` hands back. -/
structure HeaderResult where
  err : Ps
  /-- `*suppress_readbody`, when the caller passed a pointer for it -/
  suppressReadbody : Bool
  /-- `msgblk.msglen` -/
  msglen : Int
  deriving DecidableEq, Repr

/-- The functions of `transact.c` and `sink.c` that the loop calls. -/
structure Transact (σ : Type) where
  /-- `reallen`, `fetchlen`, `num`, and whether a `suppress_readbody` pointer is passed -/
  readheaders : Int → Int → Nat → Bool → σ → HeaderResult × σ
  readbody : Bool → Int → σ → Ps × σ
  closeSink : Bool → σ → Bool × σ

/-- One call made by the loop, with the part of its result that matters. -/
inductive Call where
  | isOld (num : Nat) (old : Bool)
  | getpartialsizes (first last : Nat) (err : Ps) (sizes : List Int)
  | fetchHeaders (num : Nat) (err : Ps)
  | readheaders (num : Nat) (err : Ps) (suppressReadbody : Bool)
  | trail (num : Nat) (err : Ps)
  | fetchBody (num : Nat) (err : Ps)
  | readbody (num : Nat) (forward : Bool) (err : Ps)
  | closeSink (num : Nat) (forward : Bool) (ok : Bool)
  | deleteMsg (num : Nat) (err : Ps)
  | markSeen (num : Nat) (err : Ps)
  deriving DecidableEq, Repr

/-! ## Variables of the loop -/

/-- `msgcode`: zero while nothing is known, else why the message is not fetched. -/
inductive MsgLen where
  | unknown
  | toolarge
  | old
  deriving DecidableEq, Repr

/-- Variables that live across iterations, output parameters included. -/
structure Loop where
  firstnum : Nat
  lastnum : Nat
  /-- `*msgsizes`; `none` is a null pointer -/
  msgsizes : Option (List Int)
  fetches : Nat
  dispatches : Nat
  deletions : Nat
  transientErrors : Nat
  errcount : Nat
  deriving DecidableEq, Repr

/-- The flags of one iteration that are read after the label `flagthemail`. -/
structure Flags where
  msgcode : MsgLen
  suppressDelete : Bool
  suppressForward : Bool
  retained : Bool
  deriving DecidableEq, Repr

/-- How a part of the loop body ends. -/
inductive Next where
  /-- go on to the next message -/
  | nextMessage (l : Loop)
  /-- `return(err)` -/
  | leave (err : Ps) (l : Loop)
  /-- `goto flagthemail`, or falling through to it -/
  | flagthemail (f : Flags) (l : Loop)
  deriving DecidableEq, Repr

/-- `fetchsizelimit` after the adjustment for the POP3 family. -/
def Ctl.sizeLimit (c : Ctl) : Nat :=
  match c.protocol with
  | .pop3 | .apop | .rpop => 1
  | _ => c.fetchsizelimit.toNat

theorem one_le_sizeLimit {c : Ctl} (h : 0 < c.fetchsizelimit) : 1 ≤ c.sizeLimit := by
  unfold Ctl.sizeLimit
  split <;> omega

/-- Sizes are fetched in windows rather than all at the start. -/
def partialSizes {σ : Type} (c : Ctl) (m : Method σ) : Bool :=
  m.getpartialsizes.isSome && numNonzero c.fetchsizelimit

/-- The message is over the limit the user set. -/
def Ctl.oversized (c : Ctl) (msgsize : Int) : Bool :=
  numNonzero c.limit && c.limit < msgsize

/-- `force_retrieval`: after errors in the last pass, a server that cannot be peeked at is
asked for everything again. -/
def Ctl.forceRetrieval (c : Ctl) : Bool :=
  !c.peekCapable && 0 < c.errcount

/-- `*msgsizes ? (*msgsizes)[i] : 0` -/
def sizeAt (msgsizes : Option (List Int)) (i : Nat) : Int :=
  match msgsizes with
  | some sizes => sizes.getD i 0
  | none => 0

/-- The size of message `num` in the array at hand. -/
def Loop.msgsize (l : Loop) (num : Nat) : Int :=
  sizeAt l.msgsizes (num - l.firstnum)

/-- The flags after `readheaders` returned `err`; `none` where its error ends the pass. -/
def headerFlags : Ps → Option Flags
  | .success => some ⟨.unknown, false, false, false⟩
  | .retained => some ⟨.unknown, true, true, true⟩
  | .transient => some ⟨.unknown, true, true, false⟩
  | .refused => some ⟨.unknown, false, true, false⟩
  | _ => none

/-- `if (err == PS_TRANSIENT) (*transient_errors)++` -/
def Loop.countTransient (l : Loop) (err : Ps) : Loop :=
  if err = .transient then { l with transientErrors := l.transientErrors + 1 } else l

section

variable {σ : Type} (c : Ctl) (m : Method σ) (t : Transact σ)

/-! ## The parts of the loop body -/

/-- `is_old`, asked only where the answer can matter. -/
def checkOld (num : Nat) : Act σ Call Bool :=
  if c.fetchall || c.forceRetrieval then pure false
  else
    match m.isOld with
    | none => pure false
    | some isOld => do
      let old ← Act.lift (isOld num)
      Act.emit (.isOld num old)
      return old

/-- The next window of sizes, when message `num` lies beyond the present one. -/
def getSizes (count num : Nat) (l : Loop) : Act σ Call (Except Ps Loop) :=
  match m.getpartialsizes with
  | none => pure (.ok l)
  | some getpartialsizes =>
    if numNonzero c.fetchsizelimit && l.lastnum < num then do
      let lastnum := min (num + c.sizeLimit - 1) count
      let (err, sizes) ← Act.lift (getpartialsizes num lastnum (List.replicate c.sizeLimit 0))
      Act.emit (.getpartialsizes num lastnum err sizes)
      let l' := { l with firstnum := num, lastnum := lastnum, msgsizes := some sizes }
      return if err = .success then .ok l' else .error err
    else pure (.ok l)

/-- `eat_trailer`, where the protocol has one. -/
def eatTrailer (num : Nat) : Act σ Call Ps :=
  match m.trail with
  | none => pure .success
  | some trail => do
    let err ← Act.lift trail
    Act.emit (.trail num err)
    return err

/-- The trailer of a separately fetched header. -/
def headerTrailer (num : Nat) : Act σ Call Ps :=
  if m.fetchBody.isSome then eatTrailer m num else pure .success

/-- The body request of a protocol that fetches it separately; yields the length to read. -/
def requestBody (num : Nat) (len msgsize msglen : Int) : Act σ Call (Except Ps Int) :=
  match m.fetchBody with
  | none => pure (.ok len)
  | some fetchBody => do
    let (err, len') ← Act.lift (fetchBody num)
    Act.emit (.fetchBody num err)
    -- a body response without a length: what the headers left over
    let bodylen := if len' = -1 then msgsize - msglen else len'
    return if err = .success then .ok bodylen else .error err

/-- The body is requested, read and its trailer eaten; yields what `readbody` returned when
the loop goes on after it, that is `success` or `transient`. -/
def processBody (num : Nat) (forward : Bool) (len msgsize msglen : Int) :
    Act σ Call (Except Ps Ps) := do
  match ← requestBody m num len msgsize msglen with
  | .error err => return .error err
  | .ok len =>
    let err ← Act.lift (t.readbody forward len)
    Act.emit (.readbody num forward err)
    if err = .success ∨ err = .transient then
      let trailErr ← eatTrailer m num
      return if trailErr = .success then .ok err else .error trailErr
    else return .error err

/-- The flags after `readbody` returned `err`. -/
def Flags.afterBody (f : Flags) (err : Ps) : Flags :=
  if err = .transient then { f with suppressDelete := true, suppressForward := true } else f

/-- End-of-message processing, from the dispatch counter to the fetch counter. -/
def finishMessage (num : Nat) (f : Flags) (l : Loop) : Act σ Call Next := do
  let l := if f.suppressForward then l else { l with dispatches := l.dispatches + 1 }
  let ok ← Act.lift (t.closeSink (!f.suppressForward))
  Act.emit (.closeSink num (!f.suppressForward) ok)
  let l := if ok then l else { l with errcount := l.errcount + 1 }
  let l := if f.retained then l else { l with fetches := l.fetches + 1 }
  return .flagthemail { f with suppressDelete := f.suppressDelete || !ok } l

/-- Body and end of a message whose headers left the flags `f`. -/
def retrieveBody (num : Nat) (f : Flags) (suppressReadbody : Bool) (len msgsize msglen : Int)
    (l : Loop) : Act σ Call Next := do
  let err ← headerTrailer m num
  if err ≠ .success then return .leave err l
  if suppressReadbody || (m.fetchBody.isSome && f.suppressForward) then finishMessage t num f l
  else
    match ← processBody m t num (!f.suppressForward) len msgsize msglen with
    | .error err => return .leave err l
    | .ok err => finishMessage t num (f.afterBody err) (l.countTransient err)

/-- A message of acceptable age and size: request it, read it, deliver it. -/
def retrieve (num : Nat) (msgsize : Int) (l : Loop) : Act σ Call Next := do
  let (err, len) ← Act.lift (m.fetchHeaders num)
  Act.emit (.fetchHeaders num err)
  if err = .transient then return .nextMessage (l.countTransient err)
  if err ≠ .success then return .leave err l
  let len := if len = -1 then msgsize else len
  let separatefetchbody := m.fetchBody.isSome
  let h ← Act.lift (t.readheaders len msgsize num (!separatefetchbody))
  -- a protocol that fetches the body separately passes no pointer for the flag
  let suppressReadbody := !separatefetchbody && h.suppressReadbody
  Act.emit (.readheaders num h.err suppressReadbody)
  match headerFlags h.err with
  | none => return .leave h.err l
  | some f => retrieveBody m t num f suppressReadbody len msgsize h.msglen (l.countTransient h.err)

/-- The condition under which `delete_msg` is called. -/
def Ctl.wantsDelete (f : Flags) : Bool :=
  !f.suppressDelete &&
    (match f.msgcode with
    | .unknown => !c.keep
    | .old => c.flush
    | .toolarge => c.limitflush)

/-- The condition under which `mark_seen` is called, once `delete_msg` was not. -/
def Ctl.wantsSeen (f : Flags) : Bool :=
  !f.suppressDelete && f.msgcode = .unknown && c.keep

/-- In softbounce mode a message that was not forwarded is neither deleted nor marked. -/
def Ctl.softbounceFlags (f : Flags) : Flags :=
  if f.suppressForward then { f with suppressDelete := f.suppressDelete || c.softbounce } else f

/-- The `else` branch of `flagthemail`: maybe mark the message as seen. -/
def maybeMarkSeen (num : Nat) (f : Flags) : Act σ Call Ps :=
  match m.markSeen with
  | none => pure .success
  | some markSeen =>
    if c.wantsSeen f then do
      let err ← Act.lift (markSeen num)
      Act.emit (.markSeen num err)
      return err
    else pure .success

/-- Maybe delete the message, maybe mark it seen. -/
def dispose (num : Nat) (f : Flags) (l : Loop) : Act σ Call (Ps × Loop) :=
  if f.retained then pure (.success, l)
  else
    match m.deleteMsg with
    | none => do return (← maybeMarkSeen c m num f, l)
    | some deleteMsg =>
      if c.wantsDelete f then do
        let err ← Act.lift (deleteMsg num)
        Act.emit (.deleteMsg num err)
        return (err, { l with deletions := l.deletions + 1 })
      else do return (← maybeMarkSeen c m num f, l)

/-- From the label `flagthemail` to the end of the loop body. -/
def flagthemail (maxfetch : Int) (count num : Nat) (f : Flags) (l : Loop) :
    Act σ Call Next := do
  let (err, l) ← dispose c m num (c.softbounceFlags f) l
  if err ≠ .success then return .leave err l
  -- perhaps this is as many as we are ready to handle
  if maxfetch ≠ 0 ∧ maxfetch ≤ l.fetches ∧ num < count then return .leave .maxfetch l
  return .nextMessage l

/-! ## The loop -/

/-- Age and size of message `num`, and its retrieval when both are acceptable. -/
def judge (count num : Nat) (l : Loop) : Act σ Call Next := do
  let old ← checkOld c m num
  if old then return .flagthemail ⟨.old, false, false, false⟩ l
  match ← getSizes c m count num l with
  | .error err => return .leave err l
  | .ok l =>
    let msgsize := l.msgsize num
    if c.oversized msgsize then return .flagthemail ⟨.toolarge, !c.limitflush, false, false⟩ l
    else retrieve m t num msgsize l

/-- One iteration of the loop of `fetch_messages`. -/
def fetchMessage (maxfetch : Int) (count num : Nat) (l : Loop) : Act σ Call Next := do
  match ← judge c m t count num l with
  | .flagthemail f l => flagthemail c m maxfetch count num f l
  | next => return next

/-- The iterations from message `num` on, `left` of them. -/
def fetchFrom (maxfetch : Int) (count : Nat) :
    (left num : Nat) → Loop → Act σ Call (Ps × Loop)
  | 0, _, l => pure (.success, l)
  | left + 1, num, l => do
    match ← fetchMessage c m t maxfetch count num l with
    | .nextMessage l => fetchFrom maxfetch count left (num + 1) l
    | .leave err l => return (err, l)
    | .flagthemail _ l => return (.undefined, l)

/-- `fetch_messages`: return code and counters after the pass. -/
def fetchMessages (maxfetch : Int) (count : Nat) (l : Loop) : Act σ Call (Ps × Loop) :=
  let msgsizes :=
    if partialSizes c m then some (List.replicate c.sizeLimit 0) else l.msgsizes
  fetchFrom c m t maxfetch count count 1
    { l with firstnum := 1, lastnum := 0, msgsizes := msgsizes, errcount := c.errcount }

end

end Fetchmail.Driver
