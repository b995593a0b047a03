import Fetchmail.Pop3.Session

/-!
# Counting the Mailbox

`pop3_getrange` of `pop3.c` with its three ways to find out which messages are new, and the
methods that use what it leaves behind: `pop3_is_old`, `pop3_delete`, `pop3_mark_seen` and
`pop3_logout`.
What a response does to the UID databases is a function on `Statics`; the rest is talk.
-/

namespace Fetchmail.Pop3

open Fetchmail.Lib Fetchmail.Transact Fetchmail.Uid

/-! ## The binary search -/

namespace Statics

/-- A UID that is listed although it was deleted is marked as seen now. -/
def revive (p : Nat) (s : Statics) : Statics :=
  if s.oldsaved.status p = .deleted ∨ s.oldsaved.status p = .expunged then
    { s with oldsaved := s.oldsaved.setStatus p .seen }
  else s

/-- `uid_db_insert(&ctl->oldsaved, id, UID_UNSEEN)` -/
def insertOld (id : Bytes) (s : Statics) : Statics :=
  { s with oldsaved := s.oldsaved.uidDbInsert id .unseen }

/-- What `pop3_fastuidl` does with the UID of message `num`; true when the search goes on
above it. -/
def fastStep (num : Nat) (id : Bytes) (s : Statics) : Bool × Statics :=
  match s.oldsaved.findUidById id with
  | some p =>
    let s := s.revive p
    (s.oldsaved.status p ≠ .unseen, s.setOldNum p num)
  | none => (false, (s.insertOld id).setOldNum s.oldsaved.uidDbNRecords num)

end Statics

section

variable {ω : Type}

/-- The loop of `pop3_fastuidl`, for at most `fuel` rounds: the bounds in the end. The
distance of the bounds is fuel enough. -/
def fastLoop : (fuel firstNr lastNr : Nat) → Session ω (Except Ps (Nat × Nat))
  | 0, firstNr, lastNr => return .ok (firstNr, lastNr)
  | fuel + 1, firstNr, lastNr =>
    if firstNr < lastNr - 1 then do
      let tryNr := (firstNr + lastNr) / 2
      match ← pop3Getuidl tryNr with
      | .error ok => return .error ok
      | .ok id =>
        if ← state (Statics.fastStep tryNr id) then fastLoop fuel tryNr lastNr
        else fastLoop fuel firstNr tryNr
    else return .ok (firstNr, lastNr)

/-- `pop3_fastuidl`: the return code and `*newp`. -/
def pop3Fastuidl (count : Nat) : Session ω (Ps × Int) := do
  match ← fastLoop (count + 1) 0 (count + 1) with
  | .error ok => return (ok, -1)
  | .ok (firstNr, _) =>
    assign fun s => { s with last := firstNr }
    return (.success, count - firstNr)

/-! ## Without `UIDL` -/

/-- The values `add_id` takes in the search: powers of two that are not above
`try_id - 1`. -/
def addIds (tryId : Int) : List Nat :=
  ((List.range 31).reverse.map (2 ^ ·)).dropWhile fun addId => tryId - 1 < addId

/-- The search for the last known message: `try_id` and `try_nr`. -/
def slowSearch : List Nat → (tryId : Int) → (tryNr : Option Nat) → (id : Bytes) →
    Session ω (Except Ps (Int × Option Nat))
  | [], tryId, tryNr, _ => return .ok (tryId, tryNr)
  | addId :: addIds, tryId, tryNr, id =>
    if tryNr = none ∧ tryId - addId ≤ 1 then slowSearch addIds tryId tryNr id
    else do
      let tryId := if tryNr = none then tryId - addId else tryId + addId
      match ← pop3Gettopid tryId id with
      | .error ok => return .error ok
      | .ok id =>
        let tryNr ← Talk.gets fun d => d.statics.oldsaved.findUidById id
        slowSearch addIds tryId tryNr id

/-- The known message that is expected to be the last: where it stands in the database, and
the number to go on with. -/
def expectLast (count tryId : Int) (id : Bytes) :
    Session ω (Except Ps (Int × Option Nat × Bytes)) := do
  if tryId ≤ count then
    match ← pop3Gettopid tryId id with
    | .error ok => return .error ok
    | .ok id =>
      let tryNr ← Talk.gets fun d => d.statics.oldsaved.lastUidInDb id
      return .ok (tryId, tryNr, id)
  else return .ok (count + 1, none, id)

/-- From the known first message to the number of known messages; the flag is `nolinear`. -/
def estimate (count : Int) (firstNr nRecs : Nat) (id : Bytes) :
    Session ω (Except Ps (Int × Bool)) := do
  let tryId : Int := nRecs - firstNr
  if tryId ≤ 1 then return .ok (tryId, false)
  else
    match ← expectLast count tryId id with
    | .error ok => return .error ok
    | .ok (tryId, tryNr, id) =>
      match tryNr with
      | some p =>
        if p + 1 = nRecs then return .ok (tryId, false)
        -- messages were inserted on the server
        else return .error .error
      | none =>
        match ← slowSearch (addIds tryId) tryId none id with
        | .error ok => return .error ok
        | .ok (tryId, tryNr) => return .ok (if tryNr = none then tryId - 1 else tryId, true)

namespace Statics

/-- Record number `num` of the old database is copied to the new one. -/
def copyRecord (firstNr num : Nat) (s : Statics) : Statics :=
  let p := s.newsaved.uidDbNRecords
  { s with newsaved := s.newsaved.uidDbInsert (s.oldsaved.id num) (s.oldsaved.status num) }.setNewNum
    p (num - firstNr + 1)

/-- The records from `firstNr` on are copied. -/
def copyRecords (firstNr nRecs : Nat) (s : Statics) : Statics :=
  (List.range' firstNr (nRecs - firstNr)).foldl (fun s num => s.copyRecord firstNr num) s

/-- The end of `pop3_slowuidl`. -/
def endSlow (tryId : Int) (nolinear : Bool) (s : Statics) : Statics :=
  if nolinear then { s with oldsaved := Db.initUidDb, last := tryId } else s

end Statics

/-- `pop3_slowuidl`: `*newp`, unless it fails. -/
def pop3Slowuidl (ctl : Ctl) (count : Int) : Session ω (Except Ps Int) := do
  match ← pop3Gettopid 1 ctl.stackBytes with
  | .error ok => return .error ok
  | .ok id =>
    match ← Talk.gets fun d => d.statics.oldsaved.findUidById id with
    -- the first message is unknown, so all messages are new
    | none => return .ok count
    | some firstNr =>
      let nRecs ← Talk.gets fun d => d.statics.oldsaved.uidDbNRecords
      match ← estimate count firstNr nRecs id with
      | .error ok => return .error ok
      | .ok (tryId, nolinear) =>
        assign (Statics.copyRecords firstNr nRecs)
        assign (Statics.endSlow tryId nolinear)
        return .ok (count - tryId)

/-! ## The full list -/

namespace Statics

/-- The databases take in the UID of a line; true when the message counts as new. -/
def classify (id : Bytes) (s : Statics) : Mark × Nat × Statics :=
  match s.oldsaved.findUidById id with
  | some p =>
    let s := s.revive p
    (s.oldsaved.status p, p, s)
  | none => (.unseen, s.oldsaved.uidDbNRecords, s.insertOld id)

/-- One line of the list: true when the message is new. -/
def listLine (flush : Bool) (unum : Nat) (id : Bytes) (s : Statics) : Bool × Statics :=
  let p := s.newsaved.uidDbNRecords
  let (mark, old, s) := s.classify id
  let s := { s with newsaved := s.newsaved.uidDbInsert id mark }
  -- the number will be needed when the message is fetched or deleted
  if mark = .unseen ∨ flush then
    (mark = .unseen, (s.setOldNum old (toUnsigned unum)).setNewNum p (toUnsigned unum))
  else (false, s)

end Statics

/-- The lines of the list: the return code and `*newp`. -/
def uidlLines (flush : Bool) : List Recv → (newp : Int) → Session ω (Ps × Int)
  | [], newp => return (.success, newp)
  | r :: rest, newp => do
    match ← accept r rest with
    | .error _ => return (.success, newp)
    | .ok buf =>
      if dotLine buf then return (.success, newp)
      else
        match parseuid buf with
        | none => return (.error, newp)
        | some (unum, id) =>
          if ← state (Statics.listLine flush unum id) then uidlLines flush rest (newp + 1)
          else uidlLines flush rest newp

/-! ## `pop3_getrange` -/

/-- The return code, `*countp` and `*newp`. -/
structure Range where
  err : Ps
  count : Int
  newp : Int
  deriving DecidableEq, Repr

/-- `sscanf(buf, "%d %d", countp, bytes) == 2` -/
def scanStat (buf : Bytes) : Option Int :=
  match Bytes.scanInt buf with
  | .int count rest =>
    match Bytes.scanInt rest with
    | .int _ _ => some count
    | _ => none
  | _ => none

/-- The binary search is worth the while, and allowed. -/
def Ctl.wantsFast (ctl : Ctl) (count : Int) : Bool :=
  7 < count && !ctl.fetchall && !ctl.flush && numNonzero ctl.fastuidl &&
    (ctl.fastuidl = 1 || ctl.fastuidlcount ≠ 0)

/-- UIDs are used: they are asked for, or needed to tell old messages from new ones. -/
def Ctl.usesUids (ctl : Ctl) : Bool := !ctl.fetchall || ctl.uidl

/-- The reply to `LAST`. -/
def scanLast (buf : Bytes) : Option Int :=
  match Bytes.scanInt buf with
  | .eof => some 0
  | .mismatch => none
  | .int last _ => some last

/-- `UIDL`, one way or the other. -/
def doUidl (ctl : Ctl) (count : Int) : Session ω Range := do
  if ← Talk.gets fun d => d.statics.dofastuidl then
    let (ok, newp) ← pop3Fastuidl count.toNat
    return ⟨ok, count, newp⟩
  else
    let (ok, _) ← command .uidl
    if ok = .success then
      let lines ← Talk.gets Dialogue.lines
      let (err, newp) ← uidlLines ctl.flush lines 0
      return ⟨err, count, newp⟩
    else
      -- no reason to worry yet: there is the slow way
      match ← pop3Slowuidl ctl count with
      | .error _ => return ⟨.error, count, -1⟩
      | .ok newp => return ⟨.success, count, newp⟩

/-- The mailbox has messages, and UIDs are used. -/
def countNew (ctl : Ctl) (count : Int) : Session ω Range := do
  assign fun s =>
    { s with oldsaved := s.oldsaved.setUidDbNumPos0 count.toNat
             newsaved := s.newsaved.setUidDbNumPos0 count.toNat
             dofastuidl := ctl.wantsFast count }
  if ctl.uidl then doUidl ctl count
  else
    let (ok, buf) ← command .last
    if ok = .success then
      match scanLast buf with
      | none => return ⟨.error, count, -1⟩
      | some last =>
        assign fun s => { s with last := last }
        return ⟨.success, count, count - last⟩
    else doUidl ctl count

/-- `pop3_getrange`, in a build without `MBOX` -/
def pop3Getrange (ctl : Ctl) : Session ω Range := do
  assign fun s => { s with newsaved := Db.initUidDb }
  let (ok, buf) ← command .stat
  if ok = .success then
    match scanStat buf with
    | none => return ⟨.protocol, 0, 0⟩
    | some count =>
      assign fun s => { s with last := 0 }
      if 0 < count && ctl.usesUids then countNew ctl count
      else return ⟨.success, count, -1⟩
  else return ⟨ok, 0, 0⟩

/-! ## The methods of the driver -/

/-- A UID that was asked for on demand: true when the message is old. -/
def Statics.lazyStep (num : Nat) (id : Bytes) (s : Statics) : Bool × Statics :=
  match s.oldsaved.findUidById id with
  | some p => (s.oldsaved.status p ≠ .unseen, s.setOldNum p num)
  | none => (false, (s.insertOld id).setOldNum s.oldsaved.uidDbNRecords num)

/-- `pop3_is_old` while `dofastuidl` is set. -/
def isOldFast (num : Nat) : Session ω Bool := do
  if (num : Int) ≤ (← Talk.gets fun d => d.statics.last) then return true
  else
    match ← state (Statics.findOldNum num) with
    | some p =>
      let mark ← Talk.gets fun d => d.statics.oldsaved.status p
      return mark ≠ .unseen
    | none =>
      match ← pop3Getuidl num with
      | .error _ => return true
      | .ok id => state (Statics.lazyStep num id)

/-- The end of `isOldFast`, for a message that is not in the index. -/
def askUid (num : Nat) : Session ω Bool :=
  pop3Getuidl num >>= fun r => match r with
    | .error _ => pure true
    | .ok id => state (Statics.lazyStep num id)

/-- `pop3_is_old` -/
def pop3IsOld (num : Nat) : Session ω Bool := do
  let s ← Talk.gets Dialogue.statics
  if s.oldsaved.uidDbNRecords = 0 then return (num : Int) ≤ s.last
  else if s.dofastuidl then isOldFast num
  else
    match ← state (Statics.findNewNum num) with
    | none => return true
    | some p =>
      let mark ← Talk.gets fun d => d.statics.newsaved.status p
      return mark ≠ .unseen

namespace Statics

/-- The message is marked in the new database, if it is in the index. -/
def markNewSeen (num : Nat) (s : Statics) : Statics :=
  let (p, s) := s.findNewNum num
  match p with
  | some p => { s with newsaved := s.newsaved.setStatus p .seen }
  | none => s

/-- The message is marked in the old database, if it is in the index. -/
def markOldSeen (num : Nat) (s : Statics) : Statics :=
  let (p, s) := s.findOldNum num
  match p with
  | some p => { s with oldsaved := s.oldsaved.setStatus p .seen }
  | none => s

/-- `mark_uid_seen` -/
def markUidSeen (num : Nat) (s : Statics) : Statics := (s.markNewSeen num).markOldSeen num

/-- The record is looked up and marked as deleted, whether or not there is one. -/
def markDeleted (num : Nat) (s : Statics) : Statics :=
  if s.dofastuidl then
    let (p, s) := s.findOldNum num
    match p with
    | some p => { s with oldsaved := s.oldsaved.setStatus p .deleted }
    | none => { s with nullDeref := true }
  else
    let (p, s) := s.findNewNum num
    match p with
    | some p => { s with newsaved := s.newsaved.setStatus p .deleted }
    | none => { s with nullDeref := true }

/-- `mark_as_expunged_if` -/
def markAsExpungedIf (rec : Record) : Record :=
  if rec.status = .deleted then { rec with status := .expunged } else rec

/-- `expunge_uids` -/
def expungeUids (s : Statics) : Statics :=
  if s.dofastuidl then { s with oldsaved := s.oldsaved.traverseUidDb markAsExpungedIf }
  else { s with newsaved := s.newsaved.traverseUidDb markAsExpungedIf }

end Statics

/-- `pop3_delete` -/
def pop3Delete (num : Nat) : Session ω Ps := do
  assign (Statics.markUidSeen num)
  let (ok, _) ← command (.dele num)
  if ok = .success then
    assign (Statics.markDeleted num)
    return .success
  else return ok

/-- `pop3_mark_seen` -/
def pop3MarkSeen (num : Nat) : Session ω Ps := do
  assign (Statics.markUidSeen num)
  return .success

/-- `pop3_logout` -/
def pop3Logout : Session ω Ps := do
  let (ok, _) ← command .quit
  if ok = .success then assign Statics.expungeUids
  return ok

end

end Fetchmail.Pop3
