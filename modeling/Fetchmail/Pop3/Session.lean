import Fetchmail.Transact.Dialogue
import Fetchmail.Uid.Database

/-!
# The POP3 Session

The commands of `pop3.c` on message numbers and UIDs, its variables, and how responses are
read. The two UID databases belong to the query in the source; together with the static
variables they are all that the methods keep from one call to the next.
-/

namespace Fetchmail.Pop3

open Fetchmail.Lib Fetchmail.Transact Fetchmail.Uid

/-! ## Commands and variables -/

/-- What the methods below send. -/
inductive Command where
  | stat
  | last
  /-- `UIDL` of the whole mailbox -/
  | uidl
  | uidlMsg (num : Nat)
  | top (num : Int) (lines : Nat)
  | dele (num : Nat)
  | quit
  deriving DecidableEq, Repr

/-- What the methods read of the query. -/
structure Ctl where
  fetchall : Bool
  flush : Bool
  /-- `server.uidl` -/
  uidl : Bool
  fastuidl : Int
  fastuidlcount : Nat
  /-- what the array `id` of `pop3_slowuidl` holds before anything is put there -/
  stackBytes : Bytes
  deriving Repr

/-- The variables; the last two are for the statements only. -/
structure Statics where
  oldsaved : Db
  newsaved : Db
  last : Int
  dofastuidl : Bool
  /-- `num_ndx.records` was accessed beyond its end -/
  outOfBounds : Bool
  /-- the null pointer was followed to a record -/
  nullDeref : Bool
  deriving DecidableEq, Repr

/-- The methods talk. -/
abbrev Session (ω : Type) := Talk Statics ω Command

section

variable {ω : Type}

/-- Read and update the variables. -/
def state {α : Type} (f : Statics → α × Statics) : Session ω α := do
  let a ← Talk.gets fun d => (f d.statics).1
  Talk.modify fun d => { d with statics := (f d.statics).2 }
  return a

/-! ## Responses -/

/-- `POPBUFSIZE` -/
def popBufSize : Nat := 512

/-- `IDLEN` -/
def idLen : Nat := 128

/-- `DOTLINE` -/
def dotLine (s : Bytes) : Bool :=
  Bytes.charAt s 0 = Bytes.dot &&
    (Bytes.charAt s 1 = Bytes.cr || Bytes.charAt s 1 = Bytes.lf || Bytes.charAt s 1 = Bytes.nul)

/-- What an error response means, by its text. -/
def errorCode (stage : Stage) (text : Bytes) : Ps :=
  if stage = .fetch then .transient
  else if stage ≠ .getauth then .protocol
  else if text.contains (Bytes.lit "lock") || text.contains (Bytes.lit "Lock") ||
      text.contains (Bytes.lit "LOCK") || text.contains (Bytes.lit "wait") ||
      text.contains (Bytes.lit "[IN-USE]") || text.contains (Bytes.lit "[LOGIN-DELAY]") then
    .lockbusy
  else if (text.contains (Bytes.lit "Service") || text.contains (Bytes.lit "service")) &&
      text.contains (Bytes.lit "unavailable") then
    .servbusy
  else .authfail

/-- How `pop3_ok` judges a line, and what it leaves in `argbuf`. -/
def parseOk (stage : Stage) (buf : Bytes) : Ps × Bytes :=
  if Bytes.charAt buf 0 = 43 || Bytes.charAt buf 0 = Bytes.dash then
    let word := buf.take 1 ++ (buf.drop 1).takeWhile Bytes.isalpha
    let text := ((buf.drop 1).dropWhile Bytes.isalpha).drop 1
    if word = Bytes.lit "+OK" then (.success, text)
    else if word.take 4 = Bytes.lit "-ERR" then (errorCode stage text, text)
    else (.protocol, text)
  else (.protocol, [])

/-- `pop3_ok` -/
def pop3Ok : Session ω (Ps × Bytes) := do
  match ← genRecv with
  | .error err => return (err, [])
  | .ok buf =>
    let stage ← Talk.gets Dialogue.stage
    return parseOk stage buf

/-- `gen_send`, then `pop3_ok`. -/
def command (c : Command) : Session ω (Ps × Bytes) := do
  genSend c
  pop3Ok

/-- A command changes no variable. -/
theorem keeps_command (c : Command) :
    Keeps Dialogue.statics (command c : Session ω (Ps × Bytes)) := by
  have hwrite : Keeps Dialogue.statics (sockWrite c : Session ω Unit) :=
    keeps_sockWrite (by intro d; rfl)
  have hsend : Keeps Dialogue.statics (genSend c : Session ω Unit) := by
    refine (keeps_gets _).bind fun tags => Keeps.ite ?_ hwrite
    have hemit : Keeps Dialogue.statics (Talk.emit fun d => .sent d.tls d.tag c : Session ω Unit) :=
      fun _ => rfl
    exact (keeps_modify (by intro d; rfl)).bind fun _ => hemit.bind fun _ =>
      keeps_modify (by intro d; rfl)
  have hrecv : Keeps Dialogue.statics (genRecv : Session ω (Except Ps Bytes)) := by
    refine (keeps_gets _).bind fun lines => ?_
    cases lines with
    | nil => exact keeps_pure _
    | cons r rest => exact keeps_accept (by intro d lines; rfl) r rest
  have hok : Keeps Dialogue.statics (pop3Ok : Session ω (Ps × Bytes)) := by
    refine hrecv.bind fun r => ?_
    cases r with
    | error err => exact keeps_pure _
    | ok buf => exact (keeps_gets _).bind fun _ => keeps_pure _
  exact hsend.bind fun _ => hok

/-- `trim` -/
def trim (s : Bytes) : Bytes := s.takeWhile fun b => !Bytes.isspace b

/-- `strlcpy(id, s, sizeof(id)); trim(id);` -/
def copyId (s : Bytes) : Bytes := trim (s.take idLen)

/-- `parseuid`: the number and the UID, unless it is `PS_PROTOCOL`. -/
def parseuid (buf : Bytes) : Option (Nat × Bytes) :=
  match Bytes.strtoul (buf.dropWhile Bytes.isspace) with
  | .number n (b :: rest) =>
    if Bytes.isspace b then some (n, copyId ((b :: rest).dropWhile Bytes.isspace)) else none
  | _ => none

/-- An `unsigned long` that is passed as `unsigned`. -/
def toUnsigned (n : Nat) : Nat := n % 2 ^ 32

/-- The lines of `pop3_gettopid`: the first message id among them replaces `id`. -/
def topLines : List Recv → (gotIt : Bool) → (id : Bytes) → Session ω Bytes
  | [], _, id => return id
  | r :: rest, gotIt, id => do
    match ← accept r rest with
    | .error _ => return id
    | .ok buf =>
      if dotLine buf then return id
      else if !gotIt && Bytes.startsWithCI buf (Bytes.lit "Message-Id:") then
        topLines rest true (copyId ((buf.drop 11).dropWhile Bytes.isspace))
      else topLines rest gotIt id

/-- `pop3_gettopid`; the array `id` holds `id` before. -/
def pop3Gettopid (num : Int) (id : Bytes) : Session ω (Except Ps Bytes) := do
  let (ok, _) ← command (.top num 1)
  if ok = .success then
    let lines ← Talk.gets Dialogue.lines
    let id ← topLines lines false id
    return .ok id
  else return .error ok

/-- What `pop3_getuidl` makes of the response. -/
def checkUidl (num : Nat) (response : Ps × Bytes) : Except Ps Bytes :=
  if response.1 = .success then
    match parseuid response.2 with
    | none => .error .protocol
    | some (gotnum, id) => if gotnum = num then .ok id else .error .protocol
  else .error response.1

/-- `pop3_getuidl` -/
def pop3Getuidl (num : Nat) : Session ω (Except Ps Bytes) := do
  let response ← command (.uidlMsg num)
  return checkUidl num response

/-! ## The index -/

namespace Statics

/-- `set_uid_db_num(&ctl->oldsaved, ..)` -/
def setOldNum (p num : Nat) (s : Statics) : Statics :=
  { s with oldsaved := s.oldsaved.setUidDbNum p num
           outOfBounds := s.outOfBounds || !s.oldsaved.setInBounds num }

/-- `set_uid_db_num(&ctl->newsaved, ..)` -/
def setNewNum (p num : Nat) (s : Statics) : Statics :=
  { s with newsaved := s.newsaved.setUidDbNum p num
           outOfBounds := s.outOfBounds || !s.newsaved.setInBounds num }

/-- `find_uid_by_num(&ctl->oldsaved, ..)` -/
def findOldNum (num : Nat) (s : Statics) : Option Nat × Statics :=
  (s.oldsaved.findUidByNum num,
    { s with outOfBounds := s.outOfBounds || !s.oldsaved.findInBounds num })

/-- `find_uid_by_num(&ctl->newsaved, ..)` -/
def findNewNum (num : Nat) (s : Statics) : Option Nat × Statics :=
  (s.newsaved.findUidByNum num,
    { s with outOfBounds := s.outOfBounds || !s.newsaved.findInBounds num })

end Statics

end

end Fetchmail.Pop3
