import Fetchmail.Auth.Sasl

/-!
# The IMAP Session

The commands of `imap.c`, its static variables, and how responses are read:
`imap_untagged_response`, `imap_response` and `imap_ok`.
-/

namespace Fetchmail.Imap

open Fetchmail.Lib Fetchmail.Transact Fetchmail.Auth

/-! ## Commands and variables -/

/-- `imap_version` -/
inductive Version where
  | imap2
  | imap4
  | imap4rev1
  deriving DecidableEq, Repr

/-- Everything `imap.c` sends. -/
inductive Command where
  | capability
  | starttls
  | noop
  /-- `ID ("guid" "1")` -/
  | id
  | sasl (line : SaslLine)
  | login (remotename password : Bytes)
  | select (folder : Bytes)
  | examine (folder : Bytes)
  | expunge
  | idle
  /-- `DONE`, which ends an `IDLE` -/
  | done
  | searchUnseen (undeleted : Bool)
  | fetchFlags (first last : Nat)
  | fetchSize (first last : Int)
  | fetchHeader (number : Int)
  /-- the form of the request depends on the version -/
  | fetchText (version : Version) (number : Int)
  /-- `STORE %d +FLAGS`, with `.SILENT` or not; `\Deleted` is set besides `\Seen` or not -/
  | store (silent : Bool) (number : Int) (deleted : Bool)
  | logout
  deriving DecidableEq, Repr

/-- The static variables of `imap.c`, and `peek_capable`. -/
structure Statics where
  preauth : Bool
  capabilities : Bytes
  imapVersion : Version
  doIdle : Bool
  hasIdle : Bool
  expungePeriod : Nat
  count : Nat
  oldcount : Nat
  recentcount : Nat
  /-- `unseen_messages[0..unseen-1]`; `none` stands for `unseen == -1` -/
  unseen : Option (List Nat)
  startcount : Nat
  deletions : Nat
  expunged : Nat
  actualDeletions : Nat
  peekCapable : Bool
  deriving DecidableEq, Repr

/-- The initialisers. -/
def Statics.init : Statics where
  preauth := false
  capabilities := []
  imapVersion := .imap4
  doIdle := false
  hasIdle := false
  expungePeriod := 1
  count := 0
  oldcount := 0
  recentcount := 0
  unseen := some []
  startcount := 1
  deletions := 0
  expunged := 0
  actualDeletions := 0
  peekCapable := false

/-- Code of `imap.c`. -/
abbrev Session (ω : Type) := Talk Statics ω Command

section

variable {ω : Type}

/-- Read the static variables. -/
def statics {α : Type} (f : Statics → α) : Session ω α := Talk.gets fun d => f d.statics

/-- Assign to `stage`. -/
def setStage (stage : Stage) : Session ω Unit := Talk.modify fun d => { d with stage := stage }

/-! ## Untagged responses -/

/-- What `imap_untagged_response` recognises. -/
inductive Untagged where
  | capability (rest : Bytes)
  | preauth
  | bye
  | exists (u : Nat)
  | expunge (u : Nat)
  | bogusCount
  | readOnly
  | other
  deriving DecidableEq, Repr

/-- `INT_MAX/sizeof(int)` -/
def maxCount : Nat := 536870911

/-- The tests of `imap_untagged_response`, in their order, on a line in upper case. -/
def classify (checkOnly : Bool) (stage : Stage) (buf : Bytes) : Untagged :=
  if stage = .getauth ∧ (Bytes.lit "* CAPABILITY").isPrefixOf buf then .capability (buf.drop 12)
  else if stage = .getauth ∧ (Bytes.lit "* PREAUTH").isPrefixOf buf then .preauth
  else if stage ≠ .logout ∧ (Bytes.lit "* BYE").isPrefixOf buf then .bye
  else if buf.contains (Bytes.lit " EXISTS") then
    match Bytes.strtoul (buf.drop 2) with
    | .number u _ => if maxCount < u then .bogusCount else .exists u
    | _ => .bogusCount
  else if buf.contains (Bytes.lit " EXPUNGE") then
    match Bytes.strtoul (buf.drop 2) with
    | .number u _ => .expunge u
    | _ => .bogusCount
  else if stage = .getrange ∧ !checkOnly ∧ buf.contains (Bytes.lit "[READ-ONLY]") then .readOnly
  else .other

/-- `* n EXISTS` -/
def Statics.exist (u : Nat) (v : Statics) : Statics :=
  { v with count := u, recentcount := u - v.oldcount }

/-- `* n EXPUNGE` -/
def Statics.expunge (v : Statics) : Statics :=
  { v with
    count := v.count - 1
    oldcount := v.oldcount - 1
    recentcount := (v.count - 1) - (v.oldcount - 1)
    actualDeletions := v.actualDeletions + 1 }

/-- `DONE`, where the server supports `IDLE`. -/
def sendDone : Session ω Unit := do
  if ← statics Statics.hasIdle then sockWrite .done

/-- RFC2177 `IDLE` ends when new mail is reported. -/
def endIdle : Session ω Unit := do
  if (← Talk.gets Dialogue.stage) = .idle then
    sendDone
    setStage .getrange

/-- `imap_untagged_response` -/
def imapUntaggedResponse (checkOnly : Bool) (buf : Bytes) : Session ω Ps := do
  match classify checkOnly (← Talk.gets Dialogue.stage) buf with
  | .capability rest =>
    assign fun v => { v with capabilities := rest }
    return .success
  | .preauth =>
    assign fun v => { v with preauth := true }
    return .success
  | .bye => return .success
  | .exists u =>
    assign (Statics.exist u)
    endIdle
    return .success
  | .expunge u =>
    if 0 < u then assign Statics.expunge
    return .success
  | .bogusCount => return .protocol
  | .readOnly => return .lockbusy
  | .other => return .untagged

/-! ## Responses -/

/-- The part of a tagged line after the tag. A line that is nothing but a tag leads the
source past its end; here it ends there. -/
def afterTag (buf : Bytes) : Bytes :=
  (buf.dropWhile fun b => !Bytes.isspace b).dropWhile Bytes.isspace

/-- The return code for a tagged line. -/
def taggedResponse (stage : Stage) (cp : Bytes) : Ps :=
  if Bytes.startsWithCI cp (Bytes.lit "OK") then .success
  else if Bytes.startsWithCI cp (Bytes.lit "BAD") then .error
  else if Bytes.startsWithCI cp (Bytes.lit "NO") then
    match stage with
    | .getauth => .authfail
    | .getsizes => .success
    | _ => .error
  else .protocol

/-- The line is untagged. -/
def isUntagged (buf : Bytes) : Bool := (Bytes.lit "* ").isPrefixOf buf

/-- The test for untagged lines in `imap_response`. -/
def untaggedPart (checkOnly : Bool) (buf : Bytes) : Session ω Ps :=
  if isUntagged buf then imapUntaggedResponse checkOnly buf else pure .success

/-- What `imap_response` returns from within its loop, `ok` being the verdict on the line. -/
def returnEarly (argbuf : Bool) (stage : Stage) (tag buf : Bytes) (late : Bool) (ok : Ps) :
    Option (Ps × Bytes) :=
  -- an unmatched response goes back to a caller who may want to look at it
  if ok = .untagged ∧ argbuf ∧ stage ≠ .idle ∧ tag ≠ [] then some (.untagged, buf)
  else if ok ≠ .untagged ∧ ok ≠ .success then some (ok, [])
  else if stage = .idle ∧ late then some (.idletimeout, [])
  else none

/-- What `imap_response` returns after its loop. -/
def returnFinal (stage : Stage) (tag buf : Bytes) : Ps × Bytes :=
  if tag = [] then (.success, buf) else (taggedResponse stage (afterTag buf), [])

/-- The loop of `imap_response` over the lines to come. Once an `IDLE` has been ended it goes
on with `again`, since the server answers that. -/
def responseLoop (checkOnly argbuf : Bool) (again : Session ω (Ps × Bytes)) :
    List Recv → Session ω (Ps × Bytes)
  | [] => return (.socket, [])
  | r :: rest => do
    let stage ← Talk.gets Dialogue.stage
    match ← accept r rest with
    | .error err => return (err, [])
    | .ok text =>
      -- all tokens in responses are caseblind
      let buf := text.map Bytes.toUpper
      let ok ← untaggedPart checkOnly buf
      let d ← Talk.gets id
      match returnEarly argbuf d.stage d.tag buf r.late ok with
      | some result => return result
      | none =>
        if d.tag.isPrefixOf buf then return returnFinal d.stage d.tag buf
        else if stage ≠ d.stage then again
        else responseLoop checkOnly argbuf again rest

/-- `imap_response`; with `argbuf`, unmatched untagged lines are handed back. -/
def imapResponse (checkOnly argbuf : Bool) : Session ω (Ps × Bytes) := do
  let again : Session ω (Ps × Bytes) := do
    responseLoop checkOnly argbuf (return (.socket, [])) (← Talk.gets Dialogue.lines)
  responseLoop checkOnly argbuf again (← Talk.gets Dialogue.lines)

/-- `imap_ok`. A line that `imap_response` hands back only makes it call `imap_response`
again, so none is asked for here. -/
def imapOk (checkOnly : Bool) : Session ω Ps := do
  return (← imapResponse checkOnly false).1

/-- `gen_transact` of this protocol. -/
def transact (checkOnly : Bool) (c : Command) : Session ω Ps := genTransact (imapOk checkOnly) c

end

end Fetchmail.Imap
