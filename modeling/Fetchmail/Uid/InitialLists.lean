import Fetchmail.Lib.Buffer
import Fetchmail.Uid.SavedLists

/-!
# Reading the UID File

`initialize_saved_lists` of `uid.c`. A line is parsed in the buffer that `fgets` filled: the
user, the host and the UID are cut off with zero bytes, and when the line belongs to no host
of the list, the bytes that were overwritten are put back and the line goes to the scratch
list as it was.
-/

namespace Fetchmail.Uid

open Fetchmail.Lib Buffer

/-- What `initialize_saved_lists` sets in a `struct query`. -/
structure Account extends Query where
  skipped : List Bytes
  newsaved : Db

/-- What is at a path: `lstat` and `fopen(path, "r")`. -/
inductive Found where
  /-- `lstat` fails with `ENOTDIR` -/
  | notdir
  /-- `fopen` fails -/
  | unreadable
  | file (content : Bytes)
  deriving DecidableEq, Repr

/-- `POPBUFSIZE` -/
def popbufsize : Nat := 512

def atsignChar : UInt8 := 64

/-- The lists are initially empty. -/
def Account.empty (ctl : Account) : Account :=
  { ctl with skipped := [], oldsaved := Db.initUidDb, newsaved := Db.initUidDb }

/-- `strcasecmp` finds the host and the user of `ctl`. -/
def Query.isAccount (ctl : Query) (host user : Bytes) : Bool :=
  Bytes.equalsCI host ctl.queryname && Bytes.equalsCI user ctl.remotename

/-- `uid_db_insert(&ctl->oldsaved, id, UID_SEEN)` -/
def Account.insertSeen (id : Bytes) (ctl : Account) : Account :=
  { ctl with oldsaved := ctl.oldsaved.uidDbInsert id .seen }

/-- The loop over the hosts: the first that matches gets the UID, `none` is the null pointer
after the last. -/
def insertUid (host user id : Bytes) : List Account → Option (List Account)
  | [] => none
  | ctl :: hostlist =>
    if ctl.isAccount host user then some (ctl.insertSeen id :: hostlist)
    else (insertUid host user id hostlist).map (ctl :: ·)

/-- The loop that `delimp1` runs down, after the increment behind it: the argument is one
above `delimp1`, and the result stands after the last byte that is not blank. -/
def tokenEnd (buf : Bytes) (user : Nat) : Nat → Nat
  | 0 => 0
  | delimp1 + 1 =>
    if delimp1 < user then delimp1 + 1
    else if Bytes.charAt buf delimp1 = Bytes.space ∨ Bytes.charAt buf delimp1 = Bytes.tab then
      tokenEnd buf user delimp1
    else delimp1 + 1

/-- The two lists that are read. -/
structure Lists where
  hostlist : List Account
  scratchlist : List Bytes

/-- The part of the loop body that found an `@` and a blank behind it, at `id`. -/
def splitLine (l : Lists) (buf : Bytes) (user id : Nat) : Lists :=
  let delimp1 := tokenEnd buf user (id + 1)
  let id := id + strspn buf id [Bytes.space]
  let saveddelim1 := Bytes.charAt buf delimp1
  let cut := buf.set delimp1 Bytes.nul
  let delimp2 := strpbrk cut id [Bytes.space, Bytes.tab, Bytes.lf]
  let saveddelim2 := (delimp2.map (Bytes.charAt cut)).getD Bytes.nul
  let cut := delimp2.elim cut fun p => cut.set p Bytes.nul
  match strrchr cut user atsignChar with
  -- the `@` that was found stands before `delimp1`, so the result of `strrchr` is not null
  | none => l
  | some atsign =>
    let cut := cut.set atsign Bytes.nul
    match insertUid (strAt cut (atsign + 1)) (strAt cut user) (strAt cut id) l.hostlist with
    | some hostlist => { l with hostlist }
    | none =>
      let restored := (cut.set delimp1 saveddelim1).set atsign atsignChar
      let restored := delimp2.elim restored fun p => restored.set p saveddelim2
      { l with scratchlist := l.scratchlist ++ [strAt restored 0] }

/-- The body of the `while` loop, with what `fgets` put into the buffer. -/
def readLine (l : Lists) (buf : Bytes) : Lists :=
  let user := strspn buf 0 [Bytes.space, Bytes.tab]
  match strchr buf user atsignChar with
  | none => l
  | some delimp1 =>
    match strchr buf delimp1 Bytes.space with
    | none => l
    | some id => splitLine l buf user id

/-- The `while` loop over what is left of the file. -/
def readLines (l : Lists) (content : Bytes) : Lists :=
  if content = [] then l
  else
    readLines (readLine l (fgets (popbufsize - 1) content).1) (fgets (popbufsize - 1) content).2
termination_by content.length
decreasing_by exact fgets_rest_length_lt (popbufsize - 2) ‹_›

/-- `initialize_saved_lists`; `none` is the exit with `PS_IOERR`. -/
def initializeSavedLists (l : Lists) (idfile : Found) : Option Lists :=
  let l := { l with hostlist := l.hostlist.map Account.empty }
  match idfile with
  | .notdir => none
  | .unreadable => some l
  | .file content => some (readLines l content)

end Fetchmail.Uid
