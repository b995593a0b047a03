import Fetchmail.Lib.Act
import Fetchmail.Uid.Database

/-!
# The UID File

`write_saved_lists` of `uid.c`. What the C library and the file system do is up to an
oracle: any call may fail, and how much of the data that `fprintf` and `fputs` took has gone
from the buffer of the stream to the file is open until a flush has succeeded.
-/

namespace Fetchmail.Uid

open Fetchmail.Lib

/-- What `uid.c` reads of a `struct query`. -/
structure Query where
  remotename : Bytes
  queryname : Bytes
  oldsaved : Db

/-! ## Streams and files -/

/-- What a call to `fprintf` or `fputs` comes to. -/
inductive Written where
  /-- all data taken; so many bytes go from the buffer to the file -/
  | all (flushed : Nat)
  /-- a negative return code, after some of the data was taken; `sticky` is the new error
  indicator -/
  | failed (taken flushed : Nat) (sticky : Bool)
  deriving DecidableEq, Repr

/-- The outcomes of the calls, with states in `ω`. -/
structure Stdio (ω : Type) where
  fopen : ω → Bool × ω
  write : Bytes → ω → Written × ω
  /-- success, or the number of bytes that reached the file -/
  fflush : ω → Option Nat × ω
  /-- the number of bytes that reached the file -/
  fclose : ω → Nat × ω
  rename : ω → Bool × ω
  unlink : ω → Bool × ω

/-- The file system, and the stream `tmpfp`. -/
structure Store (ω : Type) where
  files : Bytes → Option Bytes
  buffered : Bytes
  /-- `ferror` -/
  error : Bool
  world : ω

/-- The calls whose success the file depends on. -/
inductive Call where
  | fopen
  | write
  | fflush
  | rename
  deriving DecidableEq, Repr

/-- A call was made, and did or did not succeed. -/
inductive Event where
  | called (call : Call) (ok : Bool)
  deriving DecidableEq, Repr

section

variable {ω : Type} (io : Stdio ω)

/-- The first bytes of the buffer go to the file. -/
def Store.flush (path : Bytes) (n : Nat) (s : Store ω) : Store ω :=
  { s with files := Function.update s.files path
             (some ((s.files path).getD [] ++ s.buffered.take n))
           buffered := s.buffered.drop n }

/-- Ask the oracle. -/
def ask {α : Type} (f : ω → α × ω) : Act (Store ω) Event α :=
  Act.lift fun s => ((f s.world).1, { s with world := (f s.world).2 })

/-- `fopen(path, "w")` -/
def fopen (path : Bytes) : Act (Store ω) Event Bool := do
  let ok ← ask io.fopen
  Act.emit (.called .fopen ok)
  if ok then
    Act.modify fun s =>
      { s with files := Function.update s.files path (some []), buffered := [], error := false }
    return true
  else return false

/-- What `fprintf` and `fputs` do with the stream. -/
def Store.written (path data : Bytes) (w : Written) (s : Store ω) : Store ω :=
  match w with
  | .all flushed => { s with buffered := s.buffered ++ data }.flush path flushed
  | .failed taken flushed sticky =>
    { s with buffered := s.buffered ++ data.take taken,
             error := s.error || sticky }.flush path flushed

/-- The call returned no error. -/
def Written.ok : Written → Bool
  | .all _ => true
  | .failed .. => false

/-- `fprintf` or `fputs`: whether the return code is not negative. -/
def write (path data : Bytes) : Act (Store ω) Event Bool := do
  let w ← ask (io.write data)
  Act.emit (.called .write w.ok)
  Act.modify (Store.written path data w)
  return w.ok

/-- `fflush` -/
def fflush (path : Bytes) : Act (Store ω) Event Unit := do
  match ← ask io.fflush with
  | none =>
    Act.emit (.called .fflush true)
    Act.modify fun s => s.flush path s.buffered.length
  | some n =>
    Act.emit (.called .fflush false)
    Act.modify fun s => { s with error := true }.flush path n

/-- `fclose` -/
def fclose (path : Bytes) : Act (Store ω) Event Unit := do
  let n ← ask io.fclose
  Act.modify (Store.flush path n)

/-- `unlink` -/
def unlink (path : Bytes) : Act (Store ω) Event Unit := do
  if ← ask io.unlink then
    Act.modify fun s => { s with files := Function.update s.files path none }
  else return ()

/-- `rename` -/
def rename (path target : Bytes) : Act (Store ω) Event Unit := do
  let ok ← ask io.rename
  Act.emit (.called .rename ok)
  if ok then
    Act.modify fun s =>
      { s with files := Function.update (Function.update s.files target (s.files path)) path none }
  else return ()

/-! ## The functions of `uid.c` -/

/-- `traverse_uid_db` -/
def traverseUidDb (r : Record → Act (Store ω) Event Int) : List Record → Act (Store ω) Event Int
  | [] => return 0
  | rec :: recs => do
    let rc ← r rec
    if rc = 0 then traverseUidDb r recs
    else return rc

/-- The record is worth saving. -/
def Record.saved (rec : Record) : Bool := rec.status = .seen || rec.status = .deleted

/-- The sum `count_seen_deleted` makes. -/
def countSeenDeleted (db : Db) : Nat := db.records.countP Record.saved

/-- `"%s@%s %s\n"` -/
def recordLine (ctl : Query) (rec : Record) : Bytes :=
  ctl.remotename ++ Bytes.lit "@" ++ ctl.queryname ++ Bytes.lit " " ++ rec.id ++ [Bytes.lf]

/-- `write_uid_db_record` -/
def writeUidDbRecord (path : Bytes) (ctl : Query) (rec : Record) : Act (Store ω) Event Int := do
  if !rec.saved then return 0
  else if ← write io path (recordLine ctl rec) then return 0
  else return -1

/-- The loop over the hosts: `errflg`. -/
def writeHosts (path : Bytes) : List Query → Act (Store ω) Event Bool
  | [] => return false
  | ctl :: hostlist => do
    if (← traverseUidDb (writeUidDbRecord io path ctl) ctl.oldsaved.records) < 0 then return true
    else writeHosts path hostlist

/-- The loop over the scratch list: `errflg`. -/
def writeScratch (path : Bytes) : List Bytes → Act (Store ω) Event Bool
  | [] => return false
  | line :: scratchlist => do
    if ← write io path line then writeScratch path scratchlist
    else return true

/-- The two loops up to the label `bailout`. -/
def writeLists (path : Bytes) (hostlist : List Query) (scratchlist : List Bytes) :
    Act (Store ω) Event Bool := do
  if ← writeHosts io path hostlist then return true
  else writeScratch io path scratchlist

/-- What follows the label `bailout`. -/
def finish (newnam idfile : Bytes) (errflg : Bool) : Act (Store ω) Event Unit := do
  fflush io newnam
  let error ← Act.gets Store.error
  fclose io newnam
  if errflg || error then unlink io newnam
  else rename io newnam idfile

/-- `newnam` -/
def newName (idfile : Bytes) : Bytes := idfile ++ Bytes.lit "_"

/-- There is something to save. -/
def anythingToSave (hostlist : List Query) (scratchlist : List Bytes) : Bool :=
  (hostlist.map fun ctl => countSeenDeleted ctl.oldsaved).sum ≠ 0 || !scratchlist.isEmpty

/-- `write_saved_lists` -/
def writeSavedLists (hostlist : List Query) (scratchlist : List Bytes) (idfile : Bytes) :
    Act (Store ω) Event Unit := do
  if anythingToSave hostlist scratchlist then
    unlink io (newName idfile)
    if ← fopen io (newName idfile) then
      let errflg ← writeLists io (newName idfile) hostlist scratchlist
      finish io (newName idfile) idfile errflg
    else return ()
  else unlink io idfile

end

end Fetchmail.Uid
