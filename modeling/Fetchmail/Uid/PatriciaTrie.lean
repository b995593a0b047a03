import Fetchmail.Uid.Database

/-!
# The Search Tree of the UID Database

`uid_db.c` as it keeps its records: a PATRICIA trie whose nodes are linked up and down, and a
list of the records that share a UID. Nodes and records stand in heaps to which `xmalloc`
appends, a pointer is a position. An operation has no result if it follows a pointer that
leads nowhere, or if one of its loops does not come to an end.

Bit indices are natural numbers: UIDs are read into buffers, and are too short for `unsigned`
to wrap around. The index by message number is not touched by these functions.
-/

namespace Fetchmail.Uid

open Fetchmail.Lib

/-! ## The data -/

/-- `struct uid_db_record`; `id_len` is the length of `id`. -/
structure UidRecord where
  id : Bytes
  num : Nat
  status : Mark
  pos : Nat
  next : Option Nat
  deriving DecidableEq, Repr

/-- `struct pat_node`, with `ptrs(np)[-1]`, `*ptrs(np)` and `ptrs(np)[1]`. -/
structure PatNode where
  left : Option Nat
  parent : Option Nat
  right : Option Nat
  bitNdx : Nat
  bitMask : Nat
  record : Nat
  deriving DecidableEq, Repr

/-- `ptrs(np)[1]` or `ptrs(np)[-1]` -/
def PatNode.child (np : PatNode) (side : Bool) : Option Nat := if side then np.right else np.left

def PatNode.setChild (np : PatNode) (side : Bool) (p : Option Nat) : PatNode :=
  if side then { np with right := p } else { np with left := p }

/-- `struct uid_db`, with the heaps of its nodes and records; `records_next` is the length of
`records`. -/
structure TrieDb where
  nodes : List PatNode
  heap : List UidRecord
  patRoot : Option Nat
  records : List Nat
  recordsMax : Nat
  deriving DecidableEq, Repr

/-- `init_uid_db`, with `MIN_RECORDS` -/
def TrieDb.initUidDb : TrieDb := ⟨[], [], none, [], 16⟩

/-! ## Bits -/

/-- `bit_ofs` -/
def bitOfs (bitNdx : Nat) : Nat := bitNdx >>> 3

/-- `bit_mask` -/
def bitMask (bitNdx : Nat) : Nat := 1 <<< (bitNdx &&& 7)

/-- `ofs < len ? id[ofs] : 0` -/
def byteAt (id : Bytes) (ofs : Nat) : Nat := if ofs < id.length then (Bytes.charAt id ofs).toNat else 0

/-- The variables `ofs` and `v` of a loop, `none` as long as `ofs` is `-1`. -/
abbrev Loaded := Option (Nat × Nat)

/-- `v` after it was read again, if the offset has changed. -/
def Loaded.load (loaded : Loaded) (id : Bytes) (ofs : Nat) : Nat :=
  match loaded with
  | none => byteAt id ofs
  | some (ofs', v) => if ofs ≠ ofs' then byteAt id ofs else v

/-- `ffs` -/
def ffs (v : Nat) : Nat := ((List.range 32).find? v.testBit).elim 0 (· + 1)

/-- `first_set_bit_in_char`, an `unsigned` -/
def firstSetBitInChar (v : Nat) : Nat := (ffs v + (2 ^ 32 - 1)) % 2 ^ 32

/-- The loop of `find_first_diff_bit`, with its variables `ofs` and `v` at the end. -/
def diffLoop (id₀ id₁ : Bytes) (max : Nat) : Nat → Nat → Nat × Nat
  | 0, ofs => (ofs, 0)
  | fuel + 1, ofs =>
    let v := (Bytes.charAt id₀ ofs).toNat ^^^ (Bytes.charAt id₁ ofs).toNat
    if v ≠ 0 then (ofs, v)
    else if ofs + 1 < max then diffLoop id₀ id₁ max fuel (ofs + 1)
    else (ofs + 1, 0)

/-- `find_first_diff_bit` -/
def findFirstDiffBit (id₀ id₁ : Bytes) : Int :=
  let max := if id₁.length < id₀.length then id₁.length else id₀.length
  let longId := if id₁.length < id₀.length then id₀ else id₁
  let (ofs, v) := diffLoop id₀ id₁ max (max + 1) 0
  if v ≠ 0 then (firstSetBitInChar v + ofs * 8 : Nat)
  else if id₀.length = id₁.length then -1
  else (firstSetBitInChar (Bytes.charAt longId ofs).toNat + ofs * 8 : Nat)

/-- `bit_set` -/
def bitSet (bitNdx : Nat) (id : Bytes) : Bool :=
  if id.length ≤ bitOfs bitNdx then false
  else (Bytes.charAt id (bitOfs bitNdx)).toNat &&& bitMask bitNdx ≠ 0

/-! ## Walking -/

/-- `walk_down`: the node that the last edge leads to, with the edge and where it starts. -/
def walkDown (nodes : List PatNode) (id : Bytes) :
    Nat → Nat → Loaded → Option (Option Nat × Nat × Bool)
  | 0, _, _ => none
  | fuel + 1, cur, loaded => do
    let np ← nodes[cur]?
    let ofs := bitOfs np.bitNdx
    let v := loaded.load id ofs
    let edge := decide (v &&& np.bitMask ≠ 0)
    match np.child edge with
    | none => return (none, cur, edge)
    | some next =>
      let nextNode ← nodes[next]?
      if np.bitNdx < nextNode.bitNdx then walkDown nodes id fuel next (some (ofs, v))
      else return (some next, cur, edge)

/-- `walk_up`: the node that was found, and its parent. -/
def walkUp (nodes : List PatNode) (diffNdx : Nat) : Nat → Nat → Option (Nat × Option Nat)
  | 0, _ => none
  | fuel + 1, cur => do
    let np ← nodes[cur]?
    match np.parent with
    | none => return (cur, none)
    | some p =>
      let parent ← nodes[p]?
      if diffNdx < parent.bitNdx then walkUp nodes diffNdx fuel p else return (cur, some p)

/-! ## Insertion -/

namespace TrieDb

def modifyNode (db : TrieDb) (np : Nat) (f : PatNode → PatNode) : TrieDb :=
  { db with nodes := db.nodes.modify np f }

def modifyRecord (db : TrieDb) (rec : Nat) (f : UidRecord → UidRecord) : TrieDb :=
  { db with heap := db.heap.modify rec f }

/-- `get_pat_node`; the pointers and the bit of the node are set later. -/
def getPatNode (db : TrieDb) (rec : Nat) : Nat × TrieDb :=
  let np : PatNode := ⟨none, none, none, 0, 0, rec⟩
  (db.nodes.length,
    TrieDb.modifyRecord { db with nodes := db.nodes ++ [np] } rec fun r => { r with next := none })

/-- `np->bit_ndx` and `np->bit_mask` -/
def setBitNdx (db : TrieDb) (np bitNdx : Nat) : TrieDb :=
  db.modifyNode np fun node => { node with bitNdx := bitNdx, bitMask := bitMask bitNdx }

/-- `get_standalone_node` -/
def getStandaloneNode (db : TrieDb) (rec : Nat) (id : Bytes) : Nat × TrieDb :=
  let (np, db) := db.getPatNode rec
  (np, db.setBitNdx np (firstSetBitInChar (Bytes.charAt id 0).toNat))

/-- `append_to_list`, from the `next` pointer of the record `r` on. -/
def appendToList (heap : List UidRecord) (rec : Nat) : Nat → Nat → Option (List UidRecord)
  | 0, _ => none
  | fuel + 1, r => do
    let record ← heap[r]?
    match record.next with
    | none =>
      let heap := heap.modify r fun r => { r with next := some rec }
      return heap.modify rec fun r => { r with next := none }
    | some next => appendToList heap rec fuel next

/-- `edge`: the pointer that will point to the new node. -/
inductive Edge where
  | patRoot
  | child (np : Nat) (side : Bool)

/-- `*edge = np` -/
def setEdge (db : TrieDb) (edge : Edge) (np : Nat) : TrieDb :=
  match edge with
  | .patRoot => { db with patRoot := some np }
  | .child p side => db.modifyNode p fun node => node.setChild side (some np)

/-- The last part of `pat_insert`, from the edge to be split on. -/
def splitEdge (db : TrieDb) (id : Bytes) (np bitNdx : Nat) (closest parent : Option Nat)
    (edge : Edge) : TrieDb :=
  let db := (db.setEdge edge np).modifyNode np fun node => { node with parent := parent }
  let me := bitSet bitNdx id
  db.modifyNode np fun node => (node.setChild me (some np)).setChild (!me) closest

/-- The rest of `pat_insert` with a new node: look for the edge, and split it. -/
def linkNode (db : TrieDb) (id : Bytes) (np : Nat) (closest : Option Nat) (parent : Nat)
    (side : Bool) : Option TrieDb := do
  let parentNode ← db.nodes[parent]?
  let node ← db.nodes[np]?
  if node.bitNdx < parentNode.bitNdx then
    let (closest, parent) ← walkUp db.nodes node.bitNdx db.nodes.length parent
    match parent with
    | none =>
      let db := db.modifyNode closest fun node => { node with parent := some np }
      return db.splitEdge id np node.bitNdx (some closest) none .patRoot
    | some p =>
      let parentNode ← db.nodes[p]?
      let side := if parentNode.left = some closest then false else true
      let db := db.modifyNode closest fun node => { node with parent := some np }
      return db.splitEdge id np node.bitNdx (some closest) (some p) (.child p side)
  else return db.splitEdge id np node.bitNdx closest (some parent) (.child parent side)

/-- `pat_insert` -/
def patInsert (db : TrieDb) (rec : Nat) : Option TrieDb := do
  let record ← db.heap[rec]?
  match db.patRoot with
  | none =>
    let (np, db) := db.getStandaloneNode rec record.id
    let db := db.modifyNode np fun node =>
      { node with left := none, parent := none, right := some np }
    return { db with patRoot := some np }
  | some root =>
    let (closest, parent, side) ← walkDown db.nodes record.id db.nodes.length root none
    match closest with
    | some c =>
      let node ← db.nodes[c]?
      let found ← db.heap[node.record]?
      let bitNdx := findFirstDiffBit found.id record.id
      if bitNdx < 0 then
        let heap ← appendToList db.heap rec db.heap.length node.record
        return { db with heap }
      else
        let (np, db) := db.getPatNode rec
        (db.setBitNdx np bitNdx.toNat).linkNode record.id np closest parent side
    | none =>
      let (np, db) := db.getStandaloneNode rec record.id
      db.linkNode record.id np closest parent side

/-- `get_uid_db_record`; the position and the list are set later. -/
def getUidDbRecord (db : TrieDb) (id : Bytes) (status : Mark) : Nat × TrieDb :=
  (db.heap.length, { db with heap := db.heap ++ [⟨id, 0, status, 0, none⟩] })

/-- `insert_into_records` -/
def insertIntoRecords (db : TrieDb) (rec : Nat) : TrieDb :=
  let next := db.records.length
  let recordsMax := if next = db.recordsMax then db.recordsMax * 2 else db.recordsMax
  { db.modifyRecord rec fun r => { r with pos := next } with
    records := db.records ++ [rec], recordsMax }

/-- `uid_db_insert` -/
def uidDbInsert (db : TrieDb) (id : Bytes) (status : Mark) : Option TrieDb :=
  let (rec, db) := db.getUidDbRecord id status
  (db.insertIntoRecords rec).patInsert rec

/-! ## Search -/

/-- The loop of `find_uid_by_id`. -/
def findLoop (nodes : List PatNode) (id : Bytes) : Nat → Nat → Loaded → Option (Option Nat)
  | 0, _, _ => none
  | fuel + 1, cur, loaded => do
    let np ← nodes[cur]?
    let ofs := bitOfs np.bitNdx
    let v := loaded.load id ofs
    match np.child (decide (v &&& np.bitMask ≠ 0)) with
    | none => return none
    | some next =>
      let nextNode ← nodes[next]?
      if np.bitNdx < nextNode.bitNdx then findLoop nodes id fuel next (some (ofs, v))
      else return some next

/-- `find_uid_by_id` -/
def findUidById (db : TrieDb) (id : Bytes) : Option (Option Nat) :=
  match db.patRoot with
  | none => some none
  | some root => do
    match ← findLoop db.nodes id db.nodes.length root none with
    | none => return none
    | some np =>
      let node ← db.nodes[np]?
      let record ← db.heap[node.record]?
      if record.id.length = id.length ∧ id.take id.length = record.id.take id.length then
        return some node.record
      else return none

/-- The loop of `last_uid_in_db`. -/
def lastLoop (heap : List UidRecord) : Nat → Nat → Option Nat
  | 0, _ => none
  | fuel + 1, rec => do
    let record ← heap[rec]?
    match record.next with
    | none => return rec
    | some next => lastLoop heap fuel next

/-- `last_uid_in_db` -/
def lastUidInDb (db : TrieDb) (id : Bytes) : Option (Option Nat) := do
  match ← db.findUidById id with
  | none => return none
  | some rec => some <$> lastLoop db.heap db.heap.length rec

/-- `find_uid_by_pos` -/
def findUidByPos (db : TrieDb) (pos : Nat) : Option Nat :=
  if pos < db.records.length then db.records[pos]? else none

/-- The loop of `traverse_uid_db`. -/
def traverseLoop {σ : Type} (r : Nat → σ → Int × σ) : List Nat → σ → Int × σ
  | [], arg => (0, arg)
  | rec :: recs, arg =>
    let (rc, arg) := r rec arg
    if rc = 0 then traverseLoop r recs arg else (rc, arg)

/-- `traverse_uid_db`; `arg` is what the routine reads and changes. -/
def traverseUidDb {σ : Type} (db : TrieDb) (r : Nat → σ → Int × σ) (arg : σ) : Int × σ :=
  traverseLoop r db.records arg

end TrieDb

end Fetchmail.Uid
