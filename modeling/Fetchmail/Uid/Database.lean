import Fetchmail.Lib.Bytes

/-!
# The UID Database

`uid_db.c`: records in the order of their insertion, a search by UID, and an index by
message number. Records are never moved or freed one by one, so a position stands for a
pointer to a record. The search tree over the UIDs appears here by what it finds; the array
`num_ndx.records`, which grows downwards from the highest message number, as it is.

A message number is a natural number below `2^32`, the differences of `uid_db_num_ofs`
wrap around.
-/

namespace Fetchmail.Uid

open Fetchmail.Lib

/-! ## The data -/

/-- The `UID_` constants. -/
inductive Mark where
  | unseen
  | seen
  | deleted
  | expunged
  deriving DecidableEq, Repr

/-- `struct uid_db_record` -/
structure Record where
  id : Bytes
  status : Mark
  deriving DecidableEq, Repr

/-- `struct num_ndx`, with positions for pointers. -/
structure NumNdx where
  records : List (Option Nat)
  pos0Value : Nat
  endValue : Nat
  deriving DecidableEq, Repr

/-- `struct uid_db` -/
structure Db where
  records : List Record
  numNdx : NumNdx
  deriving DecidableEq, Repr

/-- What a change of one element does to a field, if it does it to the field alone. -/
theorem map_modify {α β : Type} {f : α → α} {f' : β → β} {g : α → β}
    (h : ∀ x, g (f x) = f' (g x)) (i : Nat) (xs : List α) :
    (xs.modify i f).map g = (xs.map g).modify i f' := by
  apply List.ext_getElem?
  intro j
  simp only [List.getElem?_map, List.getElem?_modify]
  cases xs[j]? with
  | none => rfl
  | some x => by_cases hij : i = j <;> simp [hij, h]

/-- Other fields stay as they are. -/
theorem map_modify_eq {α β : Type} {f : α → α} {g : α → β} (h : ∀ x, g (f x) = g x) (i : Nat)
    (xs : List α) : (xs.modify i f).map g = xs.map g := by
  have hid : (xs.modify i f).map g = (xs.map g).modify i id := map_modify h i xs
  rw [hid, List.modify_id]

namespace Db

/-- `init_uid_db`; also `clear_uid_db`. -/
def initUidDb : Db := ⟨[], ⟨[], 2 ^ 32 - 1, 2 ^ 32 - 1⟩⟩

/-- `uid_db_n_records` -/
def uidDbNRecords (db : Db) : Nat := db.records.length

/-- `uid_db_insert`; the new record stands at the end. -/
def uidDbInsert (db : Db) (id : Bytes) (status : Mark) : Db :=
  { db with records := db.records ++ [⟨id, status⟩] }

/-- `find_uid_by_id`. The node of an empty UID that was the first to come has no bit to
branch on, and no search ends there. -/
def findUidById (db : Db) (id : Bytes) : Option Nat :=
  if id = [] then ((db.records.drop 1).findIdx? fun r => r.id = []).map (· + 1)
  else db.records.findIdx? fun r => r.id = id

/-- `last_uid_in_db` -/
def lastUidInDb (db : Db) (id : Bytes) : Option Nat :=
  (findUidById db id).map fun first =>
    ((List.range db.records.length).filter fun p =>
      first ≤ p && (db.records[p]?.map Record.id) = some id).getLastD first

/-- `rec->status` -/
def status (db : Db) (p : Nat) : Mark := (db.records[p]?.map Record.status).getD .unseen

/-- `rec->id` -/
def id (db : Db) (p : Nat) : Bytes := (db.records[p]?.map Record.id).getD []

/-- `rec->status = mark` -/
def setStatus (db : Db) (p : Nat) (mark : Mark) : Db :=
  { db with records := db.records.modify p fun r => { r with status := mark } }

/-- `traverse_uid_db`, for a routine that changes one record at a time and never stops. -/
def traverseUidDb (db : Db) (r : Record → Record) : Db := { db with records := db.records.map r }

/-! ## The index by number -/

/-- Differences of `unsigned` values. -/
def unsignedSub (a b : Nat) : Nat := (a + 2 ^ 32 - b) % 2 ^ 32

/-- `uid_db_num_ofs` -/
def uidDbNumOfs (x : NumNdx) (num : Nat) : Nat := unsignedSub x.pos0Value num

/-- `set_uid_db_num_pos_0` -/
def setUidDbNumPos0 (db : Db) (num : Nat) : Db :=
  { db with numNdx := { db.numNdx with pos0Value := num, endValue := (num + 1) % 2 ^ 32 } }

/-- The first part of `set_uid_db_num`: the array grows down to `num`. What it had stays,
and the new places are empty. -/
def growTo (x : NumNdx) (num : Nat) : NumNdx :=
  if num < x.endValue then
    let have' := (unsignedSub x.pos0Value x.endValue + 1) % 2 ^ 32
    let want := (unsignedSub x.pos0Value num + 1) % 2 ^ 32
    { x with endValue := num
             records := (x.records.take have' ++ List.replicate want none).take want }
  else x

/-- `set_uid_db_num` -/
def setUidDbNum (db : Db) (p num : Nat) : Db :=
  let x := growTo db.numNdx num
  { db with numNdx := { x with records := x.records.set (uidDbNumOfs x num) (some p) } }

/-- The place `set_uid_db_num` writes to is in the array. -/
def setInBounds (db : Db) (num : Nat) : Bool :=
  let x := growTo db.numNdx num
  uidDbNumOfs x num < x.records.length

/-- `find_uid_by_num` -/
def findUidByNum (db : Db) (num : Nat) : Option Nat :=
  if db.numNdx.endValue ≤ num then (db.numNdx.records[uidDbNumOfs db.numNdx num]?).join
  else none

/-- The place `find_uid_by_num` reads, if it reads one, is in the array. -/
def findInBounds (db : Db) (num : Nat) : Bool :=
  num < db.numNdx.endValue || uidDbNumOfs db.numNdx num < db.numNdx.records.length

/-- `reset_uid_db_nums`; an array of one place is kept. -/
def resetUidDbNums (db : Db) : Db :=
  if db.numNdx.endValue < db.numNdx.pos0Value then
    { db with numNdx := { db.numNdx with endValue := (db.numNdx.pos0Value + 1) % 2 ^ 32
                                         records := [] } }
  else db

/-! ## What the operations do to the records -/

variable {db : Db} {id' : Bytes} {p q num : Nat} {mark : Mark}

@[simp]
theorem records_setUidDbNum : (db.setUidDbNum p num).records = db.records := rfl

@[simp]
theorem records_setUidDbNumPos0 : (db.setUidDbNumPos0 num).records = db.records := rfl

@[simp]
theorem records_resetUidDbNums : db.resetUidDbNums.records = db.records := by
  unfold resetUidDbNums
  split <;> rfl

@[simp]
theorem records_uidDbInsert :
    (db.uidDbInsert id' mark).records = db.records ++ [⟨id', mark⟩] := rfl

@[simp]
theorem length_records_setStatus : (db.setStatus p mark).records.length = db.records.length := by
  simp [setStatus]

@[simp]
theorem map_id_setStatus : (db.setStatus p mark).records.map Record.id = db.records.map Record.id :=
  map_modify_eq (by exact fun _ => rfl) p db.records

/-- A routine that leaves the UIDs as they are. -/
theorem map_id_traverseUidDb {r : Record → Record} (h : ∀ rec, (r rec).id = rec.id) :
    (db.traverseUidDb r).records.map Record.id = db.records.map Record.id := by
  rw [traverseUidDb, List.map_map]
  exact List.map_congr_left fun rec _ => h rec

@[simp]
theorem numNdx_traverseUidDb (r : Record → Record) : (db.traverseUidDb r).numNdx = db.numNdx := rfl

@[simp]
theorem numNdx_uidDbInsert : (db.uidDbInsert id' mark).numNdx = db.numNdx := rfl

@[simp]
theorem numNdx_setStatus : (db.setStatus p mark).numNdx = db.numNdx := rfl

/-! ## The search -/

/-- Databases with the same UIDs find the same records. -/
theorem findUidById_congr {db' : Db} (h : db'.records.map Record.id = db.records.map Record.id)
    (id' : Bytes) : db'.findUidById id' = db.findUidById id' := by
  have hfind : ∀ (k : Nat) (i : Bytes),
      (db'.records.drop k).findIdx? (fun r => r.id = i) =
        (db.records.drop k).findIdx? fun r => r.id = i := by
    intro k i
    have hmap : ∀ l : List Record, l.findIdx? (fun r => r.id = i) =
        (l.map Record.id).findIdx? fun j => j = i := by
      intro l
      rw [List.findIdx?_map]
      rfl
    rw [hmap, hmap, List.map_drop, List.map_drop, h]
  have hzero := hfind 0
  simp only [List.drop_zero] at hzero
  simp only [findUidById, hfind, hzero]

@[simp]
theorem findUidById_setUidDbNum :
    (db.setUidDbNum p num).findUidById id' = db.findUidById id' := rfl

@[simp]
theorem findUidById_setUidDbNumPos0 :
    (db.setUidDbNumPos0 num).findUidById id' = db.findUidById id' := rfl

@[simp]
theorem findUidById_setStatus :
    (db.setStatus p mark).findUidById id' = db.findUidById id' :=
  findUidById_congr map_id_setStatus id'

theorem findUidById_of_ne_nil (h : id' ≠ []) :
    db.findUidById id' = db.records.findIdx? fun r => r.id = id' := if_neg h

/-- What is found is a record with that UID. -/
theorem findUidById_spec (h : db.findUidById id' = some p) :
    ∃ r, db.records[p]? = some r ∧ r.id = id' := by
  unfold findUidById at h
  split at h
  · rename_i hnil
    obtain ⟨k, hk, rfl⟩ := Option.map_eq_some_iff.mp h
    obtain ⟨hlt, hid, -⟩ := List.findIdx?_eq_some_iff_getElem.mp hk
    have hget : db.records[k + 1]? = some (db.records.drop 1)[k] := by
      rw [← List.getElem?_eq_getElem hlt, List.getElem?_drop, Nat.add_comm]
    exact ⟨_, hget, by simpa [hnil] using hid⟩
  · obtain ⟨hlt, hid, -⟩ := List.findIdx?_eq_some_iff_getElem.mp h
    exact ⟨_, List.getElem?_eq_getElem hlt, by simpa using hid⟩

theorem findUidById_lt (h : db.findUidById id' = some p) : p < db.records.length := by
  obtain ⟨r, hr, -⟩ := findUidById_spec h
  exact (List.getElem?_eq_some_iff.mp hr).1

theorem findUidById_eq_none (hne : id' ≠ []) :
    db.findUidById id' = none ↔ ∀ r ∈ db.records, r.id ≠ id' := by
  rw [findUidById_of_ne_nil hne, List.findIdx?_eq_none_iff]
  simp

/-- A UID is found where it was found before. -/
theorem findUidById_uidDbInsert_of_some (h : db.findUidById id' = some p) (id₂ : Bytes) :
    (db.uidDbInsert id₂ mark).findUidById id' = some p := by
  unfold findUidById at h ⊢
  split at h
  · rename_i hnil
    obtain ⟨k, hk, rfl⟩ := Option.map_eq_some_iff.mp h
    rw [if_pos hnil]
    have hlen : 1 ≤ db.records.length := by
      have hlt := (List.findIdx?_eq_some_iff_getElem.mp hk).1
      rw [List.length_drop] at hlt
      omega
    rw [records_uidDbInsert, List.drop_append_of_le_length hlen, List.findIdx?_append, hk]
    rfl
  · rename_i hne
    rw [if_neg hne, records_uidDbInsert, List.findIdx?_append, h]
    rfl

/-- A new UID is found at the end. -/
theorem findUidById_uidDbInsert_of_none (hne : id' ≠ []) (h : db.findUidById id' = none) :
    (db.uidDbInsert id' mark).findUidById id' = some db.records.length := by
  rw [findUidById_of_ne_nil hne] at h ⊢
  rw [records_uidDbInsert, List.findIdx?_append, h]
  simp

/-- A new UID is found at the end, if at all. -/
theorem findUidById_uidDbInsert_self (h : db.findUidById id' = none) :
    (db.uidDbInsert id' mark).findUidById id' = none ∨
      (db.uidDbInsert id' mark).findUidById id' = some db.records.length := by
  by_cases hne : id' = []
  · subst hne
    cases hrecords : db.records with
    | nil => exact Or.inl (by simp [findUidById, uidDbInsert, hrecords])
    | cons r rest =>
      right
      simp only [findUidById, if_true, hrecords, List.drop_one, List.tail_cons,
        Option.map_eq_none_iff] at h
      simp [findUidById, uidDbInsert, hrecords, List.findIdx?_append, h]
  · exact Or.inr (findUidById_uidDbInsert_of_none hne h)

/-- Other UIDs are found as before. -/
theorem findUidById_uidDbInsert_of_ne {id₂ : Bytes} (hne : id' ≠ id₂) :
    (db.uidDbInsert id₂ mark).findUidById id' = db.findUidById id' := by
  have hsingle : ([⟨id₂, mark⟩] : List Record).findIdx? (fun r => r.id = id') = none := by
    simp [Ne.symm hne]
  unfold findUidById
  split
  · rename_i hnil
    subst hnil
    cases hrecords : db.records with
    | nil => simp [uidDbInsert, hrecords]
    | cons r rest =>
      rw [records_uidDbInsert, hrecords, List.cons_append, List.drop_one, List.drop_one,
        List.tail_cons, List.tail_cons, List.findIdx?_append, hsingle]
      simp
  · rw [records_uidDbInsert, List.findIdx?_append, hsingle]
    simp

/-! ## Status by UID -/

/-- The status under which a UID is known, which is that of its first record. -/
def markOf (db : Db) (id : Bytes) : Option Mark := (db.findUidById id).map db.status

/-- The UID is known, and not as an unseen one. -/
def Old (db : Db) (id : Bytes) : Prop := ∃ m, db.markOf id = some m ∧ m ≠ .unseen

instance (db : Db) (id : Bytes) : Decidable (db.Old id) :=
  match h : db.markOf id with
  | none => isFalse (by rintro ⟨m, hm, -⟩; simp [h] at hm)
  | some m =>
    if hne : m = .unseen then
      isFalse (by rintro ⟨m', hm, hm'⟩; simp_all)
    else isTrue ⟨m, h, hne⟩

theorem old_of_find (h : db.findUidById id' = some p) : db.Old id' ↔ db.status p ≠ .unseen := by
  simp [Old, markOf, h]

theorem old_of_markOf {m : Mark} (h : db.markOf id' = some m) : db.Old id' ↔ m ≠ .unseen := by
  simp [Old, h]

theorem not_old_of_none (h : db.findUidById id' = none) : ¬ db.Old id' := by
  simp [Old, markOf, h]

@[simp]
theorem status_setUidDbNum : (db.setUidDbNum p num).status q = db.status q := rfl

@[simp]
theorem markOf_setUidDbNum : (db.setUidDbNum p num).markOf id' = db.markOf id' := rfl

@[simp]
theorem markOf_setUidDbNumPos0 : (db.setUidDbNumPos0 num).markOf id' = db.markOf id' := rfl

theorem markOf_congr {db' : Db} (h : db'.records = db.records) (id' : Bytes) :
    db'.markOf id' = db.markOf id' := by
  have hfind : db'.findUidById id' = db.findUidById id' := findUidById_congr (by rw [h]) id'
  have hstatus : db'.status = db.status := by
    funext q
    simp [status, h]
  rw [markOf, markOf, hfind, hstatus]

@[simp]
theorem markOf_resetUidDbNums : db.resetUidDbNums.markOf id' = db.markOf id' :=
  markOf_congr records_resetUidDbNums id'

@[simp]
theorem markOf_initUidDb : initUidDb.markOf id' = none := by
  have hfind : initUidDb.findUidById id' = none := by
    unfold findUidById
    split <;> rfl
  rw [markOf, hfind]
  rfl

theorem status_uidDbInsert_of_lt (h : p < db.records.length) :
    (db.uidDbInsert id' mark).status p = db.status p := by
  simp [status, List.getElem?_append_left h]

@[simp]
theorem status_uidDbInsert_length :
    (db.uidDbInsert id' mark).status db.records.length = mark := by
  simp [status]

theorem status_setStatus (hp : p < db.records.length) :
    (db.setStatus p mark).status q = if q = p then mark else db.status q := by
  simp only [status, setStatus, List.getElem?_modify]
  by_cases hqp : q = p
  · subst hqp
    simp [List.getElem?_eq_getElem hp]
  · simp [hqp, Ne.symm hqp]

theorem status_setStatus_of_ne (hqp : q ≠ p) : (db.setStatus p mark).status q = db.status q := by
  simp only [status, setStatus, List.getElem?_modify]
  simp [Ne.symm hqp]

/-- A routine that changes seen records to seen ones, and no other. -/
theorem status_traverseUidDb_ne {r : Record → Record}
    (h : ∀ rec, (r rec).status ≠ .unseen ↔ rec.status ≠ .unseen) :
    (db.traverseUidDb r).status p ≠ .unseen ↔ db.status p ≠ .unseen := by
  simp only [status, traverseUidDb, List.getElem?_map]
  cases db.records[p]? with
  | none => exact Iff.rfl
  | some rec => exact h rec

/-- What was old stays old. -/
theorem old_traverseUidDb {r : Record → Record} (hid : ∀ rec, (r rec).id = rec.id)
    (h : ∀ rec, (r rec).status ≠ .unseen ↔ rec.status ≠ .unseen) :
    (db.traverseUidDb r).Old id' ↔ db.Old id' := by
  have hfind : (db.traverseUidDb r).findUidById id' = db.findUidById id' :=
    findUidById_congr (map_id_traverseUidDb hid) id'
  cases hp : db.findUidById id' with
  | none => exact iff_of_false (not_old_of_none (hfind.trans hp)) (not_old_of_none hp)
  | some p =>
    rw [old_of_find (hfind.trans hp), old_of_find hp]
    exact status_traverseUidDb_ne h

/-- A new UID is known under the status given. -/
theorem markOf_uidDbInsert_self (hne : id' ≠ []) (h : db.findUidById id' = none) :
    (db.uidDbInsert id' mark).markOf id' = some mark := by
  rw [Db.markOf, findUidById_uidDbInsert_of_none hne h, Option.map_some, status_uidDbInsert_length]

theorem markOf_uidDbInsert_of_ne {id₂ : Bytes} (hne : id' ≠ id₂) :
    (db.uidDbInsert id₂ mark).markOf id' = db.markOf id' := by
  rw [Db.markOf, Db.markOf, findUidById_uidDbInsert_of_ne hne]
  cases h : db.findUidById id' with
  | none => rfl
  | some p => rw [Option.map_some, Option.map_some, status_uidDbInsert_of_lt (findUidById_lt h)]

/-- A status is set for the UID that the record was found by, and for no other. -/
theorem markOf_setStatus {id₂ : Bytes} (h : db.findUidById id₂ = some p) :
    (db.setStatus p mark).markOf id' = if id' = id₂ then some mark else db.markOf id' := by
  have hlt := findUidById_lt h
  rw [Db.markOf, Db.markOf, findUidById_setStatus]
  by_cases hid : id' = id₂
  · subst hid
    rw [h, if_pos rfl, Option.map_some, status_setStatus hlt, if_pos rfl]
  · rw [if_neg hid]
    cases hq : db.findUidById id' with
    | none => rfl
    | some q =>
      have hqp : q ≠ p := by
        rintro rfl
        obtain ⟨r, hr, rfl⟩ := findUidById_spec h
        obtain ⟨r', hr', rfl⟩ := findUidById_spec hq
        rw [hr] at hr'
        exact hid (by rw [Option.some.inj hr'])
      rw [Option.map_some, Option.map_some, status_setStatus hlt, if_neg hqp]

/-- A UID that comes as an unseen one makes no other old, nor itself. -/
theorem old_uidDbInsert_unseen {id₂ : Bytes} (h : db.findUidById id₂ = none) :
    (db.uidDbInsert id₂ .unseen).Old id' ↔ db.Old id' := by
  by_cases hid : id' = id₂
  · subst hid
    refine iff_of_false ?_ (not_old_of_none h)
    rcases findUidById_uidDbInsert_self h with hnone | hlast
    · exact not_old_of_none hnone
    · rw [old_of_find hlast, status_uidDbInsert_length]
      simp
  · simp only [Old, markOf_uidDbInsert_of_ne hid]

/-! ## A numbering in use -/

/-- The index is set up for the numbers up to `count`. -/
structure Numbered (db : Db) (count : Nat) : Prop where
  pos0Value : db.numNdx.pos0Value = count
  endValue : db.numNdx.endValue ≤ count + 1
  length : db.numNdx.endValue ≤ count →
    db.numNdx.records.length = count - db.numNdx.endValue + 1
  stale : count < db.numNdx.endValue → db.numNdx.records.length ≤ 1

/-- No number is in use yet. -/
structure Unindexed (db : Db) (count : Nat) : Prop extends Numbered db count where
  empty : ∀ m ≤ count, db.findUidByNum m = none

/-- No more than one place is left of an earlier numbering. -/
def AtRest (db : Db) : Prop := db.numNdx.records.length ≤ 1

variable {count n : Nat}

/-- An `int` is below the highest `unsigned`. -/
theorem lt_uintMax (h : count < 2 ^ 31) : count < 2 ^ 32 - 1 := by
  omega

theorem numbered_setUidDbNumPos0 (hrest : db.AtRest) (hcount : count < 2 ^ 32 - 1) :
    (db.setUidDbNumPos0 count).Numbered count := by
  have hwrap : (count + 1) % 2 ^ 32 = count + 1 := Nat.mod_eq_of_lt (by omega)
  refine ⟨rfl, ?_, ?_, fun _ => hrest⟩
  · simp only [setUidDbNumPos0, hwrap, Nat.le_refl]
  · simp only [setUidDbNumPos0, hwrap]
    omega

theorem findUidByNum_setUidDbNumPos0 (hcount : count < 2 ^ 32 - 1) (hn : n ≤ count) :
    (db.setUidDbNumPos0 count).findUidByNum n = none := by
  have hwrap : (count + 1) % 2 ^ 32 = count + 1 := Nat.mod_eq_of_lt (by omega)
  unfold findUidByNum
  rw [if_neg]
  simp only [setUidDbNumPos0, hwrap]
  omega

theorem unindexed_setUidDbNumPos0 (hrest : db.AtRest) (hcount : count < 2 ^ 32 - 1) :
    (db.setUidDbNumPos0 count).Unindexed count :=
  ⟨numbered_setUidDbNumPos0 hrest hcount, fun _ hm => findUidByNum_setUidDbNumPos0 hcount hm⟩

theorem unsignedSub_of_le {a b : Nat} (ha : a < 2 ^ 32) (h : b ≤ a) : unsignedSub a b = a - b := by
  unfold unsignedSub
  omega

/-- What `growTo` leaves: numbers below `end` are there now, with nothing at them. -/
theorem growTo_spec (h : db.Numbered count) (hcount : count < 2 ^ 32 - 1) (hn : n ≤ count) :
    (growTo db.numNdx n).pos0Value = count ∧
      (growTo db.numNdx n).endValue = min n db.numNdx.endValue ∧
      (growTo db.numNdx n).records.length = count - min n db.numNdx.endValue + 1 ∧
      ∀ m ≤ count, min n db.numNdx.endValue ≤ m →
        (growTo db.numNdx n).records[count - m]? = some (db.findUidByNum m) := by
  obtain ⟨hpos, hend, hlength, hstale⟩ := h
  unfold growTo findUidByNum uidDbNumOfs
  rw [hpos]
  split
  -- the index grows down to `n`
  · rename_i hlt
    have hwant : (unsignedSub count n + 1) % 2 ^ 32 = count - n + 1 := by
      rw [unsignedSub_of_le (by omega) hn]
      omega
    have hhave : (unsignedSub count db.numNdx.endValue + 1) % 2 ^ 32 =
        count + 1 - db.numNdx.endValue := by
      unfold unsignedSub
      omega
    simp only [hwant, hhave, Nat.min_eq_left (Nat.le_of_lt hlt)]
    -- the places that are kept are all there
    have hfront : (db.numNdx.records.take (count + 1 - db.numNdx.endValue)).length =
        count + 1 - db.numNdx.endValue := by
      rw [List.length_take]
      by_cases he : db.numNdx.endValue ≤ count
      · rw [hlength he]
        omega
      · omega
    refine ⟨trivial, trivial, ?_, fun m hm hnm => ?_⟩
    · rw [List.length_take, List.length_append, List.length_replicate, hfront]
      omega
    rw [List.getElem?_take_of_lt (by omega), unsignedSub_of_le (by omega) hm]
    by_cases hem : db.numNdx.endValue ≤ m
    · -- an old place
      have hindex : count - m < db.numNdx.records.length := by
        rw [hlength (by omega)]
        omega
      rw [List.getElem?_append_left (by omega), List.getElem?_take_of_lt (by omega), if_pos hem,
        List.getElem?_eq_getElem hindex]
      rfl
    · -- a new place
      rw [List.getElem?_append_right (by omega), if_neg hem, List.getElem?_replicate_of_lt (by omega)]
  -- the number is in the index already
  · rename_i hlt
    have hmin : min n db.numNdx.endValue = db.numNdx.endValue := Nat.min_eq_right (by omega)
    rw [hmin]
    refine ⟨hpos, rfl, hlength (by omega), fun m hm hem => ?_⟩
    have hindex : count - m < db.numNdx.records.length := by
      rw [hlength (by omega)]
      omega
    rw [unsignedSub_of_le (by omega) hm, if_pos hem, List.getElem?_eq_getElem hindex]
    rfl

theorem Numbered.setUidDbNum (h : db.Numbered count) (hcount : count < 2 ^ 32 - 1)
    (hn : n ≤ count) :
    (db.setUidDbNum p n).Numbered count := by
  obtain ⟨hpos, hend, hlength, -⟩ := growTo_spec h hcount hn
  refine ⟨hpos, ?_, fun _ => ?_, ?_⟩
  · show (growTo db.numNdx n).endValue ≤ count + 1
    omega
  · show (List.set _ _ _).length = count - (growTo db.numNdx n).endValue + 1
    rw [List.length_set, hlength, hend]
  · show count < (growTo db.numNdx n).endValue → _
    omega

/-- A number that is too high does not change the size of the array. -/
theorem Numbered.setUidDbNum_of_gt (h : db.Numbered count) (hn : count < n) :
    (db.setUidDbNum p n).Numbered count := by
  have hgrow : growTo db.numNdx n = db.numNdx := by
    unfold growTo
    rw [if_neg (by have := h.endValue; omega)]
  obtain ⟨hpos, hend, hlength, hstale⟩ := h
  refine ⟨?_, ?_, fun he => ?_, fun he => ?_⟩ <;> simp only [Db.setUidDbNum, hgrow] at *
  · exact hpos
  · exact hend
  · rw [List.length_set]
    exact hlength he
  · rw [List.length_set]
    exact hstale he

/-- **The index is a map from numbers to records.** -/
theorem findUidByNum_setUidDbNum (h : db.Numbered count) (hcount : count < 2 ^ 32 - 1)
    {m : Nat} (hn : n ≤ count) (hm : m ≤ count) :
    (db.setUidDbNum p n).findUidByNum m = if m = n then some p else db.findUidByNum m := by
  obtain ⟨hpos, hend, hlength, hget⟩ := growTo_spec h hcount hn
  have hread : (db.setUidDbNum p n).findUidByNum m =
      if min n db.numNdx.endValue ≤ m then
        (((growTo db.numNdx n).records.set (count - n) (some p))[count - m]?).join
      else none := by
    unfold findUidByNum setUidDbNum uidDbNumOfs
    simp only [hpos, hend, unsignedSub_of_le (show count < 2 ^ 32 by omega) hn,
      unsignedSub_of_le (show count < 2 ^ 32 by omega) hm]
  rw [hread]
  by_cases hmn : m = n
  · subst hmn
    have hlt : count - m < (growTo db.numNdx m).records.length := by
      rw [hlength]
      omega
    rw [if_pos (Nat.min_le_left _ _), if_pos rfl, List.getElem?_set_self hlt]
    rfl
  · rw [if_neg hmn]
    by_cases hle : min n db.numNdx.endValue ≤ m
    · rw [if_pos hle, List.getElem?_set_ne (by omega), hget m hm hle]
      rfl
    · rw [if_neg hle, findUidByNum, if_neg (by omega)]

/-- Reading the index after a number that is too high was stored. -/
theorem findUidByNum_setUidDbNum_eq (h : db.Numbered count) (hn : count < n) (m : Nat) :
    (db.setUidDbNum p n).findUidByNum m = if db.numNdx.endValue ≤ m then
      ((db.numNdx.records.set (uidDbNumOfs db.numNdx n) (some p))[uidDbNumOfs db.numNdx m]?).join
      else none := by
  have hgrow : growTo db.numNdx n = db.numNdx := by
    unfold growTo
    rw [if_neg (by have := h.endValue; omega)]
  unfold findUidByNum Db.setUidDbNum
  simp only [hgrow]
  rfl

/-- It is not found below. -/
theorem findUidByNum_setUidDbNum_of_gt (h : db.Numbered count) (hcount : count < 2 ^ 31)
    (hn : count < n) (hn' : n < 2 ^ 32) {m : Nat} (hm : m ≤ count) :
    (db.setUidDbNum p n).findUidByNum m = db.findUidByNum m := by
  have hne : uidDbNumOfs db.numNdx n ≠ uidDbNumOfs db.numNdx m := by
    simp only [uidDbNumOfs, h.pos0Value]
    unfold unsignedSub
    omega
  rw [findUidByNum_setUidDbNum_eq h hn, List.getElem?_set_ne hne, findUidByNum]

/-- What the index holds is not lost. -/
theorem findUidByNum_setUidDbNum_ne_none (h : db.Numbered count) (hcount : count < 2 ^ 31) {m : Nat}
    (hm : m ≤ count) (hfind : db.findUidByNum m ≠ none) :
    (db.setUidDbNum p n).findUidByNum m ≠ none := by
  rcases Nat.lt_or_ge count n with hlt | hge
  · rw [findUidByNum_setUidDbNum_eq h hlt, List.getElem?_set]
    unfold findUidByNum at hfind
    split at hfind
    · rename_i hle
      rw [if_pos hle]
      split
      · rename_i heq
        rw [← heq] at hfind
        split
        · simp
        · rename_i hout
          rw [List.getElem?_eq_none (by omega)] at hfind
          exact hfind
      · exact hfind
    · exact absurd rfl hfind
  · rw [findUidByNum_setUidDbNum h (lt_uintMax hcount) hge hm]
    split
    · exact Option.some_ne_none p
    · exact hfind

/-- The index is all that matters to its readers. -/
theorem Numbered.of_numNdx {db' : Db} (h : db.Numbered count) (hndx : db'.numNdx = db.numNdx) :
    db'.Numbered count := by
  refine ⟨?_, ?_, ?_, ?_⟩ <;> rw [hndx]
  · exact h.pos0Value
  · exact h.endValue
  · exact h.length
  · exact h.stale

theorem findUidByNum_congr {db' : Db} (hndx : db'.numNdx = db.numNdx) (m : Nat) :
    db'.findUidByNum m = db.findUidByNum m := by
  rw [findUidByNum, findUidByNum, hndx]

theorem setInBounds_of_le (h : db.Numbered count) (hcount : count < 2 ^ 32 - 1) (hn : n ≤ count) :
    db.setInBounds n = true := by
  obtain ⟨hpos, hend, hlength, -⟩ := growTo_spec h hcount hn
  simp only [setInBounds, uidDbNumOfs, hpos, hlength, decide_eq_true_eq]
  rw [unsignedSub_of_le (by omega) hn]
  omega

/-- Numbers above the highest one wrap around to places that no array has. -/
theorem setInBounds_of_gt (h : db.Numbered count) (hcount : count < 2 ^ 31) (hn : count < n)
    (hn' : n < 2 ^ 32) : db.setInBounds n = false := by
  obtain ⟨hpos, hend, hlength, hstale⟩ := h
  have hgrow : growTo db.numNdx n = db.numNdx := by
    unfold growTo
    rw [if_neg (by omega)]
  simp only [setInBounds, hgrow, uidDbNumOfs, hpos, decide_eq_false_iff_not]
  unfold unsignedSub
  omega

theorem findInBounds_of_le (h : db.Numbered count) (hcount : count < 2 ^ 32 - 1) (hn : n ≤ count) :
    db.findInBounds n = true := by
  obtain ⟨hpos, hend, hlength, hstale⟩ := h
  simp only [findInBounds, Bool.or_eq_true, decide_eq_true_eq, uidDbNumOfs, hpos]
  rcases Nat.lt_or_ge n db.numNdx.endValue with hlt | hge
  · exact Or.inl hlt
  · refine Or.inr ?_
    rw [unsignedSub_of_le (by omega) hn, hlength (by omega)]
    omega

/-- `uid_reset_num` leaves the index at rest. -/
theorem Numbered.atRest_resetUidDbNums (h : db.Numbered count) :
    db.resetUidDbNums.AtRest := by
  obtain ⟨hpos, hend, hlength, hstale⟩ := h
  unfold resetUidDbNums AtRest
  split
  · exact Nat.zero_le _
  · by_cases he : db.numNdx.endValue ≤ count
    · rw [hlength he]
      omega
    · exact hstale (by omega)

theorem AtRest.resetUidDbNums (h : db.AtRest) : db.resetUidDbNums.AtRest := by
  unfold Db.resetUidDbNums
  split
  · exact Nat.zero_le _
  · exact h

end Db

end Fetchmail.Uid
