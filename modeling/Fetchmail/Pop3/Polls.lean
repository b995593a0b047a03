import Mathlib.Logic.Relation
import Fetchmail.Pop3.FastAgreement

/-!
# Poll after Poll

One POP3 account over many polls. A poll opens with `pop3_getrange`, by the full list or by
the binary search; then the driver asks for the age of messages and marks or deletes some of
them, logs out, and the poll ends with `uid_swap_lists` or, after an error,
`uid_discard_new_list`. Between polls the mailbox changes.

The list of the messages that were dealt with is kept beside the program, and the invariant
ties the two databases to it in each phase of a poll.
-/

namespace Fetchmail.Pop3

open Fetchmail.Lib Fetchmail.Transact Fetchmail.Uid

/-! ## The end of a poll -/

namespace Statics

/-- `uid_swap_lists` -/
def uidSwapLists (s : Statics) : Statics :=
  if s.newsaved.uidDbNRecords ≠ 0 then
    { s with oldsaved := s.newsaved, newsaved := Db.initUidDb }
  else s

/-- `uid_discard_new_list` -/
def uidDiscardNewList (s : Statics) : Statics :=
  if s.newsaved.uidDbNRecords ≠ 0 then { s with newsaved := Db.initUidDb } else s

/-- `uid_reset_num` -/
def uidResetNum (s : Statics) : Statics := { s with oldsaved := s.oldsaved.resetUidDbNums }

/-- What follows `query_host`. -/
def endPoll (success : Bool) (s : Statics) : Statics :=
  (if success then s.uidSwapLists else s.uidDiscardNewList).uidResetNum

end Statics

/-! ## Runs -/

/-- A poll under way. -/
structure Poll where
  /-- the binary search is used -/
  fast : Bool
  flush : Bool
  /-- the message that the driver has found to be new, or to be flushed -/
  asked : Option Nat
  deriving DecidableEq, Repr

/-- The account. `performed` and `used` are not part of the program: the UIDs of messages
that `pop3_mark_seen` or `pop3_delete` was called for, and those of all messages so far. -/
structure World where
  statics : Statics
  box : List Bytes
  performed : List Bytes
  used : List Bytes
  poll : Option Poll

/-- The session of a poll starts with a server that tells the truth: about the whole mailbox,
unless the binary search is used or there is no message. -/
structure Begins {ω : Type} (ctl : Ctl) (d : Dialogue Statics ω Command) (box : List Bytes) :
    Prop where
  counts : Counts ctl d box.length
  honest : Honest False box.length (uidAt box) d
  list : ctl.wantsFast box.length = false → box ≠ [] →
    ∃ listing, listing.Perm (listingOf box) ∧ FullList ctl d box.length listing

/-- What can happen next. -/
inductive Step (ω : Type) : World → World → Prop
  /-- messages are removed and appended -/
  | change {w : World} {box fresh : List Bytes} :
      w.poll = none → box.Sublist w.box → fresh.Nodup → (∀ id ∈ fresh, id ≠ [] ∧ id ∉ w.used) →
      Step ω w { w with box := box ++ fresh, used := fresh ++ w.used }
  | start {w : World} {ctl : Ctl} {d : Dialogue Statics ω Command} {r : Range} :
      w.poll = none → ctl.fetchall = false → Begins ctl d w.box →
      d.statics = { w.statics with dofastuidl := false } →
      ((pop3Getrange ctl).exec d).val = .ok r → r.err = .success →
      Step ω w { w with statics := ((pop3Getrange ctl).exec d).state.statics
                        poll := some ⟨ctl.wantsFast w.box.length, ctl.flush, none⟩ }
  | isOld {w : World} {poll : Poll} {n : Nat} {d : Dialogue Statics ω Command} {b : Bool} :
      w.poll = some poll → 1 ≤ n → n ≤ w.box.length → d.statics = w.statics →
      Honest False w.box.length (uidAt w.box) d → ((pop3IsOld n).exec d).val = .ok b →
      Step ω w { w with statics := ((pop3IsOld n).exec d).state.statics
                        poll := some { poll with
                          asked := if b = false ∨ poll.flush = true then some n else none } }
  /-- the alarm goes off while the server is asked -/
  | isOldCut {w : World} {poll : Poll} {n : Nat} {d : Dialogue Statics ω Command} {t : Throw} :
      w.poll = some poll → 1 ≤ n → n ≤ w.box.length → d.statics = w.statics →
      Honest False w.box.length (uidAt w.box) d → ((pop3IsOld n).exec d).val = .error t →
      Step ω w { w with statics := ((pop3IsOld n).exec d).state.statics
                        poll := some { poll with asked := none } }
  | markSeen {w : World} {poll : Poll} {n : Nat} {d : Dialogue Statics ω Command} :
      w.poll = some poll → poll.asked = some n → d.statics = w.statics →
      Step ω w { w with statics := ((pop3MarkSeen n).exec d).state.statics
                        performed := uidAt w.box n :: w.performed }
  /-- whatever comes of it -/
  | delete {w : World} {poll : Poll} {n : Nat} {d : Dialogue Statics ω Command} :
      w.poll = some poll → poll.asked = some n → d.statics = w.statics →
      Step ω w { w with statics := ((pop3Delete n).exec d).state.statics
                        performed := uidAt w.box n :: w.performed }
  /-- whatever comes of it, and also after an error -/
  | logout {w : World} {poll : Poll} {d : Dialogue Statics ω Command} :
      w.poll = some poll → d.statics = w.statics →
      Step ω w { w with statics := (pop3Logout.exec d).state.statics }
  | finish {w : World} {poll : Poll} (success : Bool) :
      w.poll = some poll →
      Step ω w { w with statics := w.statics.endPoll success, poll := none }

/-! ## The invariant -/

/-- The index goes to rest with `uid_reset_num`. -/
def Resets (db : Db) : Prop := db.resetUidDbNums.AtRest

variable {box performed used : List Bytes} {s : Statics} {count n : Nat}

/-- The old database knows what was performed for the messages there are, and its index leads
to their records. -/
structure Tied (box performed used : List Bytes) (db : Db) : Prop where
  old : ∀ id ∈ box, db.Old id ↔ id ∈ performed
  used : ∀ id, db.Old id → id ∈ used
  index : ∀ m, 1 ≤ m → m ≤ box.length → ∀ q, db.findUidByNum m = some q →
    db.findUidById (uidAt box m) = some q

/-- The new database has the records of a list, with their status. -/
structure Copied (box performed : List Bytes) (listing : List (Nat × Bytes)) (db : Db) : Prop where
  ids : db.records.map Record.id = listing.map Prod.snd
  status : ∀ k n id, listing[k]? = some (n, id) → (db.status k ≠ .unseen ↔ id ∈ performed)
  index : ∀ m, 1 ≤ m → m ≤ box.length → ∀ k, db.findUidByNum m = some k →
    ∃ id, listing[k]? = some (m, id)

/-- Messages that were not dealt with are in the index. -/
def Indexed (box performed : List Bytes) (db : Db) : Prop :=
  ∀ m, 1 ≤ m → m ≤ box.length → uidAt box m ∉ performed → db.findUidByNum m ≠ none

/-- In the binary search mode. -/
structure FastInv (box performed used : List Bytes) (asked : Option Nat) (s : Statics) : Prop where
  fast : s.dofastuidl = true
  count : box.length < 2 ^ 31
  last : ∃ first : Nat, s.last = first
  tied : Tied box performed used s.oldsaved
  known : s.oldsaved.records ≠ []
  numbered : s.oldsaved.Numbered box.length
  asked : ∀ n, asked = some n → s.oldsaved.findUidByNum n ≠ none
  newRecords : s.newsaved.records = []
  newIndex : ∀ m ≤ box.length, s.newsaved.findUidByNum m = none

/-- After the list. -/
structure FullInv (box performed used : List Bytes) (listing : List (Nat × Bytes)) (s : Statics) :
    Prop where
  slow : s.dofastuidl = false
  perm : listing.Perm (listingOf box)
  tied : Tied box performed used s.oldsaved
  known : box ≠ [] → s.oldsaved.records ≠ []
  oldIndexed : Indexed box performed s.oldsaved
  oldResets : Resets s.oldsaved
  copied : Copied box performed listing s.newsaved
  newIndexed : Indexed box performed s.newsaved
  newResets : Resets s.newsaved

/-- **The invariant** of all runs. -/
structure Inv (w : World) : Prop where
  nodup : w.box.Nodup
  ids : ∀ id ∈ w.box, id ≠ []
  boxUsed : ∀ id ∈ w.box, id ∈ w.used
  performedUsed : ∀ id ∈ w.performed, id ∈ w.used
  asked : ∀ poll, w.poll = some poll → ∀ n, poll.asked = some n → 1 ≤ n ∧ n ≤ w.box.length
  between : w.poll = none → (∀ id ∈ w.box, w.statics.oldsaved.Old id ↔ id ∈ w.performed) ∧
    (∀ id, w.statics.oldsaved.Old id → id ∈ w.used) ∧ w.statics.oldsaved.AtRest
  fast : ∀ poll, w.poll = some poll → poll.fast = true →
    FastInv w.box w.performed w.used poll.asked w.statics ∧ poll.flush = false
  full : ∀ poll, w.poll = some poll → poll.fast = false →
    ∃ listing, FullInv w.box w.performed w.used listing w.statics

/-! ## Marking a message -/

/-- The status of message `n` is set, if it is in the index. -/
def markNum (db : Db) (n : Nat) (mark : Mark) : Db :=
  match db.findUidByNum n with
  | some p => db.setStatus p mark
  | none => db

variable {db : Db} {mark : Mark} {asked : Option Nat} {listing : List (Nat × Bytes)}

@[simp]
theorem numNdx_markNum : (markNum db n mark).numNdx = db.numNdx := by
  unfold markNum
  split <;> rfl

@[simp]
theorem map_id_markNum : (markNum db n mark).records.map Record.id = db.records.map Record.id := by
  unfold markNum
  split
  · exact Db.map_id_setStatus
  · rfl

@[simp]
theorem findUidByNum_markNum (m : Nat) : (markNum db n mark).findUidByNum m = db.findUidByNum m :=
  Db.findUidByNum_congr numNdx_markNum m

@[simp]
theorem findUidById_markNum (id : Bytes) : (markNum db n mark).findUidById id = db.findUidById id :=
  Db.findUidById_congr map_id_markNum id

theorem records_markNum_ne_nil (h : db.records ≠ []) : (markNum db n mark).records ≠ [] := by
  intro hnil
  have hids : (markNum db n mark).records.map Record.id = db.records.map Record.id :=
    map_id_markNum
  rw [hnil, List.map_nil] at hids
  exact h (List.map_eq_nil_iff.mp hids.symm)

theorem Resets.of_numNdx {db' : Db} (h : Resets db) (hndx : db'.numNdx = db.numNdx) :
    Resets db' := by
  unfold Resets Db.AtRest Db.resetUidDbNums at h ⊢
  rw [hndx]
  split <;> simp_all

theorem Statics.markNewSeen_eq (s : Statics) (n : Nat) :
    s.markNewSeen n = { s with newsaved := markNum s.newsaved n .seen
                               outOfBounds := (s.findNewNum n).2.outOfBounds } := by
  unfold markNewSeen markNum findNewNum
  cases s.newsaved.findUidByNum n <;> rfl

theorem Statics.markOldSeen_eq (s : Statics) (n : Nat) :
    s.markOldSeen n = { s with oldsaved := markNum s.oldsaved n .seen
                               outOfBounds := (s.findOldNum n).2.outOfBounds } := by
  unfold markOldSeen markNum findOldNum
  cases s.oldsaved.findUidByNum n <;> rfl

/-- A record gets a status other than unseen: its UID is old from then on. -/
theorem old_setStatus {id id' : Bytes} {p : Nat} (h : db.findUidById id = some p)
    (hmark : mark ≠ .unseen) : (db.setStatus p mark).Old id' ↔ id' = id ∨ db.Old id' := by
  have hm : (db.setStatus p mark).markOf id' = if id' = id then some mark else db.markOf id' :=
    Db.markOf_setStatus h
  by_cases hid : id' = id
  · rw [if_pos hid] at hm
    exact iff_of_true ((Db.old_of_markOf hm).mpr hmark) (Or.inl hid)
  · rw [if_neg hid] at hm
    simp [Db.Old, hm, hid]

theorem Tied.congr {performed' : List Bytes} (h : Tied box performed used db)
    (hp : ∀ id, id ∈ performed ↔ id ∈ performed') : Tied box performed' used db :=
  ⟨fun id hid => (h.old id hid).trans (hp id), h.used, h.index⟩

/-- Marking a message in the old database. -/
theorem Tied.markNum (h : Tied box performed used db) (hn : 1 ≤ n) (hn' : n ≤ box.length)
    (hmark : mark ≠ .unseen) (hused : uidAt box n ∈ used)
    (hnone : db.findUidByNum n = none → uidAt box n ∈ performed) :
    Tied box (uidAt box n :: performed) used (markNum db n mark) := by
  have hindex : ∀ m, 1 ≤ m → m ≤ box.length → ∀ q, (Pop3.markNum db n mark).findUidByNum m = some q →
      (Pop3.markNum db n mark).findUidById (uidAt box m) = some q := by
    intro m hm hm' q hq
    rw [findUidByNum_markNum] at hq
    rw [findUidById_markNum]
    exact h.index m hm hm' q hq
  -- a number without an entry is that of a message that was dealt with
  cases hfind : db.findUidByNum n with
  | none =>
    have hmem := hnone hfind
    have hsame : Pop3.markNum db n mark = db := by simp [Pop3.markNum, hfind]
    rw [hsame]
    refine h.congr fun id => ⟨List.mem_cons_of_mem _, fun hid => ?_⟩
    rcases List.mem_cons.mp hid with rfl | hid
    · exact hmem
    · exact hid
  | some p =>
    have hold : ∀ id, (Pop3.markNum db n mark).Old id ↔ id = uidAt box n ∨ db.Old id := by
      intro id
      have hset : (db.setStatus p mark).Old id ↔ id = uidAt box n ∨ db.Old id :=
        old_setStatus (h.index n hn hn' p hfind) hmark
      simpa only [Pop3.markNum, hfind] using hset
    refine ⟨fun id hid => ?_, fun id hid => ?_, hindex⟩
    · rw [hold, h.old id hid, List.mem_cons]
    · rcases (hold id).mp hid with rfl | hid
      · exact hused
      · exact h.used id hid

/-- The UIDs of a list are those of the mailbox. -/
theorem nodup_of_perm (hperm : listing.Perm (listingOf box)) (hnodup : box.Nodup) :
    (listing.map Prod.snd).Nodup := by
  have hsnd := hperm.map Prod.snd
  rw [map_snd_listingOf] at hsnd
  exact hsnd.symm.nodup hnodup

theorem eq_uidAt_of_perm (hperm : listing.Perm (listingOf box)) {k : Nat} {id : Bytes}
    (h : listing[k]? = some (n, id)) : id = uidAt box n :=
  (mem_listingOf.mp (hperm.mem_iff.mp (List.mem_of_getElem? h))).2.2

/-- Marking a message in the new database. -/
theorem Copied.markNum (h : Copied box performed listing db) (hperm : listing.Perm (listingOf box))
    (hnodup : box.Nodup) (hn : 1 ≤ n) (hn' : n ≤ box.length) (hmark : mark ≠ .unseen)
    (hnone : db.findUidByNum n = none → uidAt box n ∈ performed) :
    Copied box (uidAt box n :: performed) listing (markNum db n mark) := by
  have hlength : db.records.length = listing.length := by
    have hids := congrArg List.length h.ids
    simpa using hids
  refine ⟨map_id_markNum.trans h.ids, fun k n' id hk => ?_, fun m hm hm' k hk => ?_⟩
  · cases hfind : db.findUidByNum n with
    | none =>
      have hsame : Pop3.markNum db n mark = db := by simp [Pop3.markNum, hfind]
      rw [hsame, h.status k n' id hk, List.mem_cons]
      refine ⟨Or.inr, fun hid => ?_⟩
      rcases hid with rfl | hid
      · exact hnone hfind
      · exact hid
    | some p =>
      obtain ⟨id₀, hp⟩ := h.index n hn hn' p hfind
      obtain rfl := eq_uidAt_of_perm hperm hp
      have hlt : p < db.records.length := by
        rw [hlength]
        exact (List.getElem?_eq_some_iff.mp hp).1
      have hset : (Pop3.markNum db n mark).status k = if k = p then mark else db.status k := by
        simp only [Pop3.markNum, hfind, Db.status_setStatus hlt]
      rw [hset, List.mem_cons]
      -- one record of the message, by the distinct UIDs
      by_cases hkp : k = p
      · subst hkp
        rw [hk] at hp
        cases hp
        simp [hmark]
      · have hne : id ≠ uidAt box n := by
          rintro rfl
          have hlt' : k < (listing.map Prod.snd).length := by
            rw [List.length_map]
            exact (List.getElem?_eq_some_iff.mp hk).1
          exact hkp ((List.getElem?_inj hlt' (nodup_of_perm hperm hnodup)).mp (by simp [hk, hp]))
        rw [if_neg hkp, h.status k n' id hk]
        simp [hne]
  · rw [findUidByNum_markNum] at hk
    exact h.index m hm hm' k hk

theorem Indexed.markNum (h : Indexed box performed db) {id : Bytes} :
    Indexed box (id :: performed) (markNum db n mark) := by
  intro m hm hm' hno
  rw [findUidByNum_markNum]
  exact h m hm hm' fun hmem => hno (List.mem_cons_of_mem _ hmem)

/-- The end of `pop3_delete` in the fast mode. -/
theorem Statics.markDeleted_fast (h : s.dofastuidl = true) :
    ∃ b b', s.markDeleted n = { s with oldsaved := Pop3.markNum s.oldsaved n .deleted
                                       outOfBounds := b, nullDeref := b' } := by
  unfold markDeleted Pop3.markNum
  rw [if_pos h]
  cases hfind : s.oldsaved.findUidByNum n with
  | none => exact ⟨_, true, by simp only [findOldNum, hfind]; rfl⟩
  | some p => exact ⟨_, s.nullDeref, by simp only [findOldNum, hfind]; rfl⟩

/-- The end of `pop3_delete` otherwise. -/
theorem Statics.markDeleted_full (h : s.dofastuidl = false) :
    ∃ b b', s.markDeleted n = { s with newsaved := Pop3.markNum s.newsaved n .deleted
                                       outOfBounds := b, nullDeref := b' } := by
  unfold markDeleted Pop3.markNum
  rw [if_neg (by simp [h])]
  cases hfind : s.newsaved.findUidByNum n with
  | none => exact ⟨_, true, by simp only [findNewNum, hfind]; rfl⟩
  | some p => exact ⟨_, s.nullDeref, by simp only [findNewNum, hfind]; rfl⟩

theorem Statics.markUidSeen_eq (s : Statics) (n : Nat) :
    ∃ b, s.markUidSeen n = { s with oldsaved := Pop3.markNum s.oldsaved n .seen
                                    newsaved := Pop3.markNum s.newsaved n .seen
                                    outOfBounds := b } := by
  refine ⟨((s.markNewSeen n).findOldNum n).2.outOfBounds, ?_⟩
  rw [markUidSeen, markOldSeen_eq]
  simp only [markNewSeen_eq]

/-- `mark_uid_seen` in the fast mode, for the message that was asked for. -/
theorem FastInv.markUidSeen (h : FastInv box performed used asked s) (hn : 1 ≤ n)
    (hn' : n ≤ box.length) (hasked : asked = some n) (hused : uidAt box n ∈ used) :
    FastInv box (uidAt box n :: performed) used asked (s.markUidSeen n) := by
  obtain ⟨b, heq⟩ := s.markUidSeen_eq n
  have hnew : Pop3.markNum s.newsaved n .seen = s.newsaved := by
    simp [Pop3.markNum, h.newIndex n hn']
  rw [heq, hnew]
  refine ⟨h.fast, h.count, h.last, ?_, records_markNum_ne_nil h.known, h.numbered.of_numNdx numNdx_markNum,
    fun m hm => ?_, h.newRecords, h.newIndex⟩
  · exact h.tied.markNum hn hn' (by decide) hused fun hnone => absurd hnone (h.asked n hasked)
  · rw [findUidByNum_markNum]
    exact h.asked m hm

theorem FastInv.markDeleted (h : FastInv box (uidAt box n :: performed) used asked s) (hn : 1 ≤ n)
    (hn' : n ≤ box.length) (hused : uidAt box n ∈ used) :
    FastInv box (uidAt box n :: performed) used asked (s.markDeleted n) := by
  obtain ⟨b, b', heq⟩ := Statics.markDeleted_fast (n := n) h.fast
  have htied := h.tied.markNum hn hn' (show Mark.deleted ≠ .unseen by decide) hused
    fun _ => List.mem_cons_self
  rw [heq]
  refine ⟨h.fast, h.count, h.last, htied.congr fun id => ?_, records_markNum_ne_nil h.known,
    h.numbered.of_numNdx numNdx_markNum, fun m hm => ?_, h.newRecords, h.newIndex⟩
  · simp
  · rw [findUidByNum_markNum]
    exact h.asked m hm

/-- `mark_uid_seen` after the list. -/
theorem FullInv.markUidSeen (h : FullInv box performed used listing s) (hnodup : box.Nodup)
    (hn : 1 ≤ n) (hn' : n ≤ box.length) (hused : uidAt box n ∈ used) :
    FullInv box (uidAt box n :: performed) used listing (s.markUidSeen n) := by
  obtain ⟨b, heq⟩ := s.markUidSeen_eq n
  rw [heq]
  have hold : s.oldsaved.findUidByNum n = none → uidAt box n ∈ performed := fun hnone => by
    by_contra hno
    exact h.oldIndexed n hn hn' hno hnone
  have hnew : s.newsaved.findUidByNum n = none → uidAt box n ∈ performed := fun hnone => by
    by_contra hno
    exact h.newIndexed n hn hn' hno hnone
  exact ⟨h.slow, h.perm, h.tied.markNum hn hn' (by decide) hused hold,
    fun hne => records_markNum_ne_nil (h.known hne), h.oldIndexed.markNum, h.oldResets.of_numNdx numNdx_markNum,
    h.copied.markNum h.perm hnodup hn hn' (by decide) hnew, h.newIndexed.markNum,
    h.newResets.of_numNdx numNdx_markNum⟩

theorem FullInv.markDeleted (h : FullInv box (uidAt box n :: performed) used listing s)
    (hnodup : box.Nodup) (hn : 1 ≤ n) (hn' : n ≤ box.length) :
    FullInv box (uidAt box n :: performed) used listing (s.markDeleted n) := by
  obtain ⟨b, b', heq⟩ := Statics.markDeleted_full (n := n) h.slow
  have hcopied := h.copied.markNum h.perm hnodup hn hn' (show Mark.deleted ≠ .unseen by decide)
    fun _ => List.mem_cons_self
  rw [heq]
  refine ⟨h.slow, h.perm, h.tied, h.known, h.oldIndexed, h.oldResets,
    ⟨hcopied.ids, fun k m id hk => ?_, hcopied.index⟩, fun m hm hm' hno => ?_, h.newResets.of_numNdx numNdx_markNum⟩
  · rw [hcopied.status k m id hk]
    simp
  · rw [findUidByNum_markNum]
    exact h.newIndexed m hm hm' hno

/-! ## Logging out -/

theorem id_markAsExpungedIf (rec : Record) : (Statics.markAsExpungedIf rec).id = rec.id := by
  unfold Statics.markAsExpungedIf
  split <;> rfl

/-- A deleted record is as old as an expunged one. -/
theorem status_markAsExpungedIf (rec : Record) :
    (Statics.markAsExpungedIf rec).status ≠ .unseen ↔ rec.status ≠ .unseen := by
  unfold Statics.markAsExpungedIf
  split
  · rename_i hdeleted
    simp [hdeleted]
  · exact Iff.rfl

/-- The database with its deleted records expunged. -/
def expunged (db : Db) : Db := db.traverseUidDb Statics.markAsExpungedIf

@[simp]
theorem map_id_expunged : (expunged db).records.map Record.id = db.records.map Record.id :=
  Db.map_id_traverseUidDb id_markAsExpungedIf

theorem old_expunged (id : Bytes) : (expunged db).Old id ↔ db.Old id :=
  Db.old_traverseUidDb id_markAsExpungedIf status_markAsExpungedIf

theorem Tied.expunged (h : Tied box performed used db) :
    Tied box performed used (expunged db) where
  old := fun id hid => (old_expunged id).trans (h.old id hid)
  used := fun id hold => h.used id ((old_expunged id).mp hold)
  index := fun m hm hm' q hq =>
    (Db.findUidById_congr map_id_expunged _).trans (h.index m hm hm' q hq)

theorem Copied.expunged (h : Copied box performed listing db) :
    Copied box performed listing (expunged db) where
  ids := map_id_expunged.trans h.ids
  status := fun k n id hk =>
    (Db.status_traverseUidDb_ne status_markAsExpungedIf).trans (h.status k n id hk)
  index := h.index

/-- `expunge_uids` in the fast mode: the old database is the one in use. -/
theorem FastInv.expungeUids (h : FastInv box performed used asked s) :
    FastInv box performed used asked s.expungeUids := by
  have heq : s.expungeUids = { s with oldsaved := expunged s.oldsaved } := if_pos h.fast
  have hknown : (expunged s.oldsaved).records ≠ [] := fun hnil =>
    h.known (List.map_eq_nil_iff.mp hnil)
  rw [heq]
  exact ⟨h.fast, h.count, h.last, h.tied.expunged, hknown, h.numbered.of_numNdx rfl, h.asked,
    h.newRecords, h.newIndex⟩

/-- After the list, it is the new one. -/
theorem FullInv.expungeUids (h : FullInv box performed used listing s) :
    FullInv box performed used listing s.expungeUids := by
  have heq : s.expungeUids = { s with newsaved := expunged s.newsaved } := if_neg (by simp [h.slow])
  rw [heq]
  exact ⟨h.slow, h.perm, h.tied, h.known, h.oldIndexed, h.oldResets, h.copied.expunged, h.newIndexed,
    h.newResets.of_numNdx rfl⟩

/-- What `pop3_logout` does to the variables. -/
theorem statics_exec_pop3Logout {ω : Type} (d : Dialogue Statics ω Command) :
    (pop3Logout.exec d).state.statics = d.statics ∨
      (pop3Logout.exec d).state.statics = d.statics.expungeUids := by
  have hkeeps := keeps_command .quit d
  simp only [pop3Logout, Talk.exec_bind]
  cases hval : ((command .quit).exec d).val with
  | error t => exact Or.inl hkeeps
  | ok r =>
    obtain ⟨ok, text⟩ := r
    by_cases hok : ok = .success
    · right
      simp only [hok, if_true, Talk.exec_bind, exec_assign, Talk.exec_pure]
      rw [hkeeps]
    · left
      simp only [hok, if_false, Talk.exec_pure]
      exact hkeeps

/-! ## Asking for a message -/

section

variable {ω : Type} {d : Dialogue Statics ω Command} {s₀ : Statics} {first : Nat}

/-- What a search leaves behind, when the old database was tied before. -/
theorem Bounded.fastInv (h : Bounded box.length (uidAt box) s₀ first s)
    (hcount : box.length < 2 ^ 31) (h₀ : s₀.oldsaved.Unindexed box.length)
    (hids : ∀ id ∈ box, id ≠ []) (hold : ∀ id ∈ box, s₀.oldsaved.Old id ↔ id ∈ performed)
    (hused : ∀ id, s₀.oldsaved.Old id → id ∈ used) (hnew : s₀.newsaved.records = [])
    (hnewIndex : ∀ m ≤ box.length, s₀.newsaved.findUidByNum m = none)
    (hasked : ∀ n, asked = some n → s.oldsaved.findUidByNum n ≠ none) :
    FastInv box performed used asked s := by
  have hrest := h.searched.rest
  obtain ⟨hnumbered, -, hindex⟩ := h.searched.index h₀
  refine ⟨?_, hcount, ⟨first, h.last⟩, ⟨fun id hid => ?_, fun id hid => ?_, fun m hm hm' q hq => ?_⟩,
    h.known, hnumbered, hasked, ?_, ?_⟩
  · rw [hrest]
    exact h.fast
  · exact (h.searched.kept.old id).trans (hold id hid)
  · exact hused id ((h.searched.kept.old id).mp hid)
  · exact (hindex m hm hm' q hq).2.2 (hids _ (uidAt_mem hm hm'))
  · rw [hrest]
    exact hnew
  · rw [hrest]
    exact hnewIndex

/-- The state of a fast poll is one that a search could have led to. -/
theorem FastInv.bounded (h : FastInv box performed used asked s) :
    ∃ s₀ first, Bounded box.length (uidAt box) s₀ first s ∧ s₀.oldsaved.Unindexed box.length ∧
      (∀ id, s₀.oldsaved.Old id ↔ s.oldsaved.Old id) ∧ s₀.newsaved = s.newsaved := by
  obtain ⟨first, hlast⟩ := h.last
  -- the same records, before any of them was numbered
  let db : Db := { s.oldsaved with numNdx := Db.initUidDb.numNdx }
  have hkept : Kept (db.setUidDbNumPos0 box.length) s.oldsaved := kept_of_records rfl
  have hrest : db.AtRest := Nat.zero_le 1
  refine ⟨{ s with oldsaved := db.setUidDbNumPos0 box.length }, first,
    ⟨⟨hkept, fun _ => ⟨h.numbered, rfl, fun m hm hm' q hq => ?_⟩, rfl⟩, hlast, h.known, h.fast⟩,
    Db.unindexed_setUidDbNumPos0 hrest (Db.lt_uintMax h.count), fun id => (hkept.old id).symm, rfl⟩
  have hfound := h.tied.index m hm hm' q hq
  exact ⟨Db.findUidById_lt hfound, (Db.old_of_find hfound).symm.trans (hkept.old _), fun _ => hfound⟩

/-- **`pop3_is_old`** in a fast poll. -/
theorem FastInv.isOld (h : FastInv box performed used asked d.statics) (hids : ∀ id ∈ box, id ≠ [])
    (hhonest : Honest False box.length (uidAt box) d) (hn : 1 ≤ n) (hn' : n ≤ box.length) :
    match ((pop3IsOld n : Session ω Bool).exec d).val with
    | .ok b => FastInv box performed used (if b = false then some n else none)
        ((pop3IsOld n : Session ω Bool).exec d).state.statics ∧ (uidAt box n ∈ performed → b = true)
    | .error _ => FastInv box performed used none
        ((pop3IsOld n : Session ω Bool).exec d).state.statics := by
  obtain ⟨s₀, first, hbounded, h₀, hold, hnew⟩ := h.bounded
  have hold₀ : ∀ id ∈ box, s₀.oldsaved.Old id ↔ id ∈ performed :=
    fun id hid => (hold id).trans (h.tied.old id hid)
  have hused₀ : ∀ id, s₀.oldsaved.Old id → id ∈ used := fun id hid => h.tied.used id ((hold id).mp hid)
  have hrecords : s₀.newsaved.records = [] := by rw [hnew, h.newRecords]
  have hindex : ∀ m ≤ box.length, s₀.newsaved.findUidByNum m = none := by
    rw [hnew]
    exact h.newIndex
  have hask := triple_pop3IsOld_fast (n := n) h.count h₀ hn hn' d ⟨hhonest, hbounded⟩
  cases hval : ((pop3IsOld n : Session ω Bool).exec d).val with
  | error t =>
    simp only [hval] at hask
    exact hask.2.2.fastInv h.count h₀ hids hold₀ hused₀ hrecords hindex (by simp)
  | ok b =>
    simp only [hval] at hask
    obtain ⟨⟨-, hbounded'⟩, hright, hfound⟩ := hask
    refine ⟨hbounded'.fastInv h.count h₀ hids hold₀ hused₀ hrecords hindex fun m hm => ?_,
      fun hmem => ?_⟩
    · cases b <;> simp_all
    -- below the boundary all messages are taken for old
    · rcases Nat.lt_or_ge first n with hlt | hge
      · rcases hright.2 hlt with hiff | hfail
        · exact hiff.mpr ((hold₀ _ (uidAt_mem hn hn')).mpr hmem)
        · exact hfail.2
      · exact hright.1 hge

/-- **`pop3_is_old`** in a poll that has read the list. -/
theorem FullInv.isOld (h : FullInv box performed used listing d.statics) (hn : 1 ≤ n)
    (hn' : n ≤ box.length) :
    FullInv box performed used listing ((pop3IsOld n : Session ω Bool).exec d).state.statics ∧
      ∃ b, ((pop3IsOld n : Session ω Bool).exec d).val = .ok b ∧
        (b = true ↔ uidAt box n ∈ performed) := by
  have hne : box ≠ [] := by
    rintro rfl
    rw [List.length_nil] at hn'
    omega
  have hknown : d.statics.oldsaved.uidDbNRecords ≠ 0 := by
    simpa [Db.uidDbNRecords] using h.known hne
  obtain ⟨b, hstate⟩ := state_pop3IsOld (ω := ω) (n := n) h.slow
  rw [hstate, exec_pop3IsOld hknown h.slow]
  refine ⟨⟨h.slow, h.perm, h.tied, h.known, h.oldIndexed, h.oldResets, h.copied, h.newIndexed,
    h.newResets⟩, _, rfl, ?_⟩
  cases hfind : d.statics.newsaved.findUidByNum n with
  | none =>
    refine iff_of_true rfl ?_
    -- what is not in the index was dealt with
    by_contra hno
    exact h.newIndexed n hn hn' hno hfind
  | some k =>
    obtain ⟨id, hk⟩ := h.copied.index n hn hn' k hfind
    have hid := eq_uidAt_of_perm h.perm hk
    have hstatus := h.copied.status k n id hk
    rw [hid] at hstatus
    simpa using hstatus

/-! ## The beginning of a poll -/

variable {ctl : Ctl}

/-- `pop3_getrange` on an empty mailbox. -/
theorem Counts.exec_getrange_zero (h : Counts ctl d 0) :
    ((pop3Getrange ctl : Session ω Range).exec d).state.statics =
      { d.statics with newsaved := Db.initUidDb, last := 0 } := by
  obtain ⟨text, late, hanswer, hok, hscan⟩ := h.stat d.peer
  have hstat : ∀ s : Statics, Answers { d with statics := s } .stat text [] :=
    fun s => ⟨h.tagged, h.lines, late, hanswer⟩
  simp only [pop3Getrange, Talk.exec_bind, exec_assign, exec_command_line (hstat _), hok, if_true,
    hscan]
  rfl

/-- A poll starts on an empty mailbox. -/
theorem fullInv_empty (h : Counts ctl d 0) (hslow : d.statics.dofastuidl = false)
    (hused : ∀ id, d.statics.oldsaved.Old id → id ∈ used) (hrest : d.statics.oldsaved.AtRest) :
    FullInv [] performed used [] ((pop3Getrange ctl : Session ω Range).exec d).state.statics := by
  rw [h.exec_getrange_zero]
  have hinit : Db.initUidDb.AtRest := Nat.zero_le 1
  have hrange : ∀ m, 1 ≤ m → ¬ m ≤ ([] : List Bytes).length := fun m hm h => by
    rw [List.length_nil] at h
    omega
  exact ⟨hslow, List.Perm.refl _,
    ⟨fun id hid => absurd hid List.not_mem_nil, hused, fun m hm hm' => absurd hm' (hrange m hm)⟩,
    fun h => absurd rfl h, fun m hm hm' => absurd hm' (hrange m hm), hrest.resetUidDbNums,
    ⟨rfl, fun k n id hk => by simp at hk, fun m hm hm' => absurd hm' (hrange m hm)⟩,
    fun m hm hm' => absurd hm' (hrange m hm), hinit.resetUidDbNums⟩

/-- **A poll starts with the list.** -/
theorem fullInv_start (h : FullList ctl d box.length listing) (hperm : listing.Perm (listingOf box))
    (hne : box ≠ []) (huses : ctl.usesUids = true) (hslow : ctl.wantsFast box.length = false)
    (hids : ∀ id ∈ box, id ≠ []) (hold : ∀ id ∈ box, d.statics.oldsaved.Old id ↔ id ∈ performed)
    (hused : ∀ id, d.statics.oldsaved.Old id → id ∈ used) (hrest : d.statics.oldsaved.AtRest) :
    FullInv box performed used listing ((pop3Getrange ctl : Session ω Range).exec d).state.statics := by
  have hcount : box.length < 2 ^ 31 := h.toCounts.lt
  have hmem : ∀ {m id}, (m, id) ∈ listing ↔ 1 ≤ m ∧ m ≤ box.length ∧ id = uidAt box m :=
    fun {m id} => hperm.mem_iff.trans mem_listingOf
  have hnodup : (listing.map Prod.fst).Nodup := by
    refine (hperm.map Prod.fst).symm.nodup ?_
    rw [map_fst_listingOf]
    exact List.nodup_range'
  have hlisted := (listed_startCount ctl.flush d.statics hcount false).listAll hcount
    (fun e he => (hmem.mp he).2.1) hnodup fun e he => by
      have he' := hmem.mp he
      rw [he'.2.2]
      exact hids _ (uidAt_mem he'.1 he'.2.1)
  rw [List.nil_append] at hlisted
  obtain ⟨p, tr, hexec⟩ := h.exec_getrange (List.length_pos_iff.mpr hne) huses hslow
  rw [hexec]
  have hold₀ : ∀ id, (d.statics.startCount box.length false).oldsaved.Old id ↔
      d.statics.oldsaved.Old id := fun id => by
    simp only [Db.Old, Statics.startCount, Db.markOf_setUidDbNumPos0]
  have hnumbered : (d.statics.startCount box.length false).oldsaved.Numbered box.length :=
    Db.numbered_setUidDbNumPos0 hrest (Db.lt_uintMax hcount)
  generalize ((d.statics.startCount box.length false).listAll ctl.flush listing 0).2 = s at *
  obtain ⟨holdNumbered, holdIndex⟩ := hlisted.oldIndex hnumbered
  -- a message that was not dealt with is recorded
  have hrecorded : ∀ m, 1 ≤ m → m ≤ box.length → uidAt box m ∉ performed →
      Recorded ctl.flush (d.statics.startCount box.length false).oldsaved (uidAt box m) := by
    intro m hm hm' hno
    refine Or.inr fun h => hno ?_
    exact (hold _ (uidAt_mem hm hm')).mp ((hold₀ _).mp h)
  have hentry : ∀ m, 1 ≤ m → m ≤ box.length → (m, uidAt box m) ∈ listing :=
    fun m hm hm' => hmem.mpr ⟨hm, hm', rfl⟩
  refine ⟨?_, hperm, ⟨fun id hid => ?_, fun id hid => ?_, fun m hm hm' q hq => ?_⟩, fun _ => ?_,
    fun m hm hm' hno => ?_, holdNumbered.atRest_resetUidDbNums,
    ⟨?_, fun k n id hk => ?_, fun m hm hm' k hk => ?_⟩, fun m hm hm' hno => ?_,
    hlisted.numbered.atRest_resetUidDbNums⟩
  · rw [hlisted.rest]
    rfl
  · exact (hlisted.old_iff id).trans ((hold₀ id).trans (hold id hid))
  · exact hused id ((hold₀ id).mp ((hlisted.old_iff id).mp hid))
  · obtain ⟨id, hentry, -, hfound⟩ := (holdIndex m hm' q).mp hq
    rwa [(hmem.mp hentry).2.2] at hfound
  · have hpos := List.length_pos_iff.mpr hne
    obtain ⟨q, hq⟩ := hlisted.found (hentry 1 (Nat.le_refl 1) hpos)
    exact List.ne_nil_of_length_pos (Nat.lt_of_le_of_lt (Nat.zero_le q) (Db.findUidById_lt hq))
  · obtain ⟨q, hq⟩ := hlisted.found (hentry m hm hm')
    rw [(holdIndex m hm' q).mpr ⟨_, hentry m hm hm', hrecorded m hm hm' hno, hq⟩]
    exact Option.some_ne_none q
  · rw [hlisted.newRecords, List.map_map]
    rfl
  · have hid : id ∈ box := by
      have h' := hmem.mp (List.mem_of_getElem? hk)
      rw [h'.2.2]
      exact uidAt_mem h'.1 h'.2.1
    have hstatus : s.newsaved.status k =
        listedMark (d.statics.startCount box.length false).oldsaved id := by
      simp [Db.status, hlisted.newRecords, hk]
    rw [hstatus, ← hold id hid, ← hold₀ id, listedMark]
    split
    · exact iff_of_true (by decide) ‹_›
    · exact iff_of_false (by simp) ‹_›
  · obtain ⟨id, hk', -⟩ := (hlisted.index m hm' k).mp hk
    exact ⟨id, hk'⟩
  · obtain ⟨k, hk⟩ := List.mem_iff_getElem?.mp (hentry m hm hm')
    rw [(hlisted.index m hm' k).mpr ⟨_, hk, hrecorded m hm hm' hno⟩]
    exact Option.some_ne_none k

/-- **A poll starts with the binary search.** -/
theorem fastInv_start (h : Counts ctl d box.length) (hhonest : Honest False box.length (uidAt box) d)
    (hfast : ctl.wantsFast box.length = true) (hids : ∀ id ∈ box, id ≠ [])
    (hold : ∀ id ∈ box, d.statics.oldsaved.Old id ↔ id ∈ performed)
    (hused : ∀ id, d.statics.oldsaved.Old id → id ∈ used) (hrest : d.statics.oldsaved.AtRest)
    {r : Range} (hval : ((pop3Getrange ctl : Session ω Range).exec d).val = .ok r)
    (hsuccess : r.err = .success) :
    FastInv box performed used none ((pop3Getrange ctl : Session ω Range).exec d).state.statics := by
  have hcount : box.length < 2 ^ 31 := h.lt
  have hold₀ : ∀ id, (d.statics.startCount box.length true).oldsaved.Old id ↔
      d.statics.oldsaved.Old id := fun id => by
    simp only [Db.Old, Statics.startCount, Db.markOf_setUidDbNumPos0]
  have hsearch := h.getrange_fast hhonest hfast
  rw [hval] at hsearch
  obtain ⟨first, -, -, -, hbounded⟩ := hsearch.resolve_right fun hfail => hfail.2 hsuccess
  exact hbounded.fastInv hcount (Db.unindexed_setUidDbNumPos0 hrest (Db.lt_uintMax hcount)) hids
    (fun id hid => (hold₀ id).trans (hold id hid)) (fun id hid => hused id ((hold₀ id).mp hid)) rfl
    (fun m hm => Db.findUidByNum_setUidDbNumPos0 (Db.lt_uintMax hcount) hm) (by simp)

end

end Fetchmail.Pop3
