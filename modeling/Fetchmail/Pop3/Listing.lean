import Fetchmail.Pop3.Replies

/-!
# The Full List

What a listing of the mailbox does to the UID databases. The listing may name the messages
in any order and repeat UIDs, as long as it names no message twice. `Listed` is the
invariant of the loop; it says of every line read so far where its record is, with which
status, and under which number.
-/

namespace Fetchmail.Pop3

open Fetchmail.Lib Fetchmail.Transact Fetchmail.Uid

/-! ## One line -/

/-- Other UIDs are known as before when a UID is revived. -/
theorem Statics.markOf_revive {s : Statics} {id id' : Bytes} {p : Nat}
    (h : s.oldsaved.findUidById id = some p) :
    (s.revive p).oldsaved.markOf id' =
      if id' = id ∧ s.oldsaved.Old id then some .seen else s.oldsaved.markOf id' := by
  have hold := Db.old_of_find h
  unfold Statics.revive
  by_cases hrevive : s.oldsaved.status p = .deleted ∨ s.oldsaved.status p = .expunged
  · have holdid : s.oldsaved.Old id := hold.mpr (by rcases hrevive with h | h <;> simp [h])
    rw [if_pos hrevive, Db.markOf_setStatus h]
    simp [holdid]
  · rw [if_neg hrevive]
    by_cases hid : id' = id ∧ s.oldsaved.Old id
    · obtain ⟨rfl, holdid⟩ := hid
      have hseen : s.oldsaved.status p = .seen := by
        have hne := hold.mp holdid
        cases hstatus : s.oldsaved.status p <;> simp_all
      simp [holdid, Db.markOf, h, hseen]
    · rw [if_neg hid]

/-- The status of a UID that was revived. -/
theorem Statics.status_revive {s : Statics} {id : Bytes} {p : Nat}
    (h : s.oldsaved.findUidById id = some p) :
    (s.revive p).oldsaved.status p = if s.oldsaved.Old id then .seen else .unseen := by
  have hlt := Db.findUidById_lt h
  rw [if_congr (Db.old_of_find h) rfl rfl]
  unfold Statics.revive
  cases hstatus : s.oldsaved.status p <;> simp [hstatus, Db.status_setStatus hlt]

/-- What is found in the old database once a UID was revived. -/
theorem Statics.findUidById_revive {s : Statics} {id : Bytes} {p : Nat} :
    (s.revive p).oldsaved.findUidById id = s.oldsaved.findUidById id := by
  unfold Statics.revive
  split <;> simp

/-- Reviving concerns the records of the old database. -/
theorem Statics.revive_rest {s : Statics} {p : Nat} :
    s.revive p = { s with oldsaved := (s.revive p).oldsaved } ∧
      (s.revive p).oldsaved.numNdx = s.oldsaved.numNdx := by
  unfold Statics.revive
  split
  · exact ⟨rfl, rfl⟩
  · exact ⟨rfl, rfl⟩

/-- What a line leaves of the old database. -/
structure Classified (id : Bytes) (s : Statics) (r : Mark × Nat × Statics) : Prop where
  mark : r.1 = if s.oldsaved.Old id then .seen else .unseen
  found : r.2.2.oldsaved.findUidById id = some r.2.1
  self : r.2.2.oldsaved.markOf id = some r.1
  others : ∀ id', id' ≠ id → r.2.2.oldsaved.markOf id' = s.oldsaved.markOf id'
  kept : ∀ id' p, s.oldsaved.findUidById id' = some p → r.2.2.oldsaved.findUidById id' = some p
  rest : r.2.2 = { s with oldsaved := r.2.2.oldsaved }
  numNdx : r.2.2.oldsaved.numNdx = s.oldsaved.numNdx

theorem Statics.classify_spec {s : Statics} {id : Bytes} (hne : id ≠ []) :
    Classified id s (s.classify id) := by
  unfold Statics.classify
  cases hfind : s.oldsaved.findUidById id with
  | some p =>
    have hfound : (s.revive p).oldsaved.findUidById id = some p := by
      rw [findUidById_revive, hfind]
    refine ⟨status_revive hfind, hfound, ?_, fun id' hid => ?_, ?_, ?_, ?_⟩
    · simp [Db.markOf, hfound]
    · simp [markOf_revive hfind, hid]
    · intro id' q hq
      rw [findUidById_revive, hq]
    · exact revive_rest.1
    · exact revive_rest.2
  | none =>
    refine ⟨?_, Db.findUidById_uidDbInsert_of_none hne hfind,
      Db.markOf_uidDbInsert_self hne hfind,
      fun id' hid => Db.markOf_uidDbInsert_of_ne hid,
      fun id' q hq => Db.findUidById_uidDbInsert_of_some hq id, rfl, rfl⟩
    rw [if_neg (Db.not_old_of_none hfind)]

/-! ## The invariant of the loop -/

section

variable {flush : Bool} {s₀ s : Statics} {count : Nat} {done : List (Nat × Bytes)} {newp : Int}

/-- The status a listed UID gets. -/
def listedMark (db : Db) (id : Bytes) : Mark := if db.Old id then .seen else .unseen

/-- The number of an entry is recorded. -/
def Recorded (flush : Bool) (db : Db) (id : Bytes) : Prop := flush = true ∨ ¬ db.Old id

instance (flush : Bool) (db : Db) (id : Bytes) : Decidable (Recorded flush db id) :=
  inferInstanceAs (Decidable (_ ∨ _))

/-- The variables after the lines `done`, when they were `s₀` before. -/
structure Listed (flush : Bool) (s₀ : Statics) (count : Nat) (done : List (Nat × Bytes))
    (newp : Int) (s : Statics) : Prop where
  newRecords : s.newsaved.records = done.map fun e => ⟨e.2, listedMark s₀.oldsaved e.2⟩
  oldMarks : ∀ id, s.oldsaved.markOf id =
    if id ∈ done.map Prod.snd then some (listedMark s₀.oldsaved id) else s₀.oldsaved.markOf id
  newp : newp = done.countP fun e => ¬ s₀.oldsaved.Old e.2
  numbered : s.newsaved.Numbered count
  index : ∀ m ≤ count, ∀ k, s.newsaved.findUidByNum m = some k ↔
    ∃ id, done[k]? = some (m, id) ∧ Recorded flush s₀.oldsaved id
  oldIndex : s₀.oldsaved.Numbered count → s.oldsaved.Numbered count ∧
    ∀ m ≤ count, ∀ p, s.oldsaved.findUidByNum m = some p ↔
      ∃ id, (m, id) ∈ done ∧ Recorded flush s₀.oldsaved id ∧ s.oldsaved.findUidById id = some p
  rest : s = { s₀ with oldsaved := s.oldsaved, newsaved := s.newsaved, outOfBounds := s.outOfBounds }

theorem getElem?_append_singleton {α : Type} {l : List α} {a b : α} {k : Nat} :
    (l ++ [a])[k]? = some b ↔ l[k]? = some b ∨ (k = l.length ∧ a = b) := by
  rcases Nat.lt_trichotomy k l.length with h | h | h
  · rw [List.getElem?_append_left h]
    have hne : k ≠ l.length := by omega
    simp [hne]
  · subst h
    simp
  · have hnone : l[k]? = none := List.getElem?_eq_none (by omega)
    have hne : k ≠ l.length := by omega
    rw [List.getElem?_eq_none (by rw [List.length_append, List.length_singleton]; omega), hnone]
    simp [hne]

/-- A line, once its UID has been looked up. -/
theorem Statics.listLine_eq {unum old : Nat} {id : Bytes} {mark : Mark} {s₁ : Statics}
    (h : s.classify id = (mark, old, s₁)) :
    s.listLine flush unum id =
      if mark = .unseen ∨ flush = true then
        (decide (mark = .unseen),
          ({ s₁ with newsaved := s₁.newsaved.uidDbInsert id mark }.setOldNum old
            (toUnsigned unum)).setNewNum s.newsaved.uidDbNRecords (toUnsigned unum))
      else (false, { s₁ with newsaved := s₁.newsaved.uidDbInsert id mark }) := by
  unfold Statics.listLine
  rw [h]

/-- Listing a UID does not make it old or new. -/
theorem Listed.old_iff (h : Listed flush s₀ count done newp s) (id : Bytes) :
    s.oldsaved.Old id ↔ s₀.oldsaved.Old id := by
  have hmark := h.oldMarks id
  by_cases hmem : id ∈ done.map Prod.snd
  · rw [if_pos hmem] at hmark
    rw [Db.old_of_markOf hmark, listedMark]
    split <;> simp [*]
  · rw [if_neg hmem] at hmark
    simp only [Db.Old, hmark]

/-- The index, after the next entry was or was not recorded. -/
theorem index_append {find find' : Nat → Option Nat} {mark : Bytes → Prop}
    [DecidablePred mark] {n : Nat} {id : Bytes}
    (h : ∀ m ≤ count, ∀ k, find m = some k ↔ ∃ i, done[k]? = some (m, i) ∧ mark i)
    (hfresh : n ∉ done.map Prod.fst)
    (hfind : ∀ m ≤ count, find' m = if m = n ∧ mark id then some done.length else find m) :
    ∀ m ≤ count, ∀ k, find' m = some k ↔ ∃ i, (done ++ [(n, id)])[k]? = some (m, i) ∧ mark i := by
  intro m hm k
  rw [hfind m hm]
  -- a number is listed once, so nothing before is the entry of `n`
  have hgone : ∀ i, done[k]? ≠ some (n, i) := fun i hi =>
    hfresh (List.mem_map.mpr ⟨_, List.mem_of_getElem? hi, rfl⟩)
  by_cases hmn : m = n
  · subst hmn
    by_cases hmark : mark id
    · rw [if_pos ⟨rfl, hmark⟩]
      constructor
      · rintro ⟨⟩
        exact ⟨id, getElem?_append_singleton.mpr (Or.inr ⟨rfl, rfl⟩), hmark⟩
      · rintro ⟨i, hi, -⟩
        rcases getElem?_append_singleton.mp hi with hi | ⟨rfl, -⟩
        · exact absurd hi (hgone i)
        · rfl
    · rw [if_neg (fun h => hmark h.2), h m hm k]
      constructor
      · rintro ⟨i, hi, -⟩
        exact absurd hi (hgone i)
      · rintro ⟨i, hi, hmi⟩
        rcases getElem?_append_singleton.mp hi with hi | ⟨-, heq⟩
        · exact absurd hi (hgone i)
        · cases heq
          exact absurd hmi hmark
  · rw [if_neg (fun h => hmn h.1), h m hm k]
    constructor
    · rintro ⟨i, hi, hmi⟩
      exact ⟨i, getElem?_append_singleton.mpr (Or.inl hi), hmi⟩
    · rintro ⟨i, hi, hmi⟩
      rcases getElem?_append_singleton.mp hi with hi | ⟨-, heq⟩
      · exact ⟨i, hi, hmi⟩
      · cases heq
        exact absurd rfl hmn

/-- A listed UID is found. -/
theorem Listed.found (h : Listed flush s₀ count done newp s) {m : Nat} {id : Bytes}
    (hmem : (m, id) ∈ done) : ∃ p, s.oldsaved.findUidById id = some p := by
  have hmark := h.oldMarks id
  rw [if_pos (List.mem_map.mpr ⟨_, hmem, rfl⟩), Db.markOf] at hmark
  obtain ⟨p, hp, -⟩ := Option.map_eq_some_iff.mp hmark
  exact ⟨p, hp⟩

/-- The index of the old database, after the next entry was or was not recorded. -/
theorem Listed.oldIndex_append {db : Db} {n p₀ : Nat} {id : Bytes}
    (h : Listed flush s₀ count done newp s) (h₀ : s₀.oldsaved.Numbered count)
    (hfresh : n ∉ done.map Prod.fst)
    (hkept : ∀ id' p, s.oldsaved.findUidById id' = some p → db.findUidById id' = some p)
    (hfound : db.findUidById id = some p₀) {find' : Nat → Option Nat}
    (hfind : ∀ m ≤ count, find' m =
      if m = n ∧ Recorded flush s₀.oldsaved id then some p₀ else s.oldsaved.findUidByNum m) :
    ∀ m ≤ count, ∀ p, find' m = some p ↔ ∃ i, (m, i) ∈ done ++ [(n, id)] ∧
      Recorded flush s₀.oldsaved i ∧ db.findUidById i = some p := by
  intro m hm p
  -- UIDs that were found are found at the same place
  have hsame : ∀ i, (m, i) ∈ done →
      (db.findUidById i = some p ↔ s.oldsaved.findUidById i = some p) := by
    intro i hi
    obtain ⟨q, hq⟩ := h.found hi
    rw [hkept i q hq, hq]
  have hgone : ∀ i, (n, i) ∉ done := fun i hi => hfresh (List.mem_map.mpr ⟨_, hi, rfl⟩)
  have hold := (h.oldIndex h₀).2 m hm p
  rw [hfind m hm]
  constructor
  · intro hp
    split at hp
    · rename_i hrec
      obtain ⟨rfl, hrec⟩ := hrec
      exact ⟨id, by simp, hrec, hp ▸ hfound⟩
    · obtain ⟨i, hi, hrec, hpi⟩ := hold.mp hp
      exact ⟨i, by simp [hi], hrec, (hsame i hi).mpr hpi⟩
  · rintro ⟨i, hi, hrec, hpi⟩
    rcases List.mem_append.mp hi with hmem | hmem
    · have hmn : m ≠ n := by
        rintro rfl
        exact hgone i hmem
      rw [if_neg (fun h => hmn h.1)]
      exact hold.mpr ⟨i, hmem, hrec, (hsame i hmem).mp hpi⟩
    · cases List.mem_singleton.mp hmem
      rw [if_pos ⟨rfl, hrec⟩, ← hpi, hfound]

/-- **Step.** One more line. -/
theorem Listed.listLine (h : Listed flush s₀ count done newp s) (hcount : count < 2 ^ 31)
    {n : Nat} {id : Bytes} (hn : n ≤ count) (hfresh : n ∉ done.map Prod.fst) (hne : id ≠ []) :
    Listed flush s₀ count (done ++ [(n, id)])
      (if (s.listLine flush n id).1 then newp + 1 else newp) (s.listLine flush n id).2 := by
  have hc := Statics.classify_spec (s := s) hne
  have hunsigned : toUnsigned n = n := Nat.mod_eq_of_lt (by omega)
  have hlength : s.newsaved.uidDbNRecords = done.length := by
    rw [Db.uidDbNRecords, h.newRecords, List.length_map]
  rcases hr : s.classify id with ⟨mark, old, s₁⟩
  rw [hr] at hc
  obtain ⟨hmark, hfound, hself, hothers, hkept, hrest, hnumNdx⟩ := hc
  simp only at hmark hfound hself hothers hkept hrest hnumNdx
  have hmark₀ : mark = listedMark s₀.oldsaved id := by
    rw [hmark, listedMark]
    exact if_congr (h.old_iff id) rfl rfl
  have hunseen : mark = .unseen ↔ ¬ s₀.oldsaved.Old id := by
    rw [hmark₀, listedMark]
    split <;> simp [*]
  have hrecorded : (mark = .unseen ∨ flush = true) ↔ Recorded flush s₀.oldsaved id := by
    rw [Recorded, hunseen, or_comm]
  -- only the old database was changed by the lookup
  obtain ⟨db, rfl⟩ : ∃ db, s₁ = { s with oldsaved := db } := ⟨_, hrest⟩
  have hrecords : (s.newsaved.uidDbInsert id mark).records =
      (done ++ [(n, id)]).map fun e => ⟨e.2, listedMark s₀.oldsaved e.2⟩ := by
    rw [Db.records_uidDbInsert, h.newRecords, hmark₀, List.map_append]
    rfl
  have hmarks : ∀ id', db.markOf id' =
      if id' ∈ (done ++ [(n, id)]).map Prod.snd then some (listedMark s₀.oldsaved id')
      else s₀.oldsaved.markOf id' := by
    intro id'
    by_cases hid : id' = id
    · subst hid
      rw [hself, hmark₀, if_pos (by simp)]
    · rw [hothers id' hid, h.oldMarks id']
      refine if_congr ?_ rfl rfl
      simp [hid]
  have hnewp : (if mark = .unseen then newp + 1 else newp) =
      ((done ++ [(n, id)]).countP fun e => ¬ s₀.oldsaved.Old e.2 : Nat) := by
    rw [List.countP_append, List.countP_singleton, h.newp]
    by_cases hold : s₀.oldsaved.Old id
    · simp [hunseen, hold]
    · simp [hunseen, hold]
  have hnew : (s.newsaved.uidDbInsert id mark).Numbered count := h.numbered.of_numNdx rfl
  have holdNdx : s₀.oldsaved.Numbered count → db.Numbered count := fun h₀ =>
    (h.oldIndex h₀).1.of_numNdx hnumNdx
  rw [Statics.listLine_eq hr]
  -- the record is there in any case, an index entry only for some
  by_cases hstore : mark = .unseen ∨ flush = true
  · have hrec := hrecorded.mp hstore
    rw [if_pos hstore, hunsigned, hlength]
    refine ⟨hrecords, hmarks, by simpa using hnewp, hnew.setUidDbNum (Db.lt_uintMax hcount) hn, ?_,
      fun h₀ => ?_, ?_⟩
    · refine index_append h.index hfresh fun m hm => ?_
      show ((s.newsaved.uidDbInsert id mark).setUidDbNum done.length n).findUidByNum m = _
      rw [Db.findUidByNum_setUidDbNum hnew (Db.lt_uintMax hcount) hn hm]
      simp [hrec, Db.findUidByNum_congr (Db.numNdx_uidDbInsert)]
    · refine ⟨(holdNdx h₀).setUidDbNum (Db.lt_uintMax hcount) hn, ?_⟩
      refine h.oldIndex_append h₀ hfresh hkept hfound fun m hm => ?_
      show (db.setUidDbNum old n).findUidByNum m = _
      rw [Db.findUidByNum_setUidDbNum (holdNdx h₀) (Db.lt_uintMax hcount) hn hm,
        Db.findUidByNum_congr hnumNdx]
      simp [hrec]
    · rw [h.rest]
      rfl
  · have hrec := mt hrecorded.mpr hstore
    obtain ⟨hold, -⟩ := not_or.mp hstore
    rw [if_neg hstore]
    refine ⟨hrecords, hmarks, by simpa [hold] using hnewp, hnew, ?_, fun h₀ => ⟨holdNdx h₀, ?_⟩, ?_⟩
    · refine index_append h.index hfresh fun m hm => ?_
      rw [if_neg (fun h => hrec h.2)]
      exact Db.findUidByNum_congr Db.numNdx_uidDbInsert m
    · refine h.oldIndex_append h₀ hfresh hkept hfound fun m hm => ?_
      rw [if_neg (fun h => hrec h.2)]
      exact Db.findUidByNum_congr hnumNdx m
    · rw [h.rest]

/-- **Run.** The rest of the list, by induction over its lines. -/
theorem Listed.listAll (h : Listed flush s₀ count done newp s) (hcount : count < 2 ^ 31)
    {listing : List (Nat × Bytes)} (hnums : ∀ e ∈ listing, e.1 ≤ count)
    (hnodup : ((done ++ listing).map Prod.fst).Nodup) (hids : ∀ e ∈ listing, e.2 ≠ []) :
    Listed flush s₀ count (done ++ listing) (s.listAll flush listing newp).1
      (s.listAll flush listing newp).2 := by
  induction listing generalizing done newp s with
  | nil => simpa [Statics.listAll] using h
  | cons e listing ih =>
    obtain ⟨n, id⟩ := e
    have hfresh : n ∉ done.map Prod.fst := by
      rw [List.map_append, List.map_cons, List.nodup_append] at hnodup
      intro hmem
      exact hnodup.2.2 n hmem n List.mem_cons_self rfl
    have hstep := h.listLine hcount (hnums (n, id) List.mem_cons_self) hfresh
      (hids (n, id) List.mem_cons_self)
    have hsplit : done ++ (n, id) :: listing = (done ++ [(n, id)]) ++ listing := by simp
    rw [hsplit] at hnodup ⊢
    exact ih hstep (fun e he => hnums e (List.mem_cons_of_mem _ he)) hnodup
      fun e he => hids e (List.mem_cons_of_mem _ he)

/-- The invariant holds when the list begins. -/
theorem listed_startCount (flush : Bool) (s₀ : Statics) (hcount : count < 2 ^ 31) (fast : Bool) :
    Listed flush (s₀.startCount count fast) count [] 0 (s₀.startCount count fast) where
  newRecords := rfl
  oldMarks := fun id => by simp
  newp := rfl
  numbered := Db.numbered_setUidDbNumPos0 (Nat.zero_le 1) (Db.lt_uintMax hcount)
  index := by
    intro m hm k
    rw [Statics.startCount, Db.findUidByNum_setUidDbNumPos0 (Db.lt_uintMax hcount) hm]
    simp
  oldIndex := by
    intro h₀
    refine ⟨h₀, fun m hm p => ?_⟩
    rw [Statics.startCount, Db.findUidByNum_setUidDbNumPos0 (Db.lt_uintMax hcount) hm]
    simp
  rest := rfl

end

/-! ## What the driver is told -/

section

variable {ω : Type} {flush : Bool} {s₀ s : Statics} {count n : Nat} {done : List (Nat × Bytes)}
  {newp : Int} {d : Dialogue Statics ω Command}

/-- `pop3_is_old` outside the fast mode, when UIDs are known. -/
theorem exec_pop3IsOld (hknown : d.statics.oldsaved.uidDbNRecords ≠ 0)
    (hslow : d.statics.dofastuidl = false) :
    ((pop3IsOld n : Session ω Bool).exec d).val =
      .ok (match d.statics.newsaved.findUidByNum n with
        | none => true
        | some p => d.statics.newsaved.status p ≠ .unseen) := by
  simp only [pop3IsOld, Talk.exec_bind, Talk.exec_gets, hknown, hslow, Bool.false_eq_true, if_false,
    exec_state, Statics.findNewNum]
  cases d.statics.newsaved.findUidByNum n with
  | none => rfl
  | some p => simp

/-- A listed message is old if its UID was. -/
theorem Listed.isOld (h : Listed flush s₀ count done newp s) (hslow : s₀.dofastuidl = false)
    (hn : n ≤ count) {id : Bytes} {k : Nat} (hk : done[k]? = some (n, id))
    (hnodup : (done.map Prod.fst).Nodup) (hd : d.statics = s) :
    ((pop3IsOld n : Session ω Bool).exec d).val = .ok (decide (s₀.oldsaved.Old id)) := by
  have hmem := List.mem_of_getElem? hk
  obtain ⟨p, hp⟩ := h.found hmem
  -- the UID was saved, so the database is not empty
  have hknown : d.statics.oldsaved.uidDbNRecords ≠ 0 := by
    have hlt := Db.findUidById_lt hp
    rw [hd, Db.uidDbNRecords]
    omega
  have hslow' : d.statics.dofastuidl = false := by
    rw [hd, h.rest]
    exact hslow
  rw [exec_pop3IsOld hknown hslow', hd]
  by_cases hrec : Recorded flush s₀.oldsaved id
  · rw [(h.index n hn k).mpr ⟨id, hk, hrec⟩]
    have hstatus : s.newsaved.status k = listedMark s₀.oldsaved id := by
      simp [Db.status, h.newRecords, hk]
    simp only [hstatus, listedMark]
    by_cases hold : s₀.oldsaved.Old id <;> simp [hold]
  -- what is not recorded is old, and so is a message without an index
  · have hold : s₀.oldsaved.Old id := by
      by_contra hold
      exact hrec (Or.inr hold)
    cases hfind : s.newsaved.findUidByNum n with
    | none => simp [hold]
    | some j =>
      obtain ⟨id', hj, hrec'⟩ := (h.index n hn j).mp hfind
      -- an index would be that of a listed UID, and there is one for a number
      have hsame : id' = id := by
        have hlt : j < (done.map Prod.fst).length := by
          rw [List.length_map]
          exact (List.getElem?_eq_some_iff.mp hj).1
        have hjk : j = k := (List.getElem?_inj hlt hnodup).mp (by simp [hj, hk])
        rw [hjk, hk] at hj
        cases hj
        rfl
      exact absurd (hsame ▸ hrec') hrec

end

end Fetchmail.Pop3
