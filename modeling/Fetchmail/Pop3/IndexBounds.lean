import Fetchmail.Pop3.Course

/-!
# The Bounds of the Number Index

`set_uid_db_num` and `find_uid_by_num` do not check the number they are given. The array is
made for the numbers up to the count that `STAT` gave; the numbers come from the lines of the
UID list, from a count of saved UIDs, or from a search between one and the count. Only the
last is sure to stay within.
-/

namespace Fetchmail.Pop3

open Fetchmail.Lib Fetchmail.Transact Fetchmail.Uid

/-! ## What the driver may call -/

/-- The calls for a message that is there. -/
inductive MailCall where
  | isOld (num : Nat)
  | delete (num : Nat)
  | markSeen (num : Nat)
  deriving DecidableEq, Repr

/-- The message. -/
def MailCall.num : MailCall → Nat
  | .isOld num => num
  | .delete num => num
  | .markSeen num => num

section

variable {ω : Type} {count n : Nat} {s s₀ : Statics}

/-- Such a call; what it returns does not matter here. -/
def MailCall.run : MailCall → Session ω Unit
  | .isOld num => do
    let _ ← pop3IsOld num
    return ()
  | .delete num => do
    let _ ← pop3Delete num
    return ()
  | .markSeen num => do
    let _ ← pop3MarkSeen num
    return ()

/-- One call after the other. -/
def runCalls : List MailCall → Session ω Unit
  | [] => return ()
  | call :: calls => do
    call.run
    runCalls calls

/-! ## Calls after a count that went well -/

/-- Lookups of the numbers up to `count` stay within both arrays, and nothing went wrong. -/
structure Sound (count : Nat) (s : Statics) : Prop where
  old : ∀ n, 1 ≤ n → n ≤ count → s.oldsaved.findInBounds n = true
  new : ∀ n, 1 ≤ n → n ≤ count → s.newsaved.findInBounds n = true
  fast : s.dofastuidl = true → s.oldsaved.Numbered count ∧ count < 2 ^ 31
  clean : s.outOfBounds = false

/-- The new variables have the same indices. -/
theorem Sound.of_numNdx {s' : Statics} (h : Sound count s)
    (hold : s'.oldsaved.numNdx = s.oldsaved.numNdx) (hnew : s'.newsaved.numNdx = s.newsaved.numNdx)
    (hfast : s'.dofastuidl = s.dofastuidl) (hclean : s'.outOfBounds = s.outOfBounds) :
    Sound count s' where
  old := fun n hn hn' => by
    rw [Db.findInBounds, hold]
    exact h.old n hn hn'
  new := fun n hn hn' => by
    rw [Db.findInBounds, hnew]
    exact h.new n hn hn'
  fast := fun hf => by
    rw [hfast] at hf
    exact ⟨(h.fast hf).1.of_numNdx hold, (h.fast hf).2⟩
  clean := hclean.trans h.clean

theorem Sound.findOldNum (h : Sound count s) (hn : 1 ≤ n ∧ n ≤ count) :
    s.findOldNum n = (s.oldsaved.findUidByNum n, s) := by
  simp [Statics.findOldNum, h.old n hn.1 hn.2]

theorem Sound.findNewNum (h : Sound count s) (hn : 1 ≤ n ∧ n ≤ count) :
    s.findNewNum n = (s.newsaved.findUidByNum n, s) := by
  simp [Statics.findNewNum, h.new n hn.1 hn.2]

theorem Sound.markUidSeen (h : Sound count s) (hn : 1 ≤ n ∧ n ≤ count) :
    Sound count (s.markUidSeen n) := by
  have hnew : Sound count (s.markNewSeen n) := by
    unfold Statics.markNewSeen
    rw [h.findNewNum hn]
    cases s.newsaved.findUidByNum n with
    | none => exact h
    | some p => exact h.of_numNdx rfl rfl rfl rfl
  unfold Statics.markUidSeen Statics.markOldSeen
  rw [hnew.findOldNum hn]
  cases (s.markNewSeen n).oldsaved.findUidByNum n with
  | none => exact hnew
  | some p => exact hnew.of_numNdx rfl rfl rfl rfl

theorem Sound.markDeleted (h : Sound count s) (hn : 1 ≤ n ∧ n ≤ count) :
    Sound count (s.markDeleted n) := by
  unfold Statics.markDeleted
  rw [h.findOldNum hn, h.findNewNum hn]
  split
  · cases s.oldsaved.findUidByNum n <;> exact h.of_numNdx rfl rfl rfl rfl
  · cases s.newsaved.findUidByNum n <;> exact h.of_numNdx rfl rfl rfl rfl

/-- A lookup of a UID that was asked for. -/
theorem Sound.lookedUp (h : Sound count s) (hfast : s.dofastuidl = true) (hn : n ≤ count)
    {id : Bytes} {r : Bool × Statics} (hr : LookedUp n id s r) : Sound count r.2 := by
  obtain ⟨hnumbered, hcount⟩ := h.fast hfast
  obtain ⟨-, db, p, hstore, -, hndx, -⟩ := hr
  have hdb : db.Numbered count := hnumbered.of_numNdx hndx
  have hset := hdb.setUidDbNum (p := p) (Db.lt_uintMax hcount) hn
  rw [hstore]
  refine ⟨fun m _ hm => Db.findInBounds_of_le hset (Db.lt_uintMax hcount) hm, h.new,
    fun _ => ⟨hset, hcount⟩, ?_⟩
  simp [Statics.setOldNum, Db.setInBounds_of_le hdb (Db.lt_uintMax hcount) hn, h.clean]

/-- Any server may answer. -/
theorem triple_anyUid {P : Statics → Prop} (n : Nat) :
    Talk.Triple (fun d => P d.statics) (pop3Getuidl n : Session ω _) (fun _ d => P d.statics)
      (fun d => P d.statics) :=
  Talk.Triple.of_keeps ((keeps_command _).bind fun _ => keeps_pure _)

/-- `pop3_is_old` -/
theorem triple_isOld_sound (hn : 1 ≤ n ∧ n ≤ count) :
    Talk.Triple (fun d => Sound count d.statics) (pop3IsOld n : Session ω Bool)
      (fun _ d => Sound count d.statics) (fun d => Sound count d.statics) := by
  intro d h
  by_cases hnone : d.statics.oldsaved.uidDbNRecords = 0
  · simp only [pop3IsOld, Talk.exec_bind, Talk.exec_gets, hnone, if_true, Talk.exec_pure]
    exact h
  -- the index of the full list, or that of the fast search
  cases hfast : d.statics.dofastuidl with
  | false =>
    simp only [pop3IsOld, Talk.exec_bind, Talk.exec_gets, hnone, hfast, Bool.false_eq_true, if_false,
      exec_state, h.findNewNum hn]
    cases d.statics.newsaved.findUidByNum n with
    | none => exact h
    | some p => exact h
  | true =>
    simp only [pop3IsOld, isOldFast, Talk.exec_bind, Talk.exec_gets, hnone, hfast, if_true, if_false,
      Talk.exec_ite]
    by_cases hle : (n : Int) ≤ d.statics.last
    · simp only [hle, if_true, Talk.exec_pure]
      exact h
    simp only [hle, if_false, exec_state, h.findOldNum hn]
    cases d.statics.oldsaved.findUidByNum n with
    | some p => exact h
    | none =>
      -- the server is asked, and the answer is stored at the number of the message
      have hask : Talk.Triple (fun d => Sound count d.statics ∧ d.statics.dofastuidl = true)
          (askUid n : Session ω Bool)
          (fun _ d => Sound count d.statics) (fun d => Sound count d.statics) := by
        have hany := triple_anyUid (ω := ω) (P := fun s => Sound count s ∧ s.dofastuidl = true) n
        refine Talk.Triple.bind (hany.mono (fun _ h => h) (fun _ _ h => h) fun _ h => h.1) fun r => ?_
        cases r with
        | error err => exact Talk.Triple.pure fun d hd => hd.1
        | ok id =>
          intro d hd
          rw [exec_state]
          exact hd.1.lookedUp hd.2 hn.2 (Statics.lazyStep_spec n id d.statics)
      exact hask d ⟨h, hfast⟩

/-- **Step.** Any call. -/
theorem triple_call_sound {call : MailCall} (hn : 1 ≤ call.num ∧ call.num ≤ count) :
    Talk.Triple (fun d => Sound count d.statics) (call.run : Session ω Unit)
      (fun _ d => Sound count d.statics) (fun d => Sound count d.statics) := by
  cases call with
  | isOld num => exact Talk.Triple.bind (triple_isOld_sound hn) fun _ => Talk.Triple.pure fun _ h => h
  | delete num =>
    refine Talk.Triple.bind (Q := fun _ d => Sound count d.statics) (fun d h => ?_)
      fun _ => Talk.Triple.pure fun _ h => h
    have hseen := h.markUidSeen hn
    have hstate : Sound count ((pop3Delete num : Session ω Ps).exec d).state.statics := by
      rcases statics_exec_pop3Delete num d with heq | heq
      · rw [heq]
        exact hseen
      · rw [heq]
        exact hseen.markDeleted hn
    cases ((pop3Delete num : Session ω Ps).exec d).val <;> exact hstate
  | markSeen num =>
    exact Talk.Triple.bind (Q := fun _ d => Sound count d.statics)
      (fun d h => h.markUidSeen hn) fun _ => Talk.Triple.pure fun _ h => h

/-- **Run.** By induction on the number of calls. -/
theorem triple_calls_sound {calls : List MailCall}
    (hn : ∀ call ∈ calls, 1 ≤ call.num ∧ call.num ≤ count) :
    Talk.Triple (fun d => Sound count d.statics) (runCalls calls : Session ω Unit)
      (fun _ d => Sound count d.statics) (fun d => Sound count d.statics) := by
  induction calls with
  | nil => exact Talk.Triple.pure fun _ h => h
  | cons call calls ih =>
    exact Talk.Triple.bind (triple_call_sound (hn call List.mem_cons_self)) fun _ =>
      ih fun c hc => hn c (List.mem_cons_of_mem _ hc)

/-! ## Any list -/

variable {flush : Bool} {listing : List (Nat × Bytes)} {newp : Int}

/-- A number that is too high, for a UID that is recorded. -/
def Exceeds (flush : Bool) (db : Db) (count : Nat) (e : Nat × Bytes) : Prop :=
  Recorded flush db e.2 ∧ count < toUnsigned e.1

/-- The variables after the lines `done`, which may say anything. -/
structure Stored (flush : Bool) (s₀ : Statics) (count : Nat) (done : List (Nat × Bytes))
    (s : Statics) : Prop where
  kept : Kept s₀.oldsaved s.oldsaved
  old : s.oldsaved.Numbered count
  new : s.newsaved.Numbered count
  slow : s.dofastuidl = s₀.dofastuidl
  rest : s.last = s₀.last ∧ s.nullDeref = s₀.nullDeref
  known : s.oldsaved.records = [] ↔ s₀.oldsaved.records = [] ∧ done = []
  bounds : s.outOfBounds = true ↔
    s₀.outOfBounds = true ∨ ∃ e ∈ done, Exceeds flush s₀.oldsaved count e
  index : ∀ m ≤ count, s.newsaved.findUidByNum m ≠ none ↔
    ∃ e ∈ done, toUnsigned e.1 = m ∧ Recorded flush s₀.oldsaved e.2

/-- A UID is entered, or revived; it may be any. -/
theorem Statics.classify_kept (id : Bytes) (s : Statics) :
    Kept s.oldsaved (s.classify id).2.2.oldsaved ∧
      (s.classify id).2.2.oldsaved.numNdx = s.oldsaved.numNdx ∧
      ((s.classify id).1 = .unseen ↔ ¬ s.oldsaved.Old id) ∧
      (s.classify id).2.2.oldsaved.records ≠ [] ∧
      (s.classify id).2.2 = { s with oldsaved := (s.classify id).2.2.oldsaved } := by
  unfold Statics.classify
  cases hfind : s.oldsaved.findUidById id with
  | some p =>
    have hlt := Db.findUidById_lt hfind
    have hne : (s.revive p).oldsaved.records ≠ [] := by
      have hlength := (kept_revive hfind).length
      exact List.ne_nil_of_length_pos (by omega)
    refine ⟨kept_revive hfind, revive_rest.2, ?_, hne, revive_rest.1⟩
    show (s.revive p).oldsaved.status p = .unseen ↔ _
    rw [status_revive hfind]
    by_cases hold : s.oldsaved.Old id
    · simp [hold]
    · simp [hold]
  | none =>
    refine ⟨kept_insertOld hfind, rfl, ?_, ?_, rfl⟩
    · simp [Db.not_old_of_none hfind]
    · simp [insertOld]

/-- Any number is stored: the array keeps its size, and the bounds are overstepped by a number
that is too high. -/
theorem numbered_setUidDbNum {db : Db} {p : Nat} (h : db.Numbered count) (hcount : count < 2 ^ 31)
    (hn : n < 2 ^ 32) :
    (db.setUidDbNum p n).Numbered count ∧ (db.setInBounds n = true ↔ n ≤ count) := by
  rcases Nat.lt_or_ge count n with hlt | hge
  · refine ⟨h.setUidDbNum_of_gt hlt, ?_⟩
    rw [Db.setInBounds_of_gt h hcount hlt hn]
    exact iff_of_false Bool.false_ne_true (by omega)
  · exact ⟨h.setUidDbNum (Db.lt_uintMax hcount) hge,
      iff_of_true (Db.setInBounds_of_le h (Db.lt_uintMax hcount) hge) hge⟩

/-- **Step.** One more line. -/
theorem Stored.listLine (h : Stored flush s₀ count listing s) (hcount : count < 2 ^ 31)
    (e : Nat × Bytes) :
    Stored flush s₀ count (listing ++ [e]) (s.listLine flush e.1 e.2).2 := by
  obtain ⟨unum, id⟩ := e
  have hc := s.classify_kept id
  rcases hr : s.classify id with ⟨mark, old, s₁⟩
  rw [hr] at hc
  obtain ⟨hkept, hndx, hmark, hne, hrest⟩ := hc
  simp only at hkept hndx hmark hne hrest
  obtain ⟨db, rfl⟩ : ∃ db, s₁ = { s with oldsaved := db } := ⟨_, hrest⟩
  have hrecorded : (mark = .unseen ∨ flush = true) ↔ Recorded flush s₀.oldsaved id := by
    rw [Recorded, hmark, h.kept.old id, or_comm]
  have hlt : toUnsigned unum < 2 ^ 32 := Nat.mod_lt _ (by decide)
  have hold : db.Numbered count := h.old.of_numNdx hndx
  have hnew : (s.newsaved.uidDbInsert id mark).Numbered count := h.new.of_numNdx rfl
  have hexists : (∃ e ∈ listing ++ [(unum, id)], Exceeds flush s₀.oldsaved count e) ↔
      (∃ e ∈ listing, Exceeds flush s₀.oldsaved count e) ∨
        Exceeds flush s₀.oldsaved count (unum, id) := by
    simp only [List.mem_append, List.mem_singleton, or_and_right, exists_or, exists_eq_left]
  have hknown : db.records = [] ↔ s₀.oldsaved.records = [] ∧ listing ++ [(unum, id)] = [] := by
    simp [hne]
  have hindexed : ∀ m, (∃ e ∈ listing ++ [(unum, id)], toUnsigned e.1 = m ∧
      Recorded flush s₀.oldsaved e.2) ↔
      (∃ e ∈ listing, toUnsigned e.1 = m ∧ Recorded flush s₀.oldsaved e.2) ∨
        (toUnsigned unum = m ∧ Recorded flush s₀.oldsaved id) := by
    intro m
    simp only [List.mem_append, List.mem_singleton, or_and_right, exists_or, exists_eq_left]
  rw [Statics.listLine_eq hr]
  by_cases hstore : mark = .unseen ∨ flush = true
  -- both indices are written, at the number that the server gave
  · obtain ⟨holdSet, holdIn⟩ := numbered_setUidDbNum (p := old) hold hcount hlt
    obtain ⟨hnewSet, hnewIn⟩ :=
      numbered_setUidDbNum (p := s.newsaved.uidDbNRecords) hnew hcount hlt
    rw [if_pos hstore]
    refine ⟨h.kept.trans (hkept.trans (kept_of_records rfl)), holdSet, hnewSet, h.slow, h.rest, hknown,
      ?_, fun m hm => ?_⟩
    · have hexceeds : Exceeds flush s₀.oldsaved count (unum, id) ↔ count < toUnsigned unum :=
        and_iff_right (hrecorded.mp hstore)
      rw [hexists, hexceeds, ← or_assoc, ← h.bounds]
      show (s.outOfBounds || !db.setInBounds _ ||
        !(s.newsaved.uidDbInsert id mark).setInBounds _) = true ↔ _
      rw [Bool.or_eq_true, Bool.or_eq_true, Bool.not_eq_true', Bool.not_eq_true', ← Bool.not_eq_true,
        ← Bool.not_eq_true, holdIn, hnewIn, or_assoc, or_self, Nat.not_le]
    have hfind : ((s.newsaved.uidDbInsert id mark).setUidDbNum s.newsaved.uidDbNRecords
        (toUnsigned unum)).findUidByNum m ≠ none ↔
        s.newsaved.findUidByNum m ≠ none ∨ toUnsigned unum = m := by
      rcases Nat.lt_or_ge count (toUnsigned unum) with hgt | hle
      · rw [Db.findUidByNum_setUidDbNum_of_gt hnew hcount hgt hlt hm,
          Db.findUidByNum_congr Db.numNdx_uidDbInsert, or_iff_left (by omega)]
      · rw [Db.findUidByNum_setUidDbNum hnew (Db.lt_uintMax hcount) hle hm,
          Db.findUidByNum_congr Db.numNdx_uidDbInsert]
        by_cases hmn : m = toUnsigned unum
        · simp [hmn]
        · simp [hmn, Ne.symm hmn]
    rw [hindexed, and_iff_left (hrecorded.mp hstore), ← h.index m hm]
    exact hfind
  -- an old message leaves no entry
  · rw [if_neg hstore]
    refine ⟨h.kept.trans hkept, hold, hnew, h.slow, h.rest, hknown, ?_, fun m hm => ?_⟩
    · have hexceeds : ¬ Exceeds flush s₀.oldsaved count (unum, id) :=
        fun he => hstore (hrecorded.mpr he.1)
      rw [hexists, or_iff_left hexceeds]
      exact h.bounds
    · rw [hindexed, or_iff_left fun he => hstore (hrecorded.mpr he.2), ← h.index m hm]
      exact not_congr (by rw [Db.findUidByNum_congr Db.numNdx_uidDbInsert])

/-- **Run.** By induction over the lines. -/
theorem Stored.listAll (h : Stored flush s₀ count listing s) (hcount : count < 2 ^ 31)
    (more : List (Nat × Bytes)) :
    Stored flush s₀ count (listing ++ more) (s.listAll flush more newp).2 := by
  induction more generalizing listing s newp with
  | nil => simpa [Statics.listAll] using h
  | cons e more ih =>
    have hsplit : listing ++ e :: more = (listing ++ [e]) ++ more := by simp
    rw [hsplit]
    exact ih (h.listLine hcount e)

/-! ## Any saved UIDs -/

/-- The variables after the records `nums` were copied. -/
structure CopiedTo (s₀ : Statics) (count firstNr : Nat) (nums : List Nat) (s : Statics) : Prop where
  old : s.oldsaved = s₀.oldsaved
  new : s.newsaved.Numbered count
  slow : s.dofastuidl = s₀.dofastuidl
  clean : s.outOfBounds = true → s₀.outOfBounds = true ∨ ∃ num ∈ nums, count < num - firstNr + 1
  exceeded : s₀.outOfBounds = true ∨ (∃ num ∈ nums, num - firstNr = count) → s.outOfBounds = true
  rest : s.last = s₀.last ∧ s.nullDeref = s₀.nullDeref
  indexed : ∀ num ∈ nums, num - firstNr + 1 ≤ count →
    s.newsaved.findUidByNum (num - firstNr + 1) ≠ none
  unindexed : (∀ num ∈ nums, num - firstNr + 1 ≤ count) → ∀ m ≤ count,
    (∀ num ∈ nums, num - firstNr + 1 ≠ m) → s.newsaved.findUidByNum m = none

/-- **Step.** One more record is copied. -/
theorem CopiedTo.copyRecord {firstNr : Nat} {done : List Nat} (h : CopiedTo s₀ count firstNr done s)
    (hcount : count < 2 ^ 31) (num : Nat) :
    CopiedTo s₀ count firstNr (done ++ [num]) (s.copyRecord firstNr num) := by
  have hnew : (s.newsaved.uidDbInsert (s.oldsaved.id num) (s.oldsaved.status num)).Numbered count :=
    h.new.of_numNdx rfl
  have hset : ((s.newsaved.uidDbInsert (s.oldsaved.id num) (s.oldsaved.status num)).setUidDbNum
      s.newsaved.uidDbNRecords (num - firstNr + 1)).Numbered count := by
    rcases Nat.lt_or_ge count (num - firstNr + 1) with hlt | hge
    · exact hnew.setUidDbNum_of_gt hlt
    · exact hnew.setUidDbNum (Db.lt_uintMax hcount) hge
  have hbounds : (s.copyRecord firstNr num).outOfBounds = (s.outOfBounds ||
      !(s.newsaved.uidDbInsert (s.oldsaved.id num) (s.oldsaved.status num)).setInBounds
        (num - firstNr + 1)) := rfl
  -- inserting does not touch the array of numbers
  have hread : ∀ m, (s.newsaved.uidDbInsert (s.oldsaved.id num) (s.oldsaved.status num)).findUidByNum
      m = s.newsaved.findUidByNum m := Db.findUidByNum_congr rfl
  refine ⟨h.old, hset, h.slow, fun hout => ?_, fun hex => ?_, h.rest, fun m hm hle => ?_,
    fun hall m hm hno => ?_⟩
  · rw [hbounds, Bool.or_eq_true] at hout
    rcases hout with hout | hout
    · refine (h.clean hout).imp_right ?_
      rintro ⟨m, hm, hlt⟩
      exact ⟨m, List.mem_append_left _ hm, hlt⟩
    · refine Or.inr ⟨num, by simp, ?_⟩
      by_contra hle
      rw [Db.setInBounds_of_le hnew (Db.lt_uintMax hcount) (by omega)] at hout
      cases hout
  · -- the first record that has no place in the array
    rw [hbounds, Bool.or_eq_true]
    rcases hex with hex | ⟨m, hm, heq⟩
    · exact Or.inl (h.exceeded (Or.inl hex))
    · rcases List.mem_append.mp hm with hm | hm
      · exact Or.inl (h.exceeded (Or.inr ⟨m, hm, heq⟩))
      · obtain rfl := List.mem_singleton.mp hm
        right
        rw [Db.setInBounds_of_gt hnew hcount (by omega) (by omega)]
        rfl
  · rcases List.mem_append.mp hm with hm | hm
    · refine Db.findUidByNum_setUidDbNum_ne_none hnew hcount hle ?_
      rw [hread]
      exact h.indexed m hm hle
    · obtain rfl := List.mem_singleton.mp hm
      show Db.findUidByNum (Db.setUidDbNum _ _ _) _ ≠ none
      rw [Db.findUidByNum_setUidDbNum hnew (Db.lt_uintMax hcount) hle hle, if_pos rfl]
      exact Option.some_ne_none _
  · have hne : m ≠ num - firstNr + 1 := fun heq => hno num (by simp) heq.symm
    show Db.findUidByNum (Db.setUidDbNum _ _ _) _ = none
    rw [Db.findUidByNum_setUidDbNum hnew (Db.lt_uintMax hcount) (hall num (by simp)) hm,
      if_neg hne, hread]
    exact h.unindexed (fun x hx => hall x (List.mem_append_left _ hx)) m hm
      fun x hx => hno x (List.mem_append_left _ hx)

/-- **Run** of the copy loop, by induction on the records. -/
theorem CopiedTo.foldl {firstNr : Nat} {done : List Nat} (h : CopiedTo s₀ count firstNr done s)
    (hcount : count < 2 ^ 31) (nums : List Nat) :
    CopiedTo s₀ count firstNr (done ++ nums)
      (nums.foldl (fun s num => s.copyRecord firstNr num) s) := by
  induction nums generalizing done s with
  | nil => simpa using h
  | cons num nums ih =>
    have hsplit : done ++ num :: nums = (done ++ [num]) ++ nums := by simp
    rw [hsplit, List.foldl_cons]
    exact ih (h.copyRecord hcount num)

/-- All records from `firstNr` on are copied. -/
theorem copiedTo_copyRecords (hnew : s₀.newsaved.Unindexed count) (hcount : count < 2 ^ 31)
    (firstNr nRecs : Nat) :
    CopiedTo s₀ count firstNr (List.range' firstNr (nRecs - firstNr))
      (s₀.copyRecords firstNr nRecs) := by
  have hnil : CopiedTo s₀ count firstNr [] s₀ :=
    ⟨rfl, hnew.toNumbered, rfl, Or.inl, fun h => by simpa using h, ⟨rfl, rfl⟩, by simp,
      fun _ m hm _ => hnew.empty m hm⟩
  have h := hnil.foldl hcount (List.range' firstNr (nRecs - firstNr))
  rwa [List.nil_append] at h

/-- The bounds are overstepped exactly if there are too many. -/
theorem bounds_copyRecords (hnew : s₀.newsaved.Unindexed count) (hcount : count < 2 ^ 31)
    (firstNr nRecs : Nat) : (s₀.copyRecords firstNr nRecs).outOfBounds = true ↔
      s₀.outOfBounds = true ∨ count < nRecs - firstNr := by
  have h := copiedTo_copyRecords hnew hcount firstNr nRecs
  refine ⟨fun hout => (h.clean hout).imp_right ?_, fun hex => ?_⟩
  · rintro ⟨num, hnum, hlt⟩
    rw [List.mem_range'_1] at hnum
    omega
  · refine h.exceeded (hex.imp_right fun hlt => ⟨firstNr + count, ?_, by omega⟩)
    rw [List.mem_range'_1]
    omega

/-! ## The condition -/

/-- The index of the old database was not used since it was set up or reset, and not at all
if no UIDs are used. -/
structure Ready (ctl : Ctl) (s : Statics) : Prop where
  rest : s.oldsaved.AtRest
  unused : ctl.usesUids = false → s.oldsaved.numNdx = Db.initUidDb.numNdx
  slow : s.dofastuidl = false
  clean : s.outOfBounds = false

/-- **What the server must not do.** No line of its list has a number above the count that
`STAT` gave, for a UID whose number is recorded; without `UIDL`, no more UIDs are saved from
that of the first message on than `STAT` counted. -/
def Within (ctl : Ctl) (d : Dialogue Statics ω Command) : Prop :=
  match ((course ctl).exec d).val with
  | .ok (.list count) => ∀ e ∈ entries ((course ctl).exec d).state.lines,
      Recorded ctl.flush d.statics.oldsaved e.2 → (toUnsigned e.1 : Int) ≤ count
  | .ok (.slow count) => ∀ id p, TopId 1 ctl.stackBytes ((course ctl).exec d).state id →
      d.statics.oldsaved.findUidById id = some p →
      ((d.statics.oldsaved.uidDbNRecords - p : Nat) : Int) ≤ count
  | _ => True

/-- An index that is as it was set up finds nothing. -/
theorem findInBounds_init {db : Db} (h : db.numNdx = Db.initUidDb.numNdx) (hn : n < 2 ^ 31) :
    db.findInBounds n = true := by
  simp only [Db.findInBounds, h, Db.initUidDb, Bool.or_eq_true, decide_eq_true_eq]
  omega

variable {ctl : Ctl} {d : Dialogue Statics ω Command}

/-- Both indices are set up for the messages there are. -/
theorem sound_of_numbered (hold : s.oldsaved.Numbered count) (hnew : s.newsaved.Numbered count)
    (hcount : count < 2 ^ 31) (hclean : s.outOfBounds = false) : Sound count s where
  old := fun _ _ hn => Db.findInBounds_of_le hold (Db.lt_uintMax hcount) hn
  new := fun _ _ hn => Db.findInBounds_of_le hnew (Db.lt_uintMax hcount) hn
  fast := fun _ => ⟨hold, hcount⟩
  clean := hclean

/-- The binary search, whatever the server answers. -/
theorem triple_fastLoop_sound {fuel firstNr lastNr : Nat} (hlast : lastNr ≤ count + 1) :
    Talk.Triple (fun d => Sound count d.statics ∧ d.statics.dofastuidl = true)
      (fastLoop fuel firstNr lastNr : Session ω _) (fun _ d => Sound count d.statics)
      (fun _ => True) := by
  induction fuel generalizing firstNr lastNr with
  | zero => exact Talk.Triple.pure fun d hd => hd.1
  | succ fuel ih =>
    unfold fastLoop
    refine Talk.Triple.ite (fun hround => ?_) fun _ => Talk.Triple.pure fun d hd => hd.1
    have hany := triple_anyUid (ω := ω) (P := fun s => Sound count s ∧ s.dofastuidl = true)
      ((firstNr + lastNr) / 2)
    refine Talk.Triple.bind (hany.mono (fun _ h => h) (fun _ _ h => h) fun _ _ => trivial) fun r => ?_
    cases r with
    | error err => exact Talk.Triple.pure fun d hd => hd.1
    | ok id =>
      refine Talk.Triple.bind (Q := fun _ d => Sound count d.statics ∧ d.statics.dofastuidl = true)
        (fun d hd => ?_) fun old => Talk.Triple.ite (fun _ => ih hlast) fun _ => ih (by omega)
      have hstep := Statics.fastStep_spec ((firstNr + lastNr) / 2) id d.statics
      rw [exec_state]
      refine ⟨hd.1.lookedUp hd.2 (by omega) hstep, ?_⟩
      obtain ⟨db, p, hstore, -⟩ := hstep.store
      rw [hstore]
      exact hd.2

/-- Both indices have been set up for `count` messages. -/
theorem Ready.sound_startCount (h : Ready ctl s₀) (hcount : count < 2 ^ 31) (fast : Bool) :
    Sound count (s₀.startCount count fast) :=
  sound_of_numbered (Db.numbered_setUidDbNumPos0 h.rest (Db.lt_uintMax hcount))
    (Db.numbered_setUidDbNumPos0 (Nat.zero_le 1) (Db.lt_uintMax hcount)) hcount h.clean

/-- The path of the binary search. -/
theorem fast_bounds {d₁ : Dialogue Statics ω Command} {m : Int} {r : Range}
    (hsound : Sound m.toNat d₁.statics) (hfast : d₁.statics.dofastuidl = true)
    (hval : ((finish ctl (.fast m) : Session ω Range).exec d₁).val = .ok r) :
    r.count = m ∧ Sound m.toNat ((finish ctl (.fast m) : Session ω Range).exec d₁).state.statics := by
  have hloop : Talk.Triple (fun d => Sound m.toNat d.statics ∧ d.statics.dofastuidl = true)
      (finish ctl (.fast m) : Session ω Range)
      (fun r d => r.count = m ∧ Sound m.toNat d.statics) (fun _ => True) := by
    refine Talk.Triple.bind (Q := fun _ d => Sound m.toNat d.statics) ?_
      fun _ => Talk.Triple.pure fun d hd => ⟨rfl, hd⟩
    refine Talk.Triple.bind (triple_fastLoop_sound (Nat.le_refl _)) fun r => ?_
    cases r with
    | error err => exact Talk.Triple.pure fun d hd => hd
    | ok bounds =>
      exact Talk.Triple.bind (Q := fun _ d => Sound m.toNat d.statics)
        (fun d hd => hd.of_numNdx rfl rfl rfl rfl) fun _ => Talk.Triple.pure fun d hd => hd
  have hdone := hloop d₁ ⟨hsound, hfast⟩
  simpa only [hval] using hdone

/-- The variables after a list of any kind. -/
theorem Ready.stored_listAll (h : Ready ctl s₀) (hcount : count < 2 ^ 31)
    (lines : List (Nat × Bytes)) :
    Stored ctl.flush (s₀.startCount count false) count lines
      ((s₀.startCount count false).listAll ctl.flush lines 0).2 := by
  have hnew : (s₀.startCount count false).newsaved.Unindexed count :=
    Db.unindexed_setUidDbNumPos0 (Nat.zero_le 1) (Db.lt_uintMax hcount)
  have hstart : Stored ctl.flush (s₀.startCount count false) count [] (s₀.startCount count false) :=
    ⟨Kept.refl _, Db.numbered_setUidDbNumPos0 h.rest (Db.lt_uintMax hcount), hnew.toNumbered, rfl,
      ⟨rfl, rfl⟩,
      by simp, by simp, fun m hm => by simp [hnew.empty m hm]⟩
  have hstored : Stored ctl.flush (s₀.startCount count false) count ([] ++ lines)
      ((s₀.startCount count false).listAll ctl.flush lines 0).2 := hstart.listAll hcount lines
  rwa [List.nil_append] at hstored

/-- The path of the list: bounds are kept exactly if no recorded number is too high. -/
theorem list_bounds (hready : Ready ctl s₀) (hcount : count < 2 ^ 31)
    (lines : List (Nat × Bytes)) :
    ((∀ e ∈ lines, Recorded ctl.flush s₀.oldsaved e.2 → toUnsigned e.1 ≤ count) →
      Sound count ((s₀.startCount count false).listAll ctl.flush lines 0).2) ∧
    (¬ (∀ e ∈ lines, Recorded ctl.flush s₀.oldsaved e.2 → toUnsigned e.1 ≤ count) →
      ((s₀.startCount count false).listAll ctl.flush lines 0).2.outOfBounds = true) := by
  have hstored := hready.stored_listAll hcount lines
  have hclean : (s₀.startCount count false).outOfBounds = false := hready.clean
  have hrecorded : ∀ id, Recorded ctl.flush (s₀.startCount count false).oldsaved id ↔
      Recorded ctl.flush s₀.oldsaved id := by
    intro id
    simp only [Recorded, Db.Old, Statics.startCount, Db.markOf_setUidDbNumPos0]
  have hbounds := hstored.bounds
  simp only [hclean, Bool.false_eq_true, false_or, Exceeds, hrecorded] at hbounds
  constructor
  · intro hwithin
    refine sound_of_numbered hstored.old hstored.new hcount ?_
    rw [← Bool.not_eq_true, hbounds]
    rintro ⟨e, he, hrec, hgt⟩
    have hle := hwithin e he hrec
    omega
  · intro hno
    rw [hbounds]
    simp only [not_forall] at hno
    obtain ⟨e, he, hrec, hgt⟩ := hno
    exact ⟨e, he, hrec, by omega⟩

/-- The slow path, from the record of the first message on. -/
theorem slow_bounds (hready : Ready ctl s₀) (hcount : count < 2 ^ 31) (p nRecs : Nat) (tryId : Int)
    (nolinear : Bool) :
    (nRecs - p ≤ count → Sound count
      (((s₀.startCount count false).copyRecords p nRecs).endSlow tryId nolinear)) ∧
    (¬ nRecs - p ≤ count →
      (((s₀.startCount count false).copyRecords p nRecs).endSlow tryId nolinear).outOfBounds =
        true) := by
  have hnew : (s₀.startCount count false).newsaved.Unindexed count :=
    Db.unindexed_setUidDbNumPos0 (Nat.zero_le 1) (Db.lt_uintMax hcount)
  obtain ⟨hcold, hcnew, hcslow, -, -, -, -, -⟩ := copiedTo_copyRecords hnew hcount p nRecs
  have hcbounds := bounds_copyRecords hnew hcount p nRecs
  have hclean : (s₀.startCount count false).outOfBounds = false := hready.clean
  simp only [hclean, Bool.false_eq_true, false_or] at hcbounds
  generalize (s₀.startCount count false).copyRecords p nRecs = s at *
  have hout : (s.endSlow tryId nolinear).outOfBounds = s.outOfBounds := by
    unfold Statics.endSlow
    split <;> rfl
  constructor
  · intro hle
    -- as many records as messages, and the writes were all within bounds
    have hclean' : s.outOfBounds = false := by
      rw [← Bool.not_eq_true, hcbounds]
      omega
    have hslow : s.dofastuidl = false := hcslow
    unfold Statics.endSlow
    split
    · exact ⟨fun m _ hm => findInBounds_init rfl (by omega),
        fun m _ hm => Db.findInBounds_of_le hcnew (Db.lt_uintMax hcount) hm,
        fun hfast => absurd (hslow.symm.trans hfast) Bool.false_ne_true, hclean'⟩
    · refine sound_of_numbered ?_ hcnew hcount hclean'
      rw [hcold]
      exact Db.numbered_setUidDbNumPos0 hready.rest (Db.lt_uintMax hcount)
  -- more records than messages, and a write was out of bounds
  · intro hgt
    rw [hout, hcbounds]
    omega

/-- What `finish` leaves on the path of the list. -/
theorem exec_finish_list {d₁ : Dialogue Statics ω Command} {m : Int} {r : Range}
    (hval : ((finish ctl (.list m) : Session ω Range).exec d₁).val = .ok r) :
    r.count = m ∧ ((finish ctl (.list m) : Session ω Range).exec d₁).state.statics =
      (d₁.statics.listAll ctl.flush (entries d₁.lines) 0).2 := by
  rw [← statics_exec_uidlLines]
  simp only [finish, Talk.exec_bind, Talk.exec_gets] at hval ⊢
  cases hlines : ((uidlLines ctl.flush d₁.lines 0 : Session ω _).exec d₁).val with
  | error t =>
    rw [hlines] at hval
    cases hval
  | ok r' =>
    rw [hlines] at hval
    cases hval
    exact ⟨rfl, rfl⟩

/-- What `finish` leaves on the slow path. -/
theorem exec_finish_slow {d₁ : Dialogue Statics ω Command} {m : Int} {r : Range}
    (hval : ((finish ctl (.slow m) : Session ω Range).exec d₁).val = .ok r) (hr : r.err = .success) :
    r.count = m ∧ ∃ newp, ((pop3Slowuidl ctl m : Session ω _).exec d₁).val = .ok (.ok newp) ∧
      ((finish ctl (.slow m) : Session ω Range).exec d₁).state.statics =
        ((pop3Slowuidl ctl m : Session ω _).exec d₁).state.statics := by
  simp only [finish, Talk.exec_bind] at hval ⊢
  cases hslow : ((pop3Slowuidl ctl m : Session ω _).exec d₁).val with
  | error t =>
    rw [hslow] at hval
    cases hval
  | ok r' =>
    rw [hslow] at hval
    cases r' with
    | error err =>
      cases hval
      cases hr
    | ok newp =>
      cases hval
      exact ⟨rfl, newp, rfl, rfl⟩

/-- **`pop3_getrange`**, one case for each path. -/
theorem getrange_bounds (hready : Ready ctl d.statics) {r : Range}
    (hval : ((pop3Getrange ctl : Session ω Range).exec d).val = .ok r) (hr : r.err = .success) :
    (Within ctl d → Sound r.count.toNat ((pop3Getrange ctl : Session ω Range).exec d).state.statics) ∧
      (¬ Within ctl d →
        ((pop3Getrange ctl : Session ω Range).exec d).state.statics.outOfBounds = true) := by
  obtain ⟨c, hc, hreach, hfin, hstate⟩ := pop3Getrange_reaches hval
  unfold Within
  rw [hc, hstate]
  generalize ((course ctl : Session ω Course).exec d).state = d₁ at hreach hfin ⊢
  generalize hs : d₁.statics = s at hreach
  cases hreach with
  | failed hno =>
    cases hfin
    exact absurd hr hno
  | @unused count hlt huses =>
    cases hfin
    refine ⟨fun _ => ?_, fun hno => absurd trivial hno⟩
    show Sound count.toNat d₁.statics
    rw [hs]
    refine ⟨fun m hm hm' => ?_, fun m _ hm' => findInBounds_init rfl (by omega),
      fun hfast => absurd (hready.slow.symm.trans hfast) Bool.false_ne_true, hready.clean⟩
    rcases huses with hnone | huses
    · omega
    · exact findInBounds_init (hready.unused huses) (by omega)
  | @last count last hpos hlt huses huidl =>
    cases hfin
    refine ⟨fun _ => ?_, fun hno => absurd trivial hno⟩
    show Sound count.toNat d₁.statics
    rw [hs]
    exact (hready.sound_startCount (by omega) (ctl.wantsFast count)).of_numNdx rfl rfl rfl rfl
  | @fast count hpos hlt hfast =>
    refine ⟨fun _ => ?_, fun hno => absurd trivial hno⟩
    have hsound : Sound count.toNat d₁.statics := by
      rw [hs]
      exact hready.sound_startCount (by omega) true
    obtain ⟨hcount, hdone⟩ := fast_bounds hsound (by rw [hs]; rfl) hfin
    rw [hcount]
    exact hdone
  | @list count hpos hlt hslow huses =>
    obtain ⟨hcount, hstatics⟩ := exec_finish_list hfin
    have hlt' : count.toNat < 2 ^ 31 := by omega
    obtain ⟨hgood, hbad⟩ := list_bounds hready hlt' (entries d₁.lines)
    -- the condition speaks of the count as an `int`
    have hwithin : (∀ e ∈ entries d₁.lines, Recorded ctl.flush d.statics.oldsaved e.2 →
        (toUnsigned e.1 : Int) ≤ count) ↔
        ∀ e ∈ entries d₁.lines, Recorded ctl.flush d.statics.oldsaved e.2 →
          toUnsigned e.1 ≤ count.toNat :=
      forall_congr' fun e => forall_congr' fun _ => forall_congr' fun _ => by omega
    dsimp only
    rw [hwithin, hcount, hstatics, hs]
    exact ⟨hgood, hbad⟩
  | @slow count hpos hlt hslow huses =>
    obtain ⟨hcount, newp, hnewp, hstatics⟩ := exec_finish_slow hfin hr
    obtain ⟨id, hid, hcases⟩ := pop3Slowuidl_spec hnewp
    have hlt' : count.toNat < 2 ^ 31 := by omega
    rw [hcount, hstatics]
    simp only [hs, Statics.findUidById_startCount, Statics.uidDbNRecords_startCount] at hcases
    rcases hcases with ⟨hnone, hsame⟩ | ⟨p, tryId, nolinear, hsome, hsame, -⟩
    · rw [hsame]
      refine ⟨fun _ => hready.sound_startCount hlt' false, fun hno => absurd ?_ hno⟩
      intro id' p hid' hp
      rw [hid'.unique hid, hnone] at hp
      cases hp
    · rw [hsame]
      obtain ⟨hgood, hbad⟩ :=
        slow_bounds hready hlt' p d.statics.oldsaved.uidDbNRecords tryId nolinear
      refine ⟨fun hwithin => hgood ?_, fun hno => hbad fun hle => hno ?_⟩
      · have hle := hwithin id p hid hsome
        omega
      · intro id' p' hid' hp'
        rw [hid'.unique hid, hsome] at hp'
        cases hp'
        omega

/-- No access to an index goes beyond the array, neither in `pop3_getrange` nor in the calls for
its messages that follow, in whatever order and with whatever replies. -/
def StaysInBounds (ctl : Ctl) (d : Dialogue Statics ω Command) (r : Range) : Prop :=
  ∀ (calls : List MailCall) (d' : Dialogue Statics ω Command),
    (∀ call ∈ calls, 1 ≤ call.num ∧ (call.num : Int) ≤ r.count) →
    d'.statics = ((pop3Getrange ctl : Session ω Range).exec d).state.statics →
    ((runCalls calls : Session ω Unit).exec d').state.statics.outOfBounds = false

/-- **The index stays in bounds exactly if the server does**, and the saved list is no longer
than the mailbox where its UIDs are counted. -/
theorem index_in_bounds_iff (hready : Ready ctl d.statics) {r : Range}
    (hval : ((pop3Getrange ctl : Session ω Range).exec d).val = .ok r) (hr : r.err = .success) :
    StaysInBounds ctl d r ↔ Within ctl d := by
  obtain ⟨hgood, hbad⟩ := getrange_bounds hready hval hr
  constructor
  · intro hbounds
    by_contra hno
    -- even if the driver calls nothing
    have hclean : ((pop3Getrange ctl : Session ω Range).exec d).state.statics.outOfBounds = false :=
      hbounds [] _ (by simp) rfl
    rw [hbad hno] at hclean
    cases hclean
  · intro hwithin calls d' hcalls hd'
    have hstart : Sound r.count.toNat d'.statics := by
      rw [hd']
      exact hgood hwithin
    have hrange : ∀ call ∈ calls, 1 ≤ call.num ∧ call.num ≤ r.count.toNat := by
      intro call hcall
      have h := hcalls call hcall
      omega
    have hsound := triple_calls_sound hrange d' hstart
    cases hrun : ((runCalls calls : Session ω Unit).exec d').val with
    | error t =>
      simp only [hrun] at hsound
      exact hsound.clean
    | ok u =>
      simp only [hrun] at hsound
      exact hsound.clean

end

/-! ## A number that is too high -/

/-- A server with one message that calls it the ninth. -/
def wildList : Dialogue Statics Unit Command :=
  { fiveMessages with
    statics := ⟨Db.initUidDb, Db.initUidDb, 0, false, false, false⟩
    answer := fun _ c _ =>
      match c with
      | .stat => ([.line (Bytes.lit "+OK 1 10") false], ())
      | .uidl => ([.line (Bytes.lit "+OK") false, .line (Bytes.lit "9 a") false,
          .line (Bytes.lit ".") false], ())
      | _ => ([.line (Bytes.lit "-ERR") false], ()) }

/-- The record is stored beyond the array. -/
theorem wildList_not_staysInBounds :
    ((pop3Getrange plainCtl).exec wildList).val = .ok ⟨.success, 1, 1⟩ ∧
      ¬ StaysInBounds plainCtl wildList ⟨.success, 1, 1⟩ := by
  refine ⟨by decide, fun h => ?_⟩
  have hclean := h [] ((pop3Getrange plainCtl).exec wildList).state (by simp) rfl
  revert hclean
  decide

/-- The server numbers its five messages from one to five. -/
theorem index_in_bounds_iff_fiveMessages :
    StaysInBounds plainCtl fiveMessages ⟨.success, 5, 3⟩ ↔ Within plainCtl fiveMessages := by
  have hrest : fiveMessages.statics.oldsaved.AtRest := Nat.zero_le 1
  exact index_in_bounds_iff ⟨hrest, fun _ => rfl, rfl, rfl⟩ (by decide) rfl

end Fetchmail.Pop3
