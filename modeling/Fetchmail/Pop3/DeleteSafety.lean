import Fetchmail.Pop3.Lookups

/-!
# Deleting What Was Counted

The index that `pop3_delete` reads is the one that `pop3_getrange` left. With UIDs it is
complete if the server listed all messages, if the binary search keeps it on demand, or if
the saved UIDs cover the mailbox; after `LAST`, or without UIDs, there is none. The fetch
loop deletes in some of these cases all the same.
-/

namespace Fetchmail.Pop3

open Fetchmail.Lib Fetchmail.Transact Fetchmail.Uid Fetchmail.Driver

section

variable {ω : Type} {ctl : Ctl} {s s₀ : Statics} {count n : Nat} {d : Dialogue Statics ω Command}

/-! ## The condition -/

/-- Messages are deleted without regard to what `pop3_is_old` says of them. -/
def Ctl.deletesAny (ctl : Ctl) : Bool := ctl.fetchall || ctl.flush

/-- **When the records are there.** Without UIDs, when there is no message. After `LAST`, when
old messages are not deleted, and there are either saved UIDs or no new messages. After
`UIDL`, when the list has all messages, or when old messages are not deleted, and any UID is
known. Without `UIDL`, when the saved UIDs from that of the first message on are enough for
the mailbox, or when old messages are not deleted, and the last of the saved UIDs was found
on the server. -/
def Findable (ctl : Ctl) (d : Dialogue Statics ω Command) : Prop :=
  match ((course ctl).exec d).val with
  | .ok (.done r) => r.count ≤ 0 ∨ (ctl.usesUids = true ∧ ctl.deletesAny = false ∧
      (d.statics.oldsaved.records ≠ [] ∨ r.newp ≤ 0))
  | .ok (.list count) =>
    (∀ n : Nat, 1 ≤ n → (n : Int) ≤ count → ∃ e ∈ entries ((course ctl).exec d).state.lines,
      toUnsigned e.1 = n ∧ Recorded ctl.flush d.statics.oldsaved e.2) ∨
    (ctl.deletesAny = false ∧ (d.statics.oldsaved.records ≠ [] ∨
      entries ((course ctl).exec d).state.lines ≠ []))
  | .ok (.slow count) => ∀ id, TopId 1 ctl.stackBytes ((course ctl).exec d).state id →
    match d.statics.oldsaved.findUidById id with
    | none => ctl.deletesAny = false ∧ d.statics.oldsaved.records ≠ []
    | some p => count ≤ (d.statics.oldsaved.uidDbNRecords : Int) - p ∨ (ctl.deletesAny = false ∧
        LastKnown p d.statics.oldsaved.uidDbNRecords id
          ((pop3Gettopid 1 ctl.stackBytes).exec ((course ctl).exec d).state).state)
  | _ => True

/-! ## No index -/

theorem deletesAny_iff : ctl.deletesAny = true ↔ ctl.fetchall = true ∨ ctl.flush = true := by
  simp [Ctl.deletesAny]

/-- What is missing, in the terms of the condition. -/
theorem missing_iff : Missing ctl s n ↔ s.lookup n = none ∧
    (ctl.deletesAny = true ∨ (s.oldsaved.records = [] ∧ s.last < n)) := by
  rw [Missing, deletesAny_iff, or_assoc]

/-- An index that was set up has no message. -/
theorem Ready.lookup_startCount (h : Ready ctl s₀) (hcount : count < 2 ^ 31) (hn : n ≤ count)
    (fast : Bool) : (s₀.startCount count fast).lookup n = none := by
  cases fast with
  | true =>
    rw [lookup_of_fast rfl]
    exact (Db.unindexed_setUidDbNumPos0 h.rest (Db.lt_uintMax hcount)).empty n hn
  | false =>
    rw [lookup_of_slow rfl]
    have hrest : Db.AtRest Db.initUidDb := Nat.zero_le 1
    exact (Db.unindexed_setUidDbNumPos0 hrest (Db.lt_uintMax hcount)).empty n hn

/-- Variables that are not in the fast mode. -/
theorem prepared_slow (hcount : count < 2 ^ 31) (hslow : s.dofastuidl = false)
    (hnull : s.nullDeref = false) : Prepared ctl count s where
  small := hcount
  fast := fun hfast => absurd (hslow.symm.trans hfast) Bool.false_ne_true
  numbered := fun hfast => absurd (hslow.symm.trans hfast) Bool.false_ne_true
  null := hnull

/-- No message is missing from an empty index. -/
theorem no_missing_iff (hnone : ∀ n ≤ count, s.lookup n = none) (hpos : 0 < count) :
    (∀ n, 1 ≤ n → n ≤ count → ¬ Missing ctl s n) ↔
      ctl.deletesAny = false ∧ (s.oldsaved.records ≠ [] ∨ (count : Int) ≤ s.last) := by
  constructor
  · intro hall
    have hlast := hall count hpos (Nat.le_refl count)
    rw [missing_iff, hnone count (Nat.le_refl count)] at hlast
    simp only [true_and, not_or, not_and, Bool.not_eq_true] at hlast
    refine ⟨hlast.1, ?_⟩
    by_cases hnil : s.oldsaved.records = []
    · exact Or.inr (by have := hlast.2 hnil; omega)
    · exact Or.inl hnil
  · rintro ⟨hkeep, hknown⟩ n - hle hmiss
    rcases (missing_iff.mp hmiss).2 with h | ⟨hnil, hlt⟩
    · exact Bool.false_ne_true (hkeep.symm.trans h)
    · rcases hknown with hknown | hlast
      · exact hknown hnil
      · omega

/-! ## The binary search -/

/-- The variables during the search. -/
structure Searching (count : Nat) (s : Statics) : Prop where
  fast : s.dofastuidl = true
  numbered : s.oldsaved.Numbered count
  null : s.nullDeref = false

/-- Any server: an error is no success. -/
theorem triple_anyUid_error {P : Statics → Prop} (n : Nat) :
    Talk.Triple (fun d => P d.statics) (pop3Getuidl n : Session ω _)
      (fun r d => P d.statics ∧ ∀ err, r = .error err → err ≠ .success) (fun _ => True) := by
  refine Talk.Triple.bind ((triple_command (ω := ω) (P := P) (.uidlMsg n)).mono (fun _ h => h)
    (fun _ _ h => h) fun _ _ => trivial) fun response => ?_
  exact Talk.Triple.pure fun d hd => ⟨hd, fun err herr => ne_success_of_checkUidl herr⟩

/-- A search that comes to an end has entered a UID: in its first round at the latest. -/
theorem triple_fastLoop_known {fuel firstNr lastNr : Nat} (hcount : count < 2 ^ 31)
    (hlast : lastNr ≤ count + 1) :
    Talk.Triple (fun d => Searching count d.statics ∧
        (d.statics.oldsaved.records ≠ [] ∨ (firstNr < lastNr - 1 ∧ 0 < fuel)))
      (fastLoop fuel firstNr lastNr : Session ω _)
      (fun r d => match r with
        | .error err => err ≠ .success
        | .ok _ => Searching count d.statics ∧ d.statics.oldsaved.records ≠ [])
      (fun _ => True) := by
  induction fuel generalizing firstNr lastNr with
  | zero =>
    refine Talk.Triple.pure fun d hd => ⟨hd.1, ?_⟩
    exact hd.2.resolve_right fun h => by omega
  | succ fuel ih =>
    unfold fastLoop
    refine Talk.Triple.ite (fun hround => ?_) fun hend => Talk.Triple.pure fun d hd =>
      ⟨hd.1, hd.2.resolve_right fun h => hend h.1⟩
    have hask := triple_anyUid_error (ω := ω) (P := Searching count) ((firstNr + lastNr) / 2)
    refine Talk.Triple.bind (hask.mono (fun d hd => hd.1) (fun _ _ h => h) fun _ h => h) fun r => ?_
    cases r with
    | error err => exact Talk.Triple.pure fun d hd => hd.2 err rfl
    | ok id =>
      -- the UID is entered before its age decides
      refine Talk.Triple.bind
        (Q := fun _ d => Searching count d.statics ∧ d.statics.oldsaved.records ≠ [])
        (fun d hd => ?_) fun old => Talk.Triple.ite (fun _ => ?_) fun _ => ?_
      · obtain ⟨-, db, p, hstore, -, hndx, hlt, -⟩ :=
          d.statics.fastStep_spec ((firstNr + lastNr) / 2) id
        have hnumbered : db.Numbered count := hd.1.numbered.of_numNdx hndx
        rw [exec_state]
        show Searching count (d.statics.fastStep _ id).2 ∧ _
        rw [hstore]
        exact ⟨⟨hd.1.fast, hnumbered.setUidDbNum (Db.lt_uintMax hcount) (by omega), hd.1.null⟩,
          List.ne_nil_of_length_pos (by show 0 < db.records.length; omega)⟩
      · exact (ih hlast).mono (fun d hd => ⟨hd.1, Or.inl hd.2⟩) (fun _ _ h => h) fun _ h => h
      · exact (ih (by omega)).mono (fun d hd => ⟨hd.1, Or.inl hd.2⟩) (fun _ _ h => h) fun _ h => h

/-- The path of the binary search. -/
theorem fast_prepared {d₁ : Dialogue Statics ω Command} {m : Int} {r : Range} (hpos : 0 < m)
    (hlt : m < 2 ^ 31) (hs : Searching m.toNat d₁.statics)
    (hval : ((finish ctl (.fast m) : Session ω Range).exec d₁).val = .ok r)
    (hr : r.err = .success) :
    r.count = m ∧
      Searching m.toNat ((finish ctl (.fast m) : Session ω Range).exec d₁).state.statics ∧
      ((finish ctl (.fast m) : Session ω Range).exec d₁).state.statics.oldsaved.records ≠ [] := by
  have hloop : Talk.Triple (fun d => Searching m.toNat d.statics)
      (finish ctl (.fast m) : Session ω Range)
      (fun r d => r.err = .success → r.count = m ∧ Searching m.toNat d.statics ∧
        d.statics.oldsaved.records ≠ []) (fun _ => True) := by
    refine Talk.Triple.bind (Q := fun r d => r.1 = .success → Searching m.toNat d.statics ∧
      d.statics.oldsaved.records ≠ []) ?_ fun r => Talk.Triple.pure fun d hd hok => ⟨rfl, hd hok⟩
    have hsearch : Talk.Triple _ (fastLoop (m.toNat + 1) 0 (m.toNat + 1) : Session ω _) _ _ :=
      triple_fastLoop_known (show m.toNat < 2 ^ 31 by omega) (Nat.le_refl (m.toNat + 1))
    refine Talk.Triple.bind (hsearch.mono (fun d hd => ⟨hd, Or.inr (by omega)⟩) (fun _ _ h => h)
      fun _ h => h) fun r => ?_
    cases r with
    | error err => exact Talk.Triple.pure fun d hd hok => absurd hok hd
    | ok bounds =>
      refine Talk.Triple.bind
        (Q := fun _ d => Searching m.toNat d.statics ∧ d.statics.oldsaved.records ≠ [])
        (fun d hd => ⟨⟨hd.1.fast, hd.1.numbered, hd.1.null⟩, hd.2⟩) fun _ =>
        Talk.Triple.pure fun d hd _ => hd
  have hdone := hloop d₁ hs
  rw [hval] at hdone
  exact hdone hr

/-! ## The list and the saved UIDs -/

/-- What is recorded does not depend on the index. -/
theorem recorded_startCount (flush : Bool) (fast : Bool) (id : Bytes) :
    Recorded flush (s₀.startCount count fast).oldsaved id ↔ Recorded flush s₀.oldsaved id := by
  simp only [Recorded, Db.Old, Statics.startCount, Db.markOf_setUidDbNumPos0]

/-- The path of the list: a message is missing if the list has no record for it. -/
theorem list_missing (hready : Ready ctl s₀) (hnull : s₀.nullDeref = false)
    (hcount : count < 2 ^ 31) (lines : List (Nat × Bytes)) :
    Prepared ctl count ((s₀.startCount count false).listAll ctl.flush lines 0).2 ∧
    ((∀ n, 1 ≤ n → n ≤ count →
        ¬ Missing ctl ((s₀.startCount count false).listAll ctl.flush lines 0).2 n) ↔
      (∀ n, 1 ≤ n → n ≤ count → ∃ e ∈ lines, toUnsigned e.1 = n ∧
        Recorded ctl.flush s₀.oldsaved e.2) ∨
      (ctl.deletesAny = false ∧ (s₀.oldsaved.records ≠ [] ∨ lines ≠ []))) := by
  have hstored := hready.stored_listAll hcount lines
  generalize ((s₀.startCount count false).listAll ctl.flush lines 0).2 = s at *
  have hslow : s.dofastuidl = false := hstored.slow
  have hlast : s.last = 0 := hstored.rest.1
  have hknown : s.oldsaved.records = [] ↔ s₀.oldsaved.records = [] ∧ lines = [] := hstored.known
  -- the array has exactly the numbers of the lines that were recorded
  have hindex : ∀ n ≤ count, s.lookup n ≠ none ↔ ∃ e ∈ lines, toUnsigned e.1 = n ∧
      Recorded ctl.flush s₀.oldsaved e.2 := by
    intro n hn
    rw [lookup_of_slow hslow, hstored.index n hn]
    simp only [recorded_startCount]
  refine ⟨prepared_slow hcount hslow (hstored.rest.2.trans hnull), fun hall => ?_, ?_⟩
  -- an uncovered message is harmless only if nothing is deleted, and if ids are in use
  · by_cases hcovered : ∀ n, 1 ≤ n → n ≤ count → s.lookup n ≠ none
    · exact Or.inl fun n hn hle => (hindex n hle).mp (hcovered n hn hle)
    · right
      simp only [not_forall, not_not] at hcovered
      obtain ⟨n, hn, hle, hnone⟩ := hcovered
      have hkeep := hall n hn hle
      rw [missing_iff, hnone, hlast, hknown] at hkeep
      simp only [true_and, not_or, Bool.not_eq_true] at hkeep
      refine ⟨hkeep.1, ?_⟩
      rw [← not_and_or]
      exact fun hnil => hkeep.2 ⟨hnil, by omega⟩
  · rintro (hcovered | ⟨hkeep, hsome⟩) n hn hle hmiss
    · exact (hindex n hle).mpr (hcovered n hn hle) hmiss.1
    · rcases (missing_iff.mp hmiss).2 with h | ⟨hnil, -⟩
      · exact Bool.false_ne_true (hkeep.symm.trans h)
      · rw [← not_and_or] at hsome
        exact hsome (hknown.mp hnil)

/-- The index that the copied records make: it has as many messages as there are records. -/
theorem lookup_copyRecords (hcount : count < 2 ^ 31) {p nRecs : Nat} (hn : 1 ≤ n)
    (hn' : n ≤ count) :
    ((s₀.startCount count false).copyRecords p nRecs).lookup n ≠ none ↔ n ≤ nRecs - p := by
  have hrest : Db.AtRest Db.initUidDb := Nat.zero_le 1
  have hnew : (s₀.startCount count false).newsaved.Unindexed count :=
    Db.unindexed_setUidDbNumPos0 hrest (Db.lt_uintMax hcount)
  have hcopied := copiedTo_copyRecords hnew hcount p nRecs
  rw [lookup_of_slow hcopied.slow]
  constructor
  · intro hfound
    by_contra hgt
    refine hfound (hcopied.unindexed (fun num hnum => ?_) n hn' fun num hnum => ?_)
    · rw [List.mem_range'_1] at hnum
      omega
    · rw [List.mem_range'_1] at hnum
      omega
  · intro hle
    have hmem : p + (n - 1) ∈ List.range' p (nRecs - p) := by
      rw [List.mem_range'_1]
      omega
    have hfound := hcopied.indexed (p + (n - 1)) hmem (by omega)
    rwa [show p + (n - 1) - p + 1 = n by omega] at hfound

/-- The slow path, from the record of the first message on. -/
theorem slow_missing (ctl : Ctl) (hnull : s₀.nullDeref = false) (hcount : count < 2 ^ 31) (hpos : 0 < count)
    {p nRecs : Nat} {tryId : Int} {nolinear : Bool} {known : Prop}
    (hsome : s₀.oldsaved.records ≠ [])
    (hestimate : (nolinear = false ∧ known) ∨ (nolinear = true ∧
      ((count : Int) < nRecs - p ∨ (¬ known ∧ tryId ≤ nRecs - p)))) :
    Prepared ctl count (((s₀.startCount count false).copyRecords p nRecs).endSlow tryId nolinear) ∧
    ((∀ n, 1 ≤ n → n ≤ count → ¬ Missing ctl
        (((s₀.startCount count false).copyRecords p nRecs).endSlow tryId nolinear) n) ↔
      (count : Int) ≤ nRecs - p ∨ (ctl.deletesAny = false ∧ known)) := by
  have hrest : Db.AtRest Db.initUidDb := Nat.zero_le 1
  have hnew : (s₀.startCount count false).newsaved.Unindexed count :=
    Db.unindexed_setUidDbNumPos0 hrest (Db.lt_uintMax hcount)
  have hcopied := copiedTo_copyRecords hnew hcount p nRecs
  have hindex : ∀ n, 1 ≤ n → n ≤ count →
      (((s₀.startCount count false).copyRecords p nRecs).lookup n ≠ none ↔ n ≤ nRecs - p) :=
    fun n hn hle => lookup_copyRecords hcount hn hle
  generalize (s₀.startCount count false).copyRecords p nRecs = s at *
  have hslow : (s.endSlow tryId nolinear).dofastuidl = false := by
    unfold Statics.endSlow
    split <;> exact hcopied.slow
  have hclean : (s.endSlow tryId nolinear).nullDeref = false := by
    unfold Statics.endSlow
    split <;> exact hcopied.rest.2.trans hnull
  have hlookup : ∀ n, (s.endSlow tryId nolinear).lookup n = s.lookup n := by
    intro n
    rw [lookup_of_slow hslow, lookup_of_slow hcopied.slow]
    unfold Statics.endSlow
    split <;> rfl
  -- enough records are enough in any case
  have henough : (count : Int) ≤ nRecs - p →
      ∀ n, 1 ≤ n → n ≤ count → ¬ Missing ctl (s.endSlow tryId nolinear) n := by
    intro hle n hn hn' hmiss
    exact (hindex n hn hn').mpr (by omega) ((hlookup n).symm.trans hmiss.1)
  refine ⟨prepared_slow hcount hslow hclean, fun hall => ?_, ?_⟩
  -- else the last message has no record, and what it needs holds of all
  · by_cases hle : (count : Int) ≤ nRecs - p
    · exact Or.inl hle
    right
    have hnone : s.lookup count = none := by
      by_contra hfound
      have hcovered := (hindex count hpos (Nat.le_refl count)).mp hfound
      omega
    have hkeep := hall count hpos (Nat.le_refl count)
    rw [missing_iff, hlookup, hnone] at hkeep
    simp only [true_and, not_or, Bool.not_eq_true] at hkeep
    refine ⟨hkeep.1, ?_⟩
    rcases hestimate with ⟨-, hknown⟩ | ⟨hnolinear, hless | ⟨-, hestimate⟩⟩
    · exact hknown
    · omega
    · exact absurd ⟨by rw [Statics.endSlow, if_pos hnolinear]; rfl,
        by rw [Statics.endSlow, if_pos hnolinear]; show tryId < _; omega⟩ hkeep.2
  · rintro (hle | ⟨hkeep, hknown⟩)
    · exact henough hle
    rcases hestimate with ⟨hlinear, -⟩ | ⟨-, hless | ⟨hunknown, -⟩⟩
    · intro n hn hle hmiss
      have hsame : s.endSlow tryId nolinear = s := by
        rw [Statics.endSlow, hlinear]
        rfl
      rcases (missing_iff.mp hmiss).2 with h | ⟨hnil, -⟩
      · exact Bool.false_ne_true (hkeep.symm.trans h)
      · rw [hsame, hcopied.old] at hnil
        exact hsome hnil
    · exact henough (by omega)
    · exact absurd hknown hunknown

/-! ## `pop3_getrange` -/

theorem Ctl.wantsFast_keeps {count : Int} (h : ctl.wantsFast count = true) :
    ctl.fetchall = false ∧ ctl.flush = false := by
  simp only [Ctl.wantsFast, Bool.and_eq_true, Bool.not_eq_true'] at h
  exact ⟨h.1.1.1.2, h.1.1.2⟩

/-- Without UIDs no index was set up, and `fetchall` holds. -/
theorem unused_missing (hready : Ready ctl s₀) (hnull : s₀.nullDeref = false)
    (hcount : count < 2 ^ 31) (huses : count = 0 ∨ ctl.usesUids = false) :
    Prepared ctl count { s₀ with newsaved := Db.initUidDb, last := 0 } ∧
      ((∀ n, 1 ≤ n → n ≤ count →
        ¬ Missing ctl { s₀ with newsaved := Db.initUidDb, last := 0 } n) ↔ count = 0) := by
  refine ⟨prepared_slow hcount hready.slow hnull, ?_⟩
  by_cases hempty : count = 0
  · exact iff_of_true (fun n hn hle => by omega) hempty
  have huses : ctl.usesUids = false := huses.resolve_left hempty
  have hany : ctl.deletesAny = true := by
    simp only [Ctl.usesUids, Bool.or_eq_false_iff, Bool.not_eq_false'] at huses
    simp [Ctl.deletesAny, huses.1]
  have hnone : ∀ n ≤ count,
      Statics.lookup { s₀ with newsaved := Db.initUidDb, last := 0 } n = none := by
    intro n hn
    have hend : ¬ 2 ^ 32 - 1 ≤ n := by omega
    exact (lookup_of_slow (s := { s₀ with newsaved := Db.initUidDb, last := 0 })
      hready.slow).trans (if_neg hend)
  rw [no_missing_iff hnone (Nat.pos_of_ne_zero hempty), hany]
  simp [hempty]

/-- After `LAST` the index was set up, and nothing was entered. -/
theorem last_missing (hready : Ready ctl s₀) (hnull : s₀.nullDeref = false)
    (hcount : count < 2 ^ 31) (hpos : 0 < count) (last : Int) :
    Prepared ctl count { s₀.startCount count (ctl.wantsFast count) with last := last } ∧
      ((∀ n, 1 ≤ n → n ≤ count →
        ¬ Missing ctl { s₀.startCount count (ctl.wantsFast count) with last := last } n) ↔
        ctl.deletesAny = false ∧ (s₀.oldsaved.records ≠ [] ∨ (count : Int) ≤ last)) := by
  have hnone : ∀ n ≤ count,
      Statics.lookup { s₀.startCount count (ctl.wantsFast count) with last := last } n = none :=
    fun n hn => hready.lookup_startCount hcount hn (ctl.wantsFast count)
  refine ⟨⟨hcount, fun hfast => Ctl.wantsFast_keeps hfast, fun _ _ =>
    Db.numbered_setUidDbNumPos0 hready.rest (Db.lt_uintMax hcount), hnull⟩, ?_⟩
  rw [no_missing_iff hnone hpos]
  rfl

/-- **What `pop3_getrange` leaves**, one case for each path. -/
theorem getrange_missing (hready : Ready ctl d.statics) (hnull : d.statics.nullDeref = false)
    {r : Range} (hval : ((pop3Getrange ctl : Session ω Range).exec d).val = .ok r)
    (hr : r.err = .success) :
    Prepared ctl r.count.toNat ((pop3Getrange ctl : Session ω Range).exec d).state.statics ∧
      ((∀ n, 1 ≤ n → n ≤ r.count.toNat →
        ¬ Missing ctl ((pop3Getrange ctl : Session ω Range).exec d).state.statics n) ↔
        Findable ctl d) := by
  obtain ⟨c, hc, hreach, hfin, hstate⟩ := pop3Getrange_reaches hval
  unfold Findable
  rw [hc, hstate]
  generalize ((course ctl : Session ω Course).exec d).state = d₁ at hreach hfin ⊢
  generalize hs : d₁.statics = s at hreach
  cases hreach with
  | failed hno =>
    cases hfin
    exact absurd hr hno
  | @unused count hlt huses =>
    cases hfin
    show Prepared ctl count.toNat d₁.statics ∧ ((∀ n, 1 ≤ n → n ≤ count.toNat →
      ¬ Missing ctl d₁.statics n) ↔ count ≤ 0 ∨ _)
    rw [hs]
    have hlt' : count.toNat < 2 ^ 31 := by omega
    obtain ⟨hprepared, hiff⟩ := unused_missing hready hnull hlt'
      (huses.imp_left fun hempty => Int.toNat_eq_zero.mpr hempty)
    refine ⟨hprepared, hiff.trans ?_⟩
    rw [Int.toNat_eq_zero]
    refine ⟨Or.inl, fun h => h.elim id fun ⟨hset, _⟩ => ?_⟩
    exact huses.resolve_right fun hno => Bool.false_ne_true (hno.symm.trans hset)
  | @last count last hpos hlt huses huidl =>
    cases hfin
    show Prepared ctl count.toNat d₁.statics ∧ ((∀ n, 1 ≤ n → n ≤ count.toNat →
      ¬ Missing ctl d₁.statics n) ↔ count ≤ 0 ∨ (ctl.usesUids = true ∧ ctl.deletesAny = false ∧
        (d.statics.oldsaved.records ≠ [] ∨ count - last ≤ 0)))
    have hnat : (count.toNat : Int) = count := Int.toNat_of_nonneg (by omega)
    have hlt' : count.toNat < 2 ^ 31 := by omega
    obtain ⟨hprepared, hiff⟩ := last_missing hready hnull hlt' (by omega) last
    rw [hnat] at hprepared hiff
    rw [hs]
    refine ⟨hprepared, hiff.trans ?_⟩
    have hnew : count - last ≤ 0 ↔ count ≤ last := by omega
    rw [hnew, huses, or_iff_right (Int.not_le.mpr hpos)]
    exact (and_iff_right rfl).symm
  | @fast count hpos hlt hfast =>
    have hlt' : count.toNat < 2 ^ 31 := by omega
    have hstart : Searching count.toNat d₁.statics := by
      rw [hs]
      exact ⟨rfl, Db.numbered_setUidDbNumPos0 hready.rest (Db.lt_uintMax hlt'), hnull⟩
    obtain ⟨hcount, hdone, hknown⟩ := fast_prepared hpos hlt hstart hfin hr
    obtain ⟨hfetchall, hflush⟩ := Ctl.wantsFast_keeps hfast
    rw [hcount]
    refine ⟨⟨hlt', fun _ => ⟨hfetchall, hflush⟩, fun _ _ => hdone.numbered, hdone.null⟩, ?_⟩
    refine iff_of_true (fun n hn hle hmiss => ?_) trivial
    rcases hmiss.2 with h | h | h
    · exact Bool.false_ne_true (hfetchall.symm.trans h)
    · exact Bool.false_ne_true (hflush.symm.trans h)
    · exact hknown h.1
  | @list count hpos hlt hslow huses =>
    obtain ⟨hcount, hstatics⟩ := exec_finish_list hfin
    obtain ⟨hprepared, hiff⟩ := list_missing hready hnull (show count.toNat < 2 ^ 31 by omega)
      (entries d₁.lines)
    -- the condition speaks of the count as an `int`
    have hrange : (∀ n : Nat, 1 ≤ n → (n : Int) ≤ count → ∃ e ∈ entries d₁.lines,
        toUnsigned e.1 = n ∧ Recorded ctl.flush d.statics.oldsaved e.2) ↔
        ∀ n, 1 ≤ n → n ≤ count.toNat → ∃ e ∈ entries d₁.lines,
          toUnsigned e.1 = n ∧ Recorded ctl.flush d.statics.oldsaved e.2 :=
      forall_congr' fun n => forall_congr' fun _ => by
        rw [show (n : Int) ≤ count ↔ n ≤ count.toNat by omega]
    dsimp only
    rw [hrange, hcount, hstatics, hs]
    exact ⟨hprepared, hiff⟩
  | @slow count hpos hlt hslow huses =>
    obtain ⟨hcount, newp, hnewp, hstatics⟩ := exec_finish_slow hfin hr
    obtain ⟨id, hid, hcases⟩ := pop3Slowuidl_spec hnewp
    have hlt' : count.toNat < 2 ^ 31 := by omega
    have hpos' : 0 < count.toNat := by omega
    -- the server gives the first message one UID
    have honly : ∀ P : Bytes → Prop, (∀ id, TopId 1 ctl.stackBytes d₁ id → P id) ↔ P id :=
      fun P => ⟨fun h => h id hid, fun h id' hid' => hid'.unique hid ▸ h⟩
    dsimp only
    rw [honly, hcount, hstatics]
    simp only [hs, Statics.findUidById_startCount, Statics.uidDbNRecords_startCount] at hcases
    rcases hcases with ⟨hnone, hsame⟩ | ⟨p, tryId, nolinear, hsome, hsame, hval'⟩
    · rw [hsame, hnone]
      refine ⟨prepared_slow hlt' rfl hnull, ?_⟩
      rw [no_missing_iff (fun n hn => hready.lookup_startCount hlt' hn false) hpos']
      show _ ∧ (d.statics.oldsaved.records ≠ [] ∨ (count.toNat : Int) ≤ 0) ↔ _
      rw [or_iff_left (by omega)]
    · rw [hsame, hsome]
      have hlength := Db.findUidById_lt hsome
      have hne : d.statics.oldsaved.records ≠ [] := List.ne_nil_of_length_pos (by omega)
      have hnat : (count.toNat : Int) = count := Int.toNat_of_nonneg (by omega)
      have hestimate := estimate_spec hval'
      rw [← hnat] at hestimate
      obtain ⟨hprepared, hiff⟩ := slow_missing ctl hnull hlt' hpos' hne hestimate
      rw [hnat] at hiff
      exact ⟨hprepared, hiff⟩

/-- **Deleted messages are on record exactly if the condition holds**: whatever the server
answers after `pop3_getrange`, and in whatever way the pass goes. -/
theorem delete_finds_record_iff (hready : Ready ctl d.statics) (hnull : d.statics.nullDeref = false)
    {r : Range} (hval : ((pop3Getrange ctl : Session ω Range).exec d).val = .ok r)
    (hr : r.err = .success) :
    DeletesRecorded ω ctl r.count.toNat
      ((pop3Getrange ctl : Session ω Range).exec d).state.statics ↔ Findable ctl d := by
  obtain ⟨hprepared, hiff⟩ := getrange_missing hready hnull hval hr
  exact (deletesRecorded_iff hprepared d).trans hiff

end

/-! ## All messages, and no UIDs -/

/-- A server with one message that accepts everything. -/
def obedient : Dialogue Statics Unit Command :=
  { fiveMessages with
    statics := ⟨Db.initUidDb, Db.initUidDb, 0, false, false, false⟩
    answer := fun _ c _ =>
      match c with
      | .stat => ([.line (Bytes.lit "+OK 1 10") false], ())
      | _ => ([.line (Bytes.lit "+OK") false], ()) }

/-- `fetchall`, without `uidl`. -/
def fetchallCtl : Ctl := ⟨true, false, false, 0, 0, []⟩

/-- The message is fetched and deleted, and there is no record of it. -/
theorem fetchall_not_deletesRecorded :
    ((pop3Getrange fetchallCtl).exec obedient).val = .ok ⟨.success, 1, -1⟩ ∧
      ¬ DeletesRecorded Unit fetchallCtl 1 ((pop3Getrange fetchallCtl).exec obedient).state.statics := by
  refine ⟨by decide, fun h => ?_⟩
  have hclean := h (eagerCtl fetchallCtl) eagerMethod idleTransact 0 ⟨0, 0, none, 0, 0, 0, 0, 0⟩
    ((pop3Getrange fetchallCtl).exec obedient).state ⟨rfl, rfl, rfl⟩ pop3Methods_eager rfl
  revert hclean
  decide

/-- Among five messages, old and new, every one has a record. -/
theorem delete_finds_record_iff_fiveMessages :
    DeletesRecorded Unit plainCtl 5
      ((pop3Getrange plainCtl : Session Unit Range).exec fiveMessages).state.statics ↔
        Findable plainCtl fiveMessages := by
  have hrest : fiveMessages.statics.oldsaved.AtRest := Nat.zero_le 1
  have hval : ((pop3Getrange plainCtl : Session Unit Range).exec fiveMessages).val =
      .ok ⟨.success, 5, 3⟩ := by decide
  exact delete_finds_record_iff ⟨hrest, fun _ => rfl, rfl, rfl⟩ rfl hval rfl

end Fetchmail.Pop3
