import Fetchmail.Pop3.Flush
import Fetchmail.Pop3.IndexBounds

/-!
# Records That Are Deleted

`pop3_delete` looks up the record of a message by its number and follows the pointer that it
gets. Whether there is a record was decided when the index was built; what the fetch loop
deletes depends on the settings and on what `pop3_is_old` says. Here the two meet: from
given variables, a pass can follow the null pointer exactly if some message is missing that
the loop may delete.
-/

namespace Fetchmail.Pop3

open Fetchmail.Lib Fetchmail.Transact Fetchmail.Uid Fetchmail.Driver

section

variable {ω : Type} {ctl : Ctl} {base s s' : Statics} {count n num : Nat}
  {d : Dialogue Statics ω Command}

/-! ## Lookups -/

/-- What `pop3_delete` finds. -/
def Statics.lookup (s : Statics) (n : Nat) : Option Nat :=
  if s.dofastuidl then s.oldsaved.findUidByNum n else s.newsaved.findUidByNum n

theorem lookup_of_fast (h : s.dofastuidl = true) : s.lookup n = s.oldsaved.findUidByNum n :=
  if_pos h

theorem lookup_of_slow (h : s.dofastuidl = false) : s.lookup n = s.newsaved.findUidByNum n :=
  if_neg (Bool.eq_false_iff.mp h)

/-- The message is not in the index, and may be deleted all the same: all messages are, or
the old ones are and it counts as old, or `pop3_is_old` has nothing but the number to go by
and calls it new. -/
def Missing (ctl : Ctl) (s : Statics) (n : Nat) : Prop :=
  s.lookup n = none ∧
    (ctl.fetchall = true ∨ ctl.flush = true ∨ (s.oldsaved.records = [] ∧ s.last < n))

/-- Some records were marked. -/
structure Marked (s s' : Statics) : Prop where
  fast : s'.dofastuidl = s.dofastuidl
  last : s'.last = s.last
  size : s'.oldsaved.records.length = s.oldsaved.records.length
  old : s'.oldsaved.numNdx = s.oldsaved.numNdx
  new : s'.newsaved.numNdx = s.newsaved.numNdx
  null : s'.nullDeref = s.nullDeref

theorem Marked.trans {s₁ s₂ s₃ : Statics} (h : Marked s₁ s₂) (h' : Marked s₂ s₃) :
    Marked s₁ s₃ where
  fast := h'.fast.trans h.fast
  last := h'.last.trans h.last
  size := h'.size.trans h.size
  old := h'.old.trans h.old
  new := h'.new.trans h.new
  null := h'.null.trans h.null

theorem Marked.lookup (h : Marked s s') (n : Nat) : s'.lookup n = s.lookup n := by
  unfold Statics.lookup
  rw [h.fast, Db.findUidByNum_congr h.old, Db.findUidByNum_congr h.new]

theorem marked_markUidSeen (s : Statics) (n : Nat) : Marked s (s.markUidSeen n) := by
  have hnew : Marked s (s.markNewSeen n) := by
    unfold Statics.markNewSeen Statics.findNewNum
    cases s.newsaved.findUidByNum n with
    | none => exact ⟨rfl, rfl, rfl, rfl, rfl, rfl⟩
    | some p => exact ⟨rfl, rfl, rfl, rfl, rfl, rfl⟩
  refine hnew.trans ?_
  unfold Statics.markUidSeen Statics.markOldSeen Statics.findOldNum
  cases (s.markNewSeen n).oldsaved.findUidByNum n with
  | none => exact ⟨rfl, rfl, rfl, rfl, rfl, rfl⟩
  | some p => exact ⟨rfl, rfl, Db.length_records_setStatus, rfl, rfl, rfl⟩

/-- The record is marked when it is there. -/
theorem marked_markDeleted (h : s.lookup n ≠ none) : Marked s (s.markDeleted n) := by
  unfold Statics.markDeleted Statics.findOldNum Statics.findNewNum
  unfold Statics.lookup at h
  by_cases hfast : s.dofastuidl = true
  · rw [if_pos hfast] at h ⊢
    cases hp : s.oldsaved.findUidByNum n with
    | none => exact absurd hp h
    | some p => exact ⟨rfl, rfl, Db.length_records_setStatus, rfl, rfl, rfl⟩
  · rw [if_neg hfast] at h ⊢
    cases hp : s.newsaved.findUidByNum n with
    | none => exact absurd hp h
    | some p => exact ⟨rfl, rfl, rfl, rfl, rfl, rfl⟩

/-- Else the null pointer is followed. -/
theorem nullDeref_markDeleted (h : s.lookup n = none) : (s.markDeleted n).nullDeref = true := by
  unfold Statics.markDeleted Statics.findOldNum Statics.findNewNum
  unfold Statics.lookup at h
  by_cases hfast : s.dofastuidl = true
  · rw [if_pos hfast] at h ⊢
    rw [h]
  · rw [if_neg hfast] at h ⊢
    rw [h]

/-! ## The variables in a pass -/

/-- The variables before a pass. -/
structure Prepared (ctl : Ctl) (count : Nat) (base : Statics) : Prop where
  small : count < 2 ^ 31
  fast : base.dofastuidl = true → ctl.fetchall = false ∧ ctl.flush = false
  numbered : base.dofastuidl = true → base.oldsaved.records ≠ [] → base.oldsaved.Numbered count
  null : base.nullDeref = false

/-- The variables in a pass that began with `base`. The index grows only in the fast mode,
and not while no UID is known. -/
structure Steady (count : Nat) (base s : Statics) : Prop where
  fast : s.dofastuidl = base.dofastuidl
  last : s.last = base.last
  known : s.oldsaved.records = [] ↔ base.oldsaved.records = []
  index : base.dofastuidl = false ∨ base.oldsaved.records = [] →
    ∀ n, s.lookup n = base.lookup n
  numbered : base.dofastuidl = true → base.oldsaved.records ≠ [] → s.oldsaved.Numbered count
  null : s.nullDeref = false

theorem Prepared.steady (h : Prepared ctl count base) : Steady count base base :=
  ⟨rfl, rfl, Iff.rfl, fun _ _ => rfl, h.numbered, h.null⟩

theorem Steady.marked (h : Steady count base s) (hs : Marked s s') : Steady count base s' where
  fast := hs.fast.trans h.fast
  last := hs.last.trans h.last
  known := by
    rw [← h.known, ← List.length_eq_zero_iff, ← List.length_eq_zero_iff, hs.size]
  index := fun hbase n => (hs.lookup n).trans (h.index hbase n)
  numbered := fun hfast hknown => (h.numbered hfast hknown).of_numNdx hs.old
  null := hs.null.trans h.null

/-! ## `pop3_is_old` -/

/-- What `pop3_is_old` leaves when it answered `old` for message `n`. -/
structure Judged (ctl : Ctl) (count : Nat) (base s : Statics) (n : Nat) (old : Bool)
    (s' : Statics) : Prop where
  steady : Steady count base s'
  found : s.lookup n ≠ none → s'.lookup n ≠ none
  new : old = false → ¬ Missing ctl base n → s'.lookup n ≠ none

/-- A message of unknown age is in the index when it was judged to be new. -/
theorem Steady.judged_same (h : Steady count base s) {old : Bool}
    (hold : old = false → Missing ctl base n ∨ s.lookup n ≠ none) :
    Judged ctl count base s n old s :=
  ⟨h, fun hfound => hfound, fun hnew hmiss => (hold hnew).resolve_left hmiss⟩

theorem marked_findNewNum : Marked s (s.findNewNum n).2 := ⟨rfl, rfl, rfl, rfl, rfl, rfl⟩

theorem marked_findOldNum : Marked s (s.findOldNum n).2 := ⟨rfl, rfl, rfl, rfl, rfl, rfl⟩

/-- A UID that was asked for is in the index. -/
theorem Steady.lazyStep (h : Steady count base s) (ctl : Ctl) (hcount : count < 2 ^ 31)
    (hfast : s.dofastuidl = true) (hknown : s.oldsaved.records ≠ []) (hn : n ≤ count)
    (id : Bytes) :
    Judged ctl count base s n (s.lazyStep n id).1 (s.lazyStep n id).2 := by
  have hbase : base.dofastuidl = true ∧ base.oldsaved.records ≠ [] :=
    ⟨h.fast ▸ hfast, fun hnil => hknown (h.known.mpr hnil)⟩
  obtain ⟨-, db, p, hstore, hkept, hndx, hlt, -, -⟩ := s.lazyStep_spec n id
  have hnumbered : db.Numbered count := (h.numbered hbase.1 hbase.2).of_numNdx hndx
  have hne : db.records ≠ [] := List.ne_nil_of_length_pos (by omega)
  have hfound : (s.lazyStep n id).2.lookup n ≠ none := by
    have hlookup : (({ s with oldsaved := db } : Statics).setOldNum p n).lookup n =
        (db.setUidDbNum p n).findUidByNum n := lookup_of_fast hfast
    rw [hstore, hlookup, Db.findUidByNum_setUidDbNum hnumbered (Db.lt_uintMax hcount) hn hn,
      if_pos rfl]
    exact Option.some_ne_none p
  refine ⟨?_, fun _ => hfound, fun _ _ => hfound⟩
  rw [hstore]
  refine ⟨h.fast, h.last, iff_of_false hne hbase.2, fun hor => ?_, fun _ _ =>
    hnumbered.setUidDbNum (Db.lt_uintMax hcount) hn, h.null⟩
  rcases hor with hslow | hnil
  · exact absurd (hslow.symm.trans hbase.1) Bool.false_ne_true
  · exact absurd hnil hbase.2

/-- **`pop3_is_old`**, whatever the server answers: in the slow mode nothing is added to the
index, in the fast mode the message that was asked for. -/
theorem triple_pop3IsOld_judged (ctl : Ctl) (hcount : count < 2 ^ 31) (hs : Steady count base s)
    (hn : n ≤ count) :
    Talk.Triple (fun d => d.statics = s) (pop3IsOld n : Session ω Bool)
      (fun b d => Judged ctl count base s n b d.statics)
      (fun d => Judged ctl count base s n true d.statics) := by
  intro d hd
  subst hd
  -- without saved UIDs, the number is compared with that of `LAST`
  by_cases hnone : d.statics.oldsaved.uidDbNRecords = 0
  · have hnil : d.statics.oldsaved.records = [] := List.length_eq_zero_iff.mp hnone
    simp only [pop3IsOld, Talk.exec_bind, Talk.exec_gets, hnone, if_true, Talk.exec_pure]
    refine hs.judged_same fun hnew => ?_
    have hlast : d.statics.last < n := by simpa using hnew
    by_cases hfind : d.statics.lookup n = none
    · refine Or.inl ⟨?_, Or.inr (Or.inr ⟨hs.known.mp hnil, hs.last ▸ hlast⟩)⟩
      rw [← hs.index (Or.inr (hs.known.mp hnil)), hfind]
    · exact Or.inr hfind
  have hknown : d.statics.oldsaved.records ≠ [] := fun hnil => hnone (by
    rw [Db.uidDbNRecords, hnil]
    rfl)
  -- else the index of the mode is asked
  cases hfast : d.statics.dofastuidl with
  | false =>
    simp only [pop3IsOld, Talk.exec_bind, Talk.exec_gets, hnone, hfast, Bool.false_eq_true,
      if_false, exec_state]
    have hlookup : d.statics.lookup n = d.statics.newsaved.findUidByNum n := lookup_of_slow hfast
    have hsteady := hs.marked (marked_findNewNum (n := n))
    cases hp : d.statics.newsaved.findUidByNum n with
    | none =>
      simp only [Statics.findNewNum, hp, Talk.exec_pure]
      exact ⟨hsteady, fun hfound => absurd (hlookup.trans hp) hfound, fun hnew => by cases hnew⟩
    | some p =>
      simp only [Statics.findNewNum, hp, Talk.exec_bind, Talk.exec_gets, Talk.exec_pure]
      have hfound : d.statics.lookup n ≠ none := by
        rw [hlookup, hp]
        exact Option.some_ne_none p
      exact ⟨hsteady, fun _ => hfound, fun _ _ => hfound⟩
  | true =>
    simp only [pop3IsOld, isOldFast, Talk.exec_bind, Talk.exec_gets, hnone, hfast, if_true,
      if_false, Talk.exec_ite]
    by_cases hle : (n : Int) ≤ d.statics.last
    · simp only [hle, if_true, Talk.exec_pure]
      exact hs.judged_same fun hnew => by cases hnew
    simp only [hle, if_false, exec_state]
    have hlookup : d.statics.lookup n = d.statics.oldsaved.findUidByNum n := lookup_of_fast hfast
    have hsteady := hs.marked (marked_findOldNum (n := n))
    cases hp : d.statics.oldsaved.findUidByNum n with
    | some p =>
      simp only [Statics.findOldNum, hp, Talk.exec_bind, Talk.exec_gets, Talk.exec_pure]
      have hfound : d.statics.lookup n ≠ none := by
        rw [hlookup, hp]
        exact Option.some_ne_none p
      exact ⟨hsteady, fun _ => hfound, fun _ _ => hfound⟩
    | none =>
      have hno : d.statics.lookup n = none := hlookup.trans hp
      -- the message was not met by the search: its UID is fetched and entered
      have hask : Talk.Triple (fun d' => d'.statics = (d.statics.findOldNum n).2)
          (askUid n : Session ω Bool)
          (fun b d' => Judged ctl count base d.statics n b d'.statics)
          (fun d' => Judged ctl count base d.statics n true d'.statics) := by
        have hsame : Judged ctl count base d.statics n true (d.statics.findOldNum n).2 :=
          ⟨hsteady, fun hfound => absurd hno hfound, fun hnew => by cases hnew⟩
        have hany := triple_anyUid (ω := ω) (P := fun s => s = (d.statics.findOldNum n).2) n
        refine Talk.Triple.bind (hany.mono (fun _ h => h) (fun _ _ h => h) fun d' h => ?_) fun r => ?_
        · rw [h]
          exact hsame
        · cases r with
          | error err =>
            refine Talk.Triple.pure fun d' h => ?_
            rw [h]
            exact hsame
          | ok id =>
            intro d' h
            have hjudged := hsteady.lazyStep ctl hcount hfast hknown hn id
            rw [exec_state, h]
            exact ⟨hjudged.steady, fun hfound => absurd hno hfound, hjudged.new⟩
      have hdone := hask { d with statics := (d.statics.findOldNum n).2 } rfl
      simp only [Statics.findOldNum, hp] at hdone ⊢
      exact hdone

/-- The same as the fetch loop sees it. -/
theorem Steady.isOld (hs : Steady count base d.statics) (hcount : count < 2 ^ 31)
    (hn : n ≤ count) (ctl : Ctl) :
    Judged ctl count base d.statics n (asMethod true (pop3IsOld n) d).1
      (asMethod true (pop3IsOld n) d).2.statics := by
  have hjudged := triple_pop3IsOld_judged (ω := ω) ctl hcount hs hn d rfl
  unfold asMethod
  cases hval : ((pop3IsOld n : Session ω Bool).exec d).val with
  | error t =>
    rw [hval] at hjudged
    exact hjudged
  | ok old =>
    rw [hval] at hjudged
    exact hjudged

/-! ## A pass that finds its records -/

variable {c : Driver.Ctl} {m : Method (Dialogue Statics ω Command)}
  {t : Transact (Dialogue Statics ω Command)}

/-- The settings of the pass are those of the account, and no errors are on record. -/
structure SameSettings (ctl : Ctl) (c : Driver.Ctl) : Prop where
  flush : c.flush = ctl.flush
  fetchall : c.fetchall = ctl.fetchall
  errcount : c.errcount = 0

/-- The variables while message `num` is fetched, which is in the index. -/
def Found (count : Nat) (base : Statics) (num : Nat) (d : Dialogue Statics ω Command) : Prop :=
  Steady count base d.statics ∧ d.statics.lookup num ≠ none

theorem Found.marked (h : Found count base num d) {d' : Dialogue Statics ω Command}
    (hd : Marked d.statics d'.statics) : Found count base num d' :=
  ⟨h.1.marked hd, hd.lookup num ▸ h.2⟩

/-- The variables at `flagthemail`: the message is in the index, or it is old and old ones
are not deleted. -/
def Disposable (c : Driver.Ctl) (count : Nat) (base : Statics) (num : Nat) (f : Flags)
    (d : Dialogue Statics ω Command) : Prop :=
  Steady count base d.statics ∧
    (d.statics.lookup num ≠ none ∨ (f.msgcode = .old ∧ c.flush = false))

/-- `pop3_delete` on a message that is in the index. -/
theorem Found.delete (h : Found count base num d) (left : Ps) :
    Found count base num (asMethod left (pop3Delete num) d).2 := by
  have hseen := marked_markUidSeen d.statics num
  have hlookup : (d.statics.markUidSeen num).lookup num ≠ none := hseen.lookup num ▸ h.2
  exact h.marked <| @pop3Delete_statics_rule _ num d (Marked d.statics) left hseen
    (hseen.trans (marked_markDeleted hlookup))

/-- The methods respect the index. -/
theorem Pop3Methods.judgeRule_found (hm : Pop3Methods m t) (ctl : Ctl) (hcount : count < 2 ^ 31)
    (hnum : num ≤ count) :
    JudgeRule m t count num (Found count base num) (fun _ => Found count base num)
      (Disposable c count base num) (fun d => Steady count base d.statics) (fun _ => True) := by
  have hisOld : ∀ d : Dialogue Statics ω Command, Found count base num d →
      Found count base num (asMethod true (pop3IsOld num) d).2 := by
    intro d h
    have hjudged := h.1.isOld hcount hnum ctl
    exact ⟨hjudged.steady, hjudged.found h.2⟩
  exact hm.judgeRule (I := fun s => Steady count base s ∧ s.lookup num ≠ none)
    (E := Steady count base)
    (Z := fun f s => Steady count base s ∧
      (s.lookup num ≠ none ∨ (f.msgcode = .old ∧ c.flush = false)))
    (fun _ h => h.1) (fun _ _ h => ⟨h.1, Or.inl h.2⟩) hisOld

/-- Disposal of a message that is in the index, or stays. -/
theorem Pop3Methods.dispose_steady (hm : Pop3Methods m t) {f : Flags} {l : Loop}
    (hd : Disposable c count base num f d) :
    (dispose c m num (c.softbounceFlags f) l).wp (fun _ d' _ => Steady count base d'.statics) d := by
  obtain ⟨hs, hfound | ⟨hold, hflush⟩⟩ := hd
  · refine Act.wp_mono (dispose_frame (I := Found count base num) ?_ ?_ ⟨hs, hfound⟩)
      fun _ _ _ h => h.1.1
    · intro g hg d h
      obtain rfl := Option.some.inj (hm.deleteMsg.symm.trans hg)
      exact h.delete .error
    · intro g hg d h
      obtain rfl := Option.some.inj (hm.markSeen.symm.trans hg)
      exact h.marked (marked_markUidSeen d.statics num)
  · -- an old message is neither deleted nor marked
    have hcode : (c.softbounceFlags f).msgcode = .old := by
      unfold Ctl.softbounceFlags
      split <;> exact hold
    have hdelete : c.wantsDelete (c.softbounceFlags f) = false := by
      unfold Driver.Ctl.wantsDelete
      rw [hcode, hflush]
      exact Bool.and_false _
    have hseen : maybeMarkSeen c m num (c.softbounceFlags f) = pure .success := by
      unfold maybeMarkSeen
      split
      · rfl
      · unfold Driver.Ctl.wantsSeen
        rw [hcode]
        simp
    unfold dispose
    rw [hm.deleteMsg, hdelete, hseen]
    split
    · exact hs
    · exact hs

/-- The age of a message that is not missing. -/
theorem Pop3Methods.checkOld_steady (hm : Pop3Methods m t) (hc : SameSettings ctl c)
    (hcount : count < 2 ^ 31) (hnum : num ≤ count)
    (hslow : base.dofastuidl = true → ctl.fetchall = false ∧ ctl.flush = false)
    (hmiss : ¬ Missing ctl base num) (hs : Steady count base d.statics) :
    (checkOld c m num).wp (fun old d' _ =>
      (old = true → Disposable c count base num ⟨.old, false, false, false⟩ d') ∧
      (old = false → Found count base num d')) d := by
  -- with either setting every message is in the index, which stays as it is
  have hindexed : ctl.fetchall = true ∨ ctl.flush = true → ∀ {s}, Steady count base s →
      s.lookup num ≠ none := by
    intro hset s hs
    have hfast : base.dofastuidl = false := by
      rw [← Bool.not_eq_true]
      intro hfast
      obtain ⟨hfetchall, hflush⟩ := hslow hfast
      simp [hfetchall, hflush] at hset
    rw [hs.index (Or.inl hfast)]
    exact fun hnone => hmiss ⟨hnone, hset.imp_right Or.inl⟩
  unfold checkOld
  cases hfetchall : ctl.fetchall with
  | true =>
    rw [hc.fetchall, hfetchall, Bool.true_or, if_pos rfl, Act.wp_pure]
    exact ⟨fun h => absurd h Bool.false_ne_true, fun _ => ⟨hs, hindexed (Or.inl hfetchall) hs⟩⟩
  | false =>
    have hforce : c.forceRetrieval = false := by simp [Ctl.forceRetrieval, hc.errcount]
    have hjudged := hs.isOld hcount hnum ctl
    rw [hc.fetchall, hfetchall, hforce, hm.isOld]
    simp only [Bool.or_self, Bool.false_eq_true, if_false, Act.wp_bind, Act.wp_lift, Act.wp_emit,
      Act.wp_pure]
    refine ⟨fun _ => ⟨hjudged.steady, ?_⟩, fun hnew => ⟨hjudged.steady, hjudged.new hnew hmiss⟩⟩
    cases hflush : ctl.flush with
    | true => exact Or.inl (hindexed (Or.inr hflush) hjudged.steady)
    | false => exact Or.inr ⟨rfl, hc.flush.trans hflush⟩

/-- **Step.** One message that is not missing. -/
theorem Pop3Methods.fetchMessage_steady (hm : Pop3Methods m t) (hc : SameSettings ctl c)
    (hcount : count < 2 ^ 31) {maxfetch : Int} {l : Loop} (hnum : num ≤ count)
    (hslow : base.dofastuidl = true → ctl.fetchall = false ∧ ctl.flush = false)
    (hmiss : ¬ Missing ctl base num) (hs : Steady count base d.statics) :
    (Driver.fetchMessage c m t maxfetch count num l).wp
      (fun _ d' _ => Steady count base d'.statics) d := by
  have hrule : JudgeRule m t count num (Found count base num) (fun _ => Found count base num)
      (Disposable c count base num) (fun d => Steady count base d.statics) (fun _ => True) :=
    hm.judgeRule_found ctl hcount hnum
  -- a new message has been looked up, so it has a record from here on
  have hjudge : (judge c m t count num l).wp
      (JudgePost (Found count base num) (Disposable c count base num)
        (fun d => Steady count base d.statics) (fun _ => True)) d := by
    unfold judge
    rw [Act.wp_bind]
    refine Act.wp_mono (hm.checkOld_steady hc hcount hnum hslow hmiss hs) fun old d₁ tr₁ h₁ => ?_
    simp only [Act.wp_ite, Act.wp_pure, List.append_nil]
    refine ⟨fun hold => ⟨fun _ _ => trivial, h₁.1 hold⟩, fun hnew => ?_⟩
    have hfound := h₁.2 (Bool.eq_false_iff.mpr hnew)
    exact Act.wp_mono (hrule.judgeNew l hnum hfound) fun next d₂ tr₂ h₂ =>
      h₂.prepend fun _ _ => trivial
  unfold Driver.fetchMessage
  simp only [Act.wp_bind]
  refine Act.wp_mono hjudge fun next d₁ tr₁ h₁ => ?_
  cases next with
  | nextMessage l' => exact h₁.2.1
  | leave err l' => exact h₁.2
  | flagthemail f l' =>
    have hflag : (flagthemail c m maxfetch count num f l').wp
        (fun _ d' _ => Steady count base d'.statics) d₁ := flagthemail_rule (hm.dispose_steady h₁.2)
    refine Act.wp_mono hflag fun next d₂ tr₂ h₂ => ?_
    cases next <;> exact h₂

/-- **Run.** A pass in which no message is missing follows no null pointer. -/
theorem Pop3Methods.fetchMessages_steady (hm : Pop3Methods m t) (hc : SameSettings ctl c)
    (hbase : Prepared ctl count base) {maxfetch : Int} {l : Loop}
    (hmiss : ∀ n, 1 ≤ n → n ≤ count → ¬ Missing ctl base n) (hd : d.statics = base) :
    ((Driver.fetchMessages c m t maxfetch count l).run d).state.statics.nullDeref = false := by
  have hstart : Steady count base d.statics := by
    rw [hd]
    exact hbase.steady
  refine fetchFrom_rule
    (fun num (d : Dialogue Statics ω Command) _ => 1 ≤ num ∧ Steady count base d.statics)
    (fun (d : Dialogue Statics ω Command) _ => d.statics.nullDeref = false) [] (by omega) ?_ (fun _ _ h => h.2.null)
    ⟨Nat.le_refl 1, hstart⟩
  intro num l d tr hnum h
  have hnext : (Driver.fetchMessage c m t maxfetch count num l).wp
      (fun _ d' _ => Steady count base d'.statics) d :=
    hm.fetchMessage_steady hc hbase.small hnum hbase.fast (hmiss num h.1 hnum) h.2
  refine Act.wp_mono hnext fun next d' tr' hs => ?_
  cases next with
  | nextMessage l' => exact ⟨by omega, hs⟩
  | leave err l' => exact hs.null
  | flagthemail f l' => exact hs.null

/-! ## A pass that follows the null pointer -/

/-- What was followed once stays so: `pop3_is_old`. -/
theorem keeps_nullDeref_pop3IsOld (n : Nat) :
    Keeps (fun d => d.statics.nullDeref) (pop3IsOld n : Session ω Bool) := by
  have hask : Keeps (fun d => d.statics.nullDeref) (pop3Getuidl n : Session ω _) := fun d =>
    congrArg Statics.nullDeref (((keeps_command (.uidlMsg n)).bind fun _ => keeps_pure _) d)
  have hlazy : ∀ id, Keeps (fun d => d.statics.nullDeref)
      (state (Statics.lazyStep n id) : Session ω Bool) := by
    intro id d
    obtain ⟨-, db, p, hstore, -⟩ := d.statics.lazyStep_spec n id
    rw [exec_state]
    show (d.statics.lazyStep n id).2.nullDeref = _
    rw [hstore]
    rfl
  -- neither the full list nor the fast search follows a pointer that may be null
  refine (keeps_gets _).bind fun s => Keeps.ite (keeps_pure _) (Keeps.ite ?_ ?_)
  · refine (keeps_gets _).bind fun last => Keeps.ite (keeps_pure _) ?_
    have hfind : Keeps (fun d => d.statics.nullDeref)
        (state (Statics.findOldNum n) : Session ω _) := fun _ => rfl
    refine hfind.bind fun p => ?_
    cases p with
    | some p => exact (keeps_gets _).bind fun _ => keeps_pure _
    | none =>
      refine hask.bind fun r => ?_
      cases r with
      | error err => exact keeps_pure _
      | ok id => exact hlazy id
  · have hfind : Keeps (fun d => d.statics.nullDeref)
        (state (Statics.findNewNum n) : Session ω _) := fun _ => rfl
    refine hfind.bind fun p => ?_
    cases p with
    | some p => exact (keeps_gets _).bind fun _ => keeps_pure _
    | none => exact keeps_pure _

theorem Pop3Methods.invariant_nullDeref (hm : Pop3Methods m t) :
    Driver.Invariant m t fun d => d.statics.nullDeref = true where
  isOld := by
    intro f hf num d hd
    obtain rfl := Option.some.inj (hm.isOld.symm.trans hf)
    show (asMethod true (pop3IsOld num) d).2.statics.nullDeref = true
    rw [asMethod_snd]
    exact (keeps_nullDeref_pop3IsOld num d).trans hd
  getpartialsizes := fun f hf first last sizes d hd =>
    (congrArg Statics.nullDeref (hm.getpartialsizes f hf first last sizes d)).trans hd
  fetchHeaders := fun num d hd => (congrArg Statics.nullDeref (hm.fetchHeaders num d)).trans hd
  fetchBody := fun g hg => by
    rw [hm.fetchBody] at hg
    cases hg
  trail := fun g hg => by
    rw [hm.trail] at hg
    cases hg
  deleteMsg := by
    intro f hf num d hd
    obtain rfl := Option.some.inj (hm.deleteMsg.symm.trans hf)
    -- marking it seen comes first, and uses the pointer only if it is there
    have hseen := (marked_markUidSeen d.statics num).null.trans hd
    refine @pop3Delete_statics_rule _ _ d (fun s => s.nullDeref = true) Ps.error hseen ?_
    -- the mark is set through the pointer
    by_cases hfound : (d.statics.markUidSeen num).lookup num = none
    · exact nullDeref_markDeleted hfound
    · exact (marked_markDeleted hfound).null.trans hseen
  markSeen := by
    intro f hf num d hd
    obtain rfl := Option.some.inj (hm.markSeen.symm.trans hf)
    exact (marked_markUidSeen d.statics num).null.trans hd
  readheaders := fun len size num b d hd =>
    (congrArg Statics.nullDeref (hm.readheaders len size num b d)).trans hd
  readbody := fun forward len d hd =>
    (congrArg Statics.nullDeref (hm.readbody forward len d)).trans hd
  closeSink := fun forward d hd => (congrArg Statics.nullDeref (hm.closeSink forward d)).trans hd

/-- A fetch loop that finds the header of every new message. -/
def eagerMethod : Method (Dialogue Statics ω Command) :=
  { lazyMethod with fetchHeaders := fun _ d => ((.success, -1), d) }

theorem pop3Methods_eager :
    Pop3Methods (eagerMethod : Method (Dialogue Statics ω Command)) idleTransact :=
  { pop3Methods_lazy with fetchHeaders := fun _ _ => rfl }

/-- A pass that deletes what it fetched. -/
def eagerCtl (ctl : Ctl) : Driver.Ctl :=
  ⟨.pop3, false, ctl.flush, ctl.fetchall, 0, false, 0, 0, false, true⟩

/-- Its call of `pop3_delete`, in the slow mode or while no UID is known. -/
theorem Obeys.delete_steady (hd : Obeys d) (hs : Steady count base d.statics)
    (hbase : base.dofastuidl = false ∨ base.oldsaved.records = []) :
    ((asMethod .error (pop3Delete n) d).2.statics.nullDeref = true ∨
      Steady count base (asMethod .error (pop3Delete n) d).2.statics) ∧
    (base.lookup n = none → (asMethod .error (pop3Delete n) d).2.statics.nullDeref = true) := by
  have hanswers : ∀ s : Statics, Answers { d with statics := s } (.dele n) (Bytes.lit "+OK") [] :=
    fun s => ⟨hd.tagged, hd.lines, false, hd.answer _ _⟩
  have hok : (parseOk d.stage (Bytes.lit "+OK")).1 = .success := rfl
  have hstatics : (asMethod .error (pop3Delete n) d).2.statics =
      (d.statics.markUidSeen n).markDeleted n := by
    simp only [asMethod, pop3Delete, Talk.exec_bind, exec_assign, exec_command_line (hanswers _),
      hok, if_true, Talk.exec_pure]
  have hseen := marked_markUidSeen d.statics n
  have hlookup : (d.statics.markUidSeen n).lookup n = base.lookup n :=
    (hseen.lookup n).trans (hs.index hbase n)
  rw [hstatics]
  refine ⟨?_, fun hnone => nullDeref_markDeleted (hlookup.trans hnone)⟩
  by_cases hfound : (d.statics.markUidSeen n).lookup n = none
  · exact Or.inl (nullDeref_markDeleted hfound)
  · exact Or.inr (hs.marked (hseen.trans (marked_markDeleted hfound)))

/-- Its call of `pop3_is_old`. -/
theorem Obeys.isOld_steady (hd : Obeys d) (hs : Steady count base d.statics)
    (hbase : base.dofastuidl = false ∨ base.oldsaved.records = []) :
    Obeys (asMethod true (pop3IsOld n) d).2 ∧
      Steady count base (asMethod true (pop3IsOld n) d).2.statics ∧
      (base.oldsaved.records = [] → base.last < n → (asMethod true (pop3IsOld n) d).1 = false) := by
  by_cases hnone : d.statics.oldsaved.uidDbNRecords = 0
  · have hsame : asMethod true (pop3IsOld n) d = (decide ((n : Int) ≤ d.statics.last), d) := by
      simp only [asMethod, pop3IsOld, Talk.exec_bind, Talk.exec_gets, hnone, if_true,
        Talk.exec_pure]
    rw [hsame, hs.last]
    refine ⟨hd, hs, fun _ hlast => ?_⟩
    exact decide_eq_false (by omega)
  · have hknown : base.oldsaved.records ≠ [] := by
      intro hnil
      exact hnone (List.length_eq_zero_iff.mpr (hs.known.mpr hnil))
    have hslow : d.statics.dofastuidl = false := hs.fast.trans (hbase.resolve_right hknown)
    refine ⟨hd.isOld hslow n, ?_, fun hnil => absurd hnil hknown⟩
    rw [asMethod_pop3IsOld hslow]
    show Steady count base (if _ then _ else _)
    rw [if_neg hnone]
    exact hs.marked marked_findNewNum

/-- A message that is not old is fetched without a hitch. -/
theorem retrieve_eager (size : Int) (l : Loop) :
    (retrieve eagerMethod idleTransact num size l).wp
      (fun next d' _ => d' = d ∧ ∃ l', next = .flagthemail ⟨.unknown, false, false, false⟩ l') d := by
  simp [retrieve, eagerMethod, lazyMethod, idleTransact, headerFlags, retrieveBody, headerTrailer,
    processBody, requestBody, eatTrailer, finishMessage, Flags.afterBody]

/-- A message that is to be deleted is, and the pass goes on. -/
theorem flagthemail_eager {f : Flags} (l : Loop) (hf : (eagerCtl ctl).wantsDelete f = true)
    (hforward : f.suppressForward = false) (hretained : f.retained = false) (hd : Obeys d) :
    (flagthemail (eagerCtl ctl) eagerMethod 0 count num f l).wp
      (fun next d' _ => d' = (asMethod .error (pop3Delete num) d).2 ∧
        ∃ l', next = .nextMessage l') d := by
  have hdel := (hd.delete num).1
  have hsoft : (eagerCtl ctl).softbounceFlags f = f := by
    simp [Ctl.softbounceFlags, hforward]
  simp [flagthemail, dispose, hsoft, hretained, hf, eagerMethod, lazyMethod, hdel]

/-- A message that is old, and stays. -/
theorem flagthemail_eager_old (l : Loop) (hflush : ctl.flush = false) :
    (flagthemail (eagerCtl ctl) eagerMethod 0 count num ⟨.old, false, false, false⟩ l).wp
      (fun next d' _ => d' = d ∧ ∃ l', next = .nextMessage l') d := by
  simp [flagthemail, dispose, Ctl.softbounceFlags, Ctl.wantsDelete, eagerCtl, hflush,
    maybeMarkSeen, Ctl.wantsSeen, eagerMethod, lazyMethod]

/-- From the age of the message on: an old message is deleted with `flush`, any other one
after it was fetched. -/
theorem judged_eager (ctl : Ctl) (count num : Nat) (old : Bool) (l : Loop) (hd : Obeys d) :
    ((if old then pure (.flagthemail ⟨.old, false, false, false⟩ l)
      else retrieve eagerMethod idleTransact num (l.msgsize num) l) >>= fun next =>
        match next with
        | .flagthemail f l => flagthemail (eagerCtl ctl) eagerMethod 0 count num f l
        | next => pure next : Act (Dialogue Statics ω Command) Call Next).wp
      (fun next d' _ => (∃ l', next = .nextMessage l') ∧
        d' = if old = true ∧ ctl.flush = false then d
          else (asMethod .error (pop3Delete num) d).2) d := by
  cases old with
  | true =>
    simp only [if_true, Act.wp_bind, Act.wp_pure]
    cases hflush : ctl.flush with
    | true =>
      have hwants : (eagerCtl ctl).wantsDelete ⟨.old, false, false, false⟩ = true := by
        simp [Ctl.wantsDelete, eagerCtl, hflush]
      exact Act.wp_mono (flagthemail_eager l hwants rfl rfl hd) fun next d' tr h =>
        ⟨h.2, by simpa using h.1⟩
    | false =>
      exact Act.wp_mono (flagthemail_eager_old l hflush) fun next d' tr h =>
        ⟨h.2, by simpa using h.1⟩
  | false =>
    simp only [Bool.false_eq_true, if_false, Act.wp_bind]
    refine Act.wp_mono (retrieve_eager (l.msgsize num) l) fun next d' tr h => ?_
    obtain ⟨rfl, l', rfl⟩ := h
    have hwants : (eagerCtl ctl).wantsDelete ⟨.unknown, false, false, false⟩ = true := rfl
    exact Act.wp_mono (flagthemail_eager l' hwants rfl rfl hd) fun next d' tr h =>
      ⟨h.2, by simpa using h.1⟩

/-- **Step.** A message that is missing is deleted. -/
theorem fetchMessage_eager (ctl : Ctl) (num : Nat) (l : Loop) (hd : Obeys d) (hs : Steady count base d.statics)
    (hbase : base.dofastuidl = false ∨ base.oldsaved.records = []) :
    (Driver.fetchMessage (eagerCtl ctl) eagerMethod idleTransact 0 count num l).wp
      (fun next d' _ => (∃ l', next = .nextMessage l') ∧ Obeys d' ∧
        (d'.statics.nullDeref = true ∨ Steady count base d'.statics) ∧
        (Missing ctl base num → d'.statics.nullDeref = true)) d := by
  -- what the age comes to
  have hage : (checkOld (eagerCtl ctl) eagerMethod num).wp (fun old d' _ => Obeys d' ∧
      Steady count base d'.statics ∧
      (Missing ctl base num → old = true → ctl.flush = true)) d := by
    unfold checkOld
    cases hfetchall : ctl.fetchall with
    | true =>
      rw [show (eagerCtl ctl).fetchall = true from hfetchall, Bool.true_or, if_pos rfl, Act.wp_pure]
      exact ⟨hd, hs, fun _ h => absurd h Bool.false_ne_true⟩
    | false =>
      have hforce : (eagerCtl ctl).forceRetrieval = false := rfl
      obtain ⟨hobeys, hsteady, hnew⟩ := hd.isOld_steady (n := num) hs hbase
      rw [show (eagerCtl ctl).fetchall = false from hfetchall, hforce]
      simp only [Bool.or_self, Bool.false_eq_true, if_false, eagerMethod, lazyMethod, Act.wp_bind,
        Act.wp_lift, Act.wp_emit, Act.wp_pure]
      refine ⟨hobeys, hsteady, fun hmiss hold => ?_⟩
      rcases hmiss.2 with h | h | h
      · exact absurd (hfetchall.symm.trans h) Bool.false_ne_true
      · exact h
      · exact absurd ((hnew h.1 h.2).symm.trans hold) Bool.false_ne_true
  have hjudge : judge (eagerCtl ctl) eagerMethod idleTransact count num l = (do
      let old ← checkOld (eagerCtl ctl) eagerMethod num
      if old then pure (.flagthemail ⟨.old, false, false, false⟩ l)
      else retrieve eagerMethod idleTransact num (l.msgsize num) l :
        Act (Dialogue Statics ω Command) Call Next) := rfl
  unfold Driver.fetchMessage
  rw [hjudge]
  simp only [Act.wp_bind]
  refine Act.wp_mono hage fun old d₁ tr₁ h₁ => ?_
  obtain ⟨hobeys, hsteady, hflush⟩ := h₁
  have hjudged := judged_eager ctl count num old l hobeys
  rw [Act.wp_bind] at hjudged
  refine Act.wp_mono hjudged fun next d₂ tr₂ h₂ => ?_
  refine Act.wp_mono h₂ fun next d₃ tr₃ h₃ => ?_
  obtain ⟨hnext, rfl⟩ := h₃
  by_cases hstays : old = true ∧ ctl.flush = false
  · rw [if_pos hstays]
    refine ⟨hnext, hobeys, Or.inr hsteady, fun hmiss => ?_⟩
    exact absurd (hstays.2.symm.trans (hflush hmiss hstays.1)) Bool.false_ne_true
  · rw [if_neg hstays]
    obtain ⟨hkept, hnull⟩ := hobeys.delete_steady (n := num) hsteady hbase
    exact ⟨hnext, (hobeys.delete num).2, hkept, fun hmiss => hnull hmiss.1⟩

/-- **Run.** A missing message is reached, unless the null pointer was followed before. -/
theorem fetchMessages_eager (l : Loop) (hd : Obeys d) (hs : Steady count base d.statics)
    (hbase : base.dofastuidl = false ∨ base.oldsaved.records = []) (hn : 1 ≤ n) (hn' : n ≤ count)
    (hmiss : Missing ctl base n) :
    ((Driver.fetchMessages (eagerCtl ctl) eagerMethod idleTransact 0 count l).run
      d).state.statics.nullDeref = true := by
  refine fetchFrom_rule
    (fun num (d : Dialogue Statics ω Command) _ => d.statics.nullDeref = true ∨
      (Obeys d ∧ Steady count base d.statics ∧ num ≤ n))
    (fun (d : Dialogue Statics ω Command) _ => d.statics.nullDeref = true) [] (by omega) ?_ ?_
    (Or.inr ⟨hd, hs, hn⟩)
  · intro num l d tr hnum h
    -- once followed, the null pointer stays so
    rcases h with hnull | ⟨hd, hs, hle⟩
    · have hkept := fetchMessage_invariant (c := eagerCtl ctl)
        (pop3Methods_eager (ω := ω)).invariant_nullDeref 0 hnum l hnull
      refine Act.wp_mono hkept fun next d' tr' hnull => ?_
      cases next with
      | nextMessage l' => exact Or.inl hnull
      | leave err l' => exact hnull
      | flagthemail f l' => exact hnull
    -- until then each message is deleted or left, and the loop comes to the next one
    · have hstep := fetchMessage_eager ctl num l hd hs hbase
      refine Act.wp_mono hstep fun next d' tr' h => ?_
      obtain ⟨⟨l', rfl⟩, hd', hs', hreached⟩ := h
      rcases hs' with hnull | hs'
      · exact Or.inl hnull
      · rcases Nat.lt_or_ge num n with hlt | hge
        · exact Or.inr ⟨hd', hs', hlt⟩
        · obtain rfl : num = n := by omega
          exact Or.inl (hreached hmiss)
  · intro d tr h
    rcases h with hnull | ⟨-, -, hle⟩
    · exact hnull
    · omega

/-! ## Exactly when -/

/-- In no pass that begins with the variables `base` is the null pointer followed. -/
def DeletesRecorded (ω : Type) (ctl : Ctl) (count : Nat) (base : Statics) : Prop :=
  ∀ (c : Driver.Ctl) (m : Method (Dialogue Statics ω Command))
    (t : Transact (Dialogue Statics ω Command)) (maxfetch : Int) (l : Loop)
    (d : Dialogue Statics ω Command),
    SameSettings ctl c → Pop3Methods m t → d.statics = base →
    ((Driver.fetchMessages c m t maxfetch count l).run d).state.statics.nullDeref = false

/-- **Records are found exactly if no message is missing.** -/
theorem deletesRecorded_iff (hbase : Prepared ctl count base) (d : Dialogue Statics ω Command) :
    DeletesRecorded ω ctl count base ↔ ∀ n, 1 ≤ n → n ≤ count → ¬ Missing ctl base n := by
  constructor
  · intro hall n hn hn' hmiss
    -- the server obeys from now on
    obtain ⟨d', hd', hobeys⟩ : ∃ d' : Dialogue Statics ω Command, d'.statics = base ∧ Obeys d' :=
      ⟨{ d with statics := base, lines := [], tagged := false,
                answer := fun _ _ p => ([.line (Bytes.lit "+OK") false], p) },
        rfl, rfl, rfl, fun _ _ => rfl⟩
    have hsteady : Steady count base d'.statics := by
      rw [hd']
      exact hbase.steady
    have hknown : base.dofastuidl = false ∨ base.oldsaved.records = [] := by
      cases hfast : base.dofastuidl with
      | false => exact Or.inl rfl
      | true =>
        obtain ⟨hfetchall, hflush⟩ := hbase.fast hfast
        rcases hmiss.2 with h | h | h
        · exact absurd (hfetchall.symm.trans h) Bool.false_ne_true
        · exact absurd (hflush.symm.trans h) Bool.false_ne_true
        · exact Or.inr h.1
    have hnull := fetchMessages_eager ⟨0, 0, none, 0, 0, 0, 0, 0⟩ hobeys hsteady
      hknown hn hn' hmiss
    have hclean := hall (eagerCtl ctl) eagerMethod idleTransact 0 ⟨0, 0, none, 0, 0, 0, 0, 0⟩ d'
      ⟨rfl, rfl, rfl⟩ pop3Methods_eager hd'
    exact Bool.false_ne_true (hclean.symm.trans hnull)
  · intro hmiss c m t maxfetch l d hc hm hd
    exact hm.fetchMessages_steady hc hbase hmiss hd

end

end Fetchmail.Pop3
