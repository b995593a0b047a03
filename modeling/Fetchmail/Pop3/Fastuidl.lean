import Fetchmail.Pop3.Classification
import Fetchmail.Transact.Triple

/-!
# The Binary Search

`pop3_fastuidl`, and `pop3_is_old` after it, ask for single UIDs. Each answer is looked up in
the old database, where an unknown UID is entered as an unseen one. `Searched` says what any
number of such lookups leave: the same UIDs are old as before, and a number in the index
stands for the record of its message.
-/

namespace Fetchmail.Pop3

open Fetchmail.Lib Fetchmail.Transact Fetchmail.Uid

/-! ## One lookup -/

/-- The database took in unseen UIDs and revived others: the same UIDs are old. -/
structure Kept (db db' : Db) : Prop where
  old : ∀ id, db'.Old id ↔ db.Old id
  length : db.records.length ≤ db'.records.length
  seen : ∀ p < db.records.length, db'.status p ≠ .unseen ↔ db.status p ≠ .unseen
  found : ∀ id p, db.findUidById id = some p → db'.findUidById id = some p

theorem Kept.refl (db : Db) : Kept db db :=
  ⟨fun _ => Iff.rfl, Nat.le_refl _, fun _ _ => Iff.rfl, fun _ _ h => h⟩

theorem Kept.trans {db₁ db₂ db₃ : Db} (h : Kept db₁ db₂) (h' : Kept db₂ db₃) : Kept db₁ db₃ where
  old := fun id => (h'.old id).trans (h.old id)
  length := Nat.le_trans h.length h'.length
  seen := fun p hp => (h'.seen p (Nat.lt_of_lt_of_le hp h.length)).trans (h.seen p hp)
  found := fun id p hp => h'.found id p (h.found id p hp)

/-- The index does not matter. -/
theorem kept_of_records {db db' : Db} (h : db'.records = db.records) : Kept db db' where
  old := fun id => by simp only [Db.Old, Db.markOf_congr h]
  length := Nat.le_of_eq (by rw [h])
  seen := fun p _ => by simp only [Db.status, h]
  found := fun id p hp => (Db.findUidById_congr (by rw [h]) id).trans hp

theorem Statics.kept_revive {s : Statics} {id : Bytes} {p : Nat}
    (h : s.oldsaved.findUidById id = some p) : Kept s.oldsaved (s.revive p).oldsaved where
  old := by
    intro id'
    have hmark : (s.revive p).oldsaved.markOf id' =
        if id' = id ∧ s.oldsaved.Old id then some .seen else s.oldsaved.markOf id' :=
      markOf_revive h
    -- the mark of a UID that is old goes from one kind of old to the other
    by_cases hid : id' = id ∧ s.oldsaved.Old id
    · rw [if_pos hid] at hmark
      obtain ⟨rfl, hold⟩ := hid
      simp [Db.old_of_markOf hmark, hold]
    · rw [if_neg hid] at hmark
      simp only [Db.Old, hmark]
  length := by
    unfold revive
    split <;> simp
  seen := by
    intro q _
    unfold revive
    split
    · rename_i hdead
      have hlt := Db.findUidById_lt h
      simp only [Db.status_setStatus hlt]
      split
      · rename_i hqp
        subst hqp
        rcases hdead with hdead | hdead <;> simp [hdead]
      · exact Iff.rfl
    · exact Iff.rfl
  found := fun id' q hq => by rw [findUidById_revive, hq]

theorem Statics.kept_insertOld {s : Statics} {id : Bytes}
    (h : s.oldsaved.findUidById id = none) : Kept s.oldsaved (s.insertOld id).oldsaved where
  old := fun _ => Db.old_uidDbInsert_unseen h
  length := by simp [insertOld]
  seen := fun _ hp => by rw [insertOld, Db.status_uidDbInsert_of_lt hp]
  found := fun _ _ hq => Db.findUidById_uidDbInsert_of_some hq id

/-- What the lookup of the UID `id` of message `num` leaves; `r.1` tells whether it is old. -/
structure LookedUp (num : Nat) (id : Bytes) (s : Statics) (r : Bool × Statics) : Prop where
  answer : r.1 = true ↔ s.oldsaved.Old id
  store : ∃ db p, r.2 = { s with oldsaved := db }.setOldNum p num ∧ Kept s.oldsaved db ∧
    db.numNdx = s.oldsaved.numNdx ∧ p < db.records.length ∧
    (db.status p ≠ .unseen ↔ s.oldsaved.Old id) ∧ (id ≠ [] → db.findUidById id = some p)

/-- An unknown UID is entered. -/
theorem Statics.lookedUp_insertOld {s : Statics} {num : Nat} {id : Bytes}
    (h : s.oldsaved.findUidById id = none) :
    LookedUp num id s (false, (s.insertOld id).setOldNum s.oldsaved.uidDbNRecords num) where
  answer := by simp [Db.not_old_of_none h]
  store := by
    refine ⟨(s.insertOld id).oldsaved, s.oldsaved.uidDbNRecords, rfl, kept_insertOld h, rfl, ?_, ?_,
      fun hne => Db.findUidById_uidDbInsert_of_none hne h⟩
    · simp [insertOld, Db.uidDbNRecords]
    · simp [insertOld, Db.uidDbNRecords, Db.not_old_of_none h]

theorem Statics.fastStep_spec (num : Nat) (id : Bytes) (s : Statics) :
    LookedUp num id s (s.fastStep num id) := by
  unfold fastStep
  cases hfind : s.oldsaved.findUidById id with
  | none => exact lookedUp_insertOld hfind
  | some p =>
    have hstatus := status_revive hfind
    have hseen : (s.revive p).oldsaved.status p ≠ .unseen ↔ s.oldsaved.Old id := by
      rw [hstatus]
      split <;> simp [*]
    have hfound : (s.revive p).oldsaved.findUidById id = some p := by rw [findUidById_revive, hfind]
    refine ⟨by simpa using hseen, (s.revive p).oldsaved, p, ?_, kept_revive hfind, revive_rest.2,
      Db.findUidById_lt hfound, hseen, fun _ => hfound⟩
    rw [← revive_rest.1]

theorem Statics.lazyStep_spec (num : Nat) (id : Bytes) (s : Statics) :
    LookedUp num id s (s.lazyStep num id) := by
  unfold lazyStep
  cases hfind : s.oldsaved.findUidById id with
  | none => exact lookedUp_insertOld hfind
  | some p =>
    have hseen := (Db.old_of_find hfind).symm
    exact ⟨by simpa using hseen, s.oldsaved, p, rfl, Kept.refl _, rfl, Db.findUidById_lt hfind, hseen,
      fun _ => hfind⟩

/-! ## Any number of lookups -/

section

variable {count : Nat} {uidOf : Nat → Bytes} {s₀ s : Statics}

/-- The variables after some lookups, when they were `s₀` before. -/
structure Searched (count : Nat) (uidOf : Nat → Bytes) (s₀ s : Statics) : Prop where
  kept : Kept s₀.oldsaved s.oldsaved
  index : s₀.oldsaved.Unindexed count → s.oldsaved.Numbered count ∧ s.outOfBounds = s₀.outOfBounds ∧
    ∀ m, 1 ≤ m → m ≤ count → ∀ p, s.oldsaved.findUidByNum m = some p →
      p < s.oldsaved.records.length ∧
      (s.oldsaved.status p ≠ .unseen ↔ s₀.oldsaved.Old (uidOf m)) ∧
      (uidOf m ≠ [] → s.oldsaved.findUidById (uidOf m) = some p)
  rest : s = { s₀ with oldsaved := s.oldsaved, last := s.last, outOfBounds := s.outOfBounds }

/-- No lookup yet. -/
theorem searched_refl : Searched count uidOf s₀ s₀ where
  kept := Kept.refl _
  index := fun h₀ => ⟨h₀.toNumbered, rfl, fun m _ hm p hp => by simp [h₀.empty m hm] at hp⟩
  rest := rfl

/-- **Step.** One more lookup. -/
theorem Searched.step (h : Searched count uidOf s₀ s) (hcount : count < 2 ^ 31) {n : Nat}
    (hn : n ≤ count) {r : Bool × Statics} (hr : LookedUp n (uidOf n) s r) :
    Searched count uidOf s₀ r.2 ∧ (r.1 = true ↔ s₀.oldsaved.Old (uidOf n)) ∧
      r.2.oldsaved.records ≠ [] ∧
      (s₀.oldsaved.Unindexed count → r.2.oldsaved.findUidByNum n ≠ none) := by
  obtain ⟨hanswer, db, p, hstore, hkept, hndx, hlt, hseen, hfound⟩ := hr
  have hnumbered : s.oldsaved.Numbered count → db.Numbered count := fun h => h.of_numNdx hndx
  have hknown : r.2.oldsaved.records ≠ [] := by
    rw [hstore]
    exact List.ne_nil_of_length_pos (by show 0 < db.records.length; omega)
  refine ⟨⟨?_, fun h₀ => ?_, ?_⟩, hanswer.trans (h.kept.old _), hknown, fun h₀ => ?_⟩
  · rw [hstore]
    exact h.kept.trans (hkept.trans (kept_of_records rfl))
  · obtain ⟨hnum, hbounds, hindex⟩ := h.index h₀
    have hset : ({ s with oldsaved := db } : Statics).oldsaved.setInBounds n = true :=
      Db.setInBounds_of_le (hnumbered hnum) (Db.lt_uintMax hcount) hn
    rw [hstore]
    refine ⟨(hnumbered hnum).setUidDbNum (Db.lt_uintMax hcount) hn, ?_, fun m hm₁ hm q hq => ?_⟩
    · simp only [Statics.setOldNum, hset, Bool.not_true, Bool.or_false, hbounds]
    · have hq' : (db.setUidDbNum p n).findUidByNum m = some q := hq
      rw [Db.findUidByNum_setUidDbNum (hnumbered hnum) (Db.lt_uintMax hcount) hn hm,
        Db.findUidByNum_congr hndx] at hq'
      -- the number just looked up is at the new place, all others stay where they were
      by_cases hmn : m = n
      · subst hmn
        rw [if_pos rfl] at hq'
        cases hq'
        exact ⟨hlt, hseen.trans (h.kept.old _), hfound⟩
      · rw [if_neg hmn] at hq'
        obtain ⟨hqlt, hqseen, hqfound⟩ := hindex m hm₁ hm q hq'
        exact ⟨Nat.lt_of_lt_of_le hqlt hkept.length, (hkept.seen q hqlt).trans hqseen,
          fun hne => hkept.found _ q (hqfound hne)⟩
  · rw [hstore, h.rest]
    rfl
  · rw [hstore]
    show (db.setUidDbNum p n).findUidByNum n ≠ none
    rw [Db.findUidByNum_setUidDbNum (hnumbered (h.index h₀).1) (Db.lt_uintMax hcount) hn hn,
      if_pos rfl]
    exact Option.some_ne_none p

/-! ## A server that tells the truth -/

variable {ω : Type} {total : Prop} {d : Dialogue Statics ω Command}

/-- The server gives no UID but `uidOf n` for message `n`, of which there are `count`; if
`total` holds, it always gives it. -/
structure Honest (total : Prop) (count : Nat) (uidOf : Nat → Bytes)
    (d : Dialogue Statics ω Command) : Prop where
  tagged : d.tagged = false
  lines : d.lines = []
  uidlMsg : ∀ n, 1 ≤ n → n ≤ count → ∀ p,
    (∃ text late, (d.answer [] (.uidlMsg n) p).1 = [.line text late] ∧
      checkUidl n (parseOk d.stage text) = .ok (uidOf n)) ∨
    (¬ total ∧ ((d.answer [] (.uidlMsg n) p).1 = [] ∨
      (d.answer [] (.uidlMsg n) p).1 = [.silence] ∨
      ∃ text late err, (d.answer [] (.uidlMsg n) p).1 = [.line text late] ∧
        checkUidl n (parseOk d.stage text) = .error err))

/-- The variables and the state of the server do not matter. -/
theorem Honest.next (h : Honest total count uidOf d) (s : Statics) (p : ω) :
    Honest total count uidOf { d with statics := s, peer := p } :=
  ⟨h.tagged, h.lines, h.uidlMsg⟩

/-- A server that always tells the truth never tells anything else. -/
theorem Honest.weaken (h : Honest True count uidOf d) : Honest total count uidOf d :=
  ⟨h.tagged, h.lines, fun n hn hn' p => Or.inl ((h.uidlMsg n hn hn' p).resolve_right (by simp))⟩

/-- The server is honest, and the variables have the property `P`. -/
def While (total : Prop) (count : Nat) (uidOf : Nat → Bytes) (P : Statics → Prop)
    (d : Dialogue Statics ω Command) : Prop := Honest total count uidOf d ∧ P d.statics

variable {P : Statics → Prop} {n : Nat}

/-- A command that brings nothing. -/
theorem exec_command_none {c : Command} (htagged : d.tagged = false) (hlines : d.lines = [])
    (hanswer : (d.answer [] c d.peer).1 = []) :
    (command c : Session ω _).exec d =
      ⟨.ok (.socket, []), { d with peer := (d.answer [] c d.peer).2 }, [.sent d.tls [] c]⟩ := by
  have htags : d.tags = false := by simp [Dialogue.tags, htagged]
  simp only [command, genSend, pop3Ok, genRecv, sockWrite, Talk.exec_bind, Talk.exec_gets, htags,
    Bool.false_eq_true, if_false, Talk.exec_emit, Talk.exec_modify, Dialogue.deliver, hlines,
    List.nil_append, hanswer, Talk.exec_pure, List.append_nil]

/-- A command that waits until the alarm goes off. -/
theorem exec_command_silence {c : Command} (htagged : d.tagged = false) (hlines : d.lines = [])
    (hanswer : (d.answer [] c d.peer).1 = [.silence]) :
    ∃ r, (command c : Session ω _).exec d =
      ⟨r, { d with peer := (d.answer [] c d.peer).2 }, [.sent d.tls [] c]⟩ ∧
      ∀ response, r = .ok response → response.1 = .idletimeout := by
  have htags : d.tags = false := by simp [Dialogue.tags, htagged]
  by_cases hidle : d.stage = .idle
  · refine ⟨.ok (.idletimeout, []), ?_, ?_⟩
    · simp only [command, genSend, pop3Ok, genRecv, sockWrite, accept, Talk.exec_bind, Talk.exec_gets,
        htags, Bool.false_eq_true, if_false, Talk.exec_emit, Talk.exec_modify, Dialogue.deliver,
        hlines, List.nil_append, hanswer, hidle, if_true, Talk.exec_pure, List.append_nil]
    · rintro response ⟨⟩
      rfl
  · refine ⟨.error .timeout, ?_, ?_⟩
    · simp only [command, genSend, pop3Ok, genRecv, sockWrite, accept, Talk.exec_bind, Talk.exec_gets,
        htags, Bool.false_eq_true, if_false, Talk.exec_emit, Talk.exec_modify, Dialogue.deliver,
        hlines, List.nil_append, hanswer, hidle, Talk.exec_throw, List.append_nil]
    · rintro response ⟨⟩

/-- What is no UID is an error. -/
theorem ne_success_of_checkUidl {response : Ps × Bytes} {err : Ps}
    (h : checkUidl n response = .error err) : err ≠ .success := by
  unfold checkUidl at h
  split at h
  · split at h
    · cases h
      decide
    · split at h
      · cases h
      · cases h
        decide
  · rename_i hno
    cases h
    exact hno

/-- **One question**: the truth, or no UID. -/
theorem triple_pop3Getuidl (hn : 1 ≤ n) (hn' : n ≤ count) :
    Talk.Triple (While total count uidOf P) (pop3Getuidl n : Session ω _)
      (fun r d => While total count uidOf P d ∧
        (r = .ok (uidOf n) ∨ (¬ total ∧ ∃ err, r = .error err ∧ err ≠ .success)))
      (fun d => ¬ total ∧ While total count uidOf P d) := by
  rintro d ⟨hhonest, hP⟩
  have hnext : While total count uidOf P { d with peer := (d.answer [] (.uidlMsg n) d.peer).2 } :=
    ⟨hhonest.next d.statics _, hP⟩
  unfold pop3Getuidl
  -- the truth, or for a server that may fail: nothing, a silence, or a line that is no answer
  rcases hhonest.uidlMsg n hn hn' d.peer with ⟨text, late, hanswer, hcheck⟩ |
    ⟨hno, hanswer | hanswer | ⟨text, late, err, hanswer, hcheck⟩⟩
  · have hanswers : Answers d (.uidlMsg n) text [] := ⟨hhonest.tagged, hhonest.lines, late, hanswer⟩
    simp only [Talk.exec_bind, exec_command_line hanswers, Talk.exec_pure, hcheck]
    exact ⟨hnext, Or.inl trivial⟩
  · simp only [Talk.exec_bind, exec_command_none hhonest.tagged hhonest.lines hanswer,
      Talk.exec_pure]
    exact ⟨hnext, Or.inr ⟨hno, .socket, rfl, by decide⟩⟩
  · obtain ⟨r, hexec, hidle⟩ := exec_command_silence hhonest.tagged hhonest.lines hanswer
    simp only [Talk.exec_bind, hexec]
    cases r with
    | error t => exact ⟨hno, hnext⟩
    | ok response =>
      have hresponse := hidle response rfl
      simp only [Talk.exec_pure]
      exact ⟨hnext, Or.inr ⟨hno, .idletimeout, by simp [checkUidl, hresponse], by decide⟩⟩
  · have hanswers : Answers d (.uidlMsg n) text [] := ⟨hhonest.tagged, hhonest.lines, late, hanswer⟩
    simp only [Talk.exec_bind, exec_command_line hanswers, Talk.exec_pure, hcheck]
    exact ⟨hnext, Or.inr ⟨hno, err, rfl, ne_success_of_checkUidl hcheck⟩⟩

/-- The variables are read and updated. -/
theorem triple_state {α : Type} {f : Statics → α × Statics} {Q : α → Statics → Prop}
    {E : Dialogue Statics ω Command → Prop} (h : ∀ s, P s → Q (f s).1 (f s).2) :
    Talk.Triple (While total count uidOf P) (state f : Session ω α)
      (fun a => While total count uidOf (Q a)) E := by
  rintro d ⟨hhonest, hP⟩
  rw [exec_state]
  exact ⟨hhonest.next _ _, h _ hP⟩

/-- A UID is looked up. -/
theorem triple_lookUp (hcount : count < 2 ^ 31) (hn : n ≤ count)
    {f : Statics → Bool × Statics} (hf : ∀ s, LookedUp n (uidOf n) s (f s))
    {E : Dialogue Statics ω Command → Prop} :
    Talk.Triple (While total count uidOf (Searched count uidOf s₀)) (state f : Session ω Bool)
      (fun old => While total count uidOf fun s => Searched count uidOf s₀ s ∧
        (old = true ↔ s₀.oldsaved.Old (uidOf n)) ∧ s.oldsaved.records ≠ [] ∧
        (s₀.oldsaved.Unindexed count → s.oldsaved.findUidByNum n ≠ none)) E :=
  triple_state fun s hs => hs.step hcount hn (hf s)

/-- What the bounds of the search stand for. -/
structure Bounds (old : Bytes → Prop) (uidOf : Nat → Bytes) (count firstNr lastNr : Nat) : Prop where
  lt : firstNr < lastNr
  le : lastNr ≤ count + 1
  first : firstNr = 0 ∨ old (uidOf firstNr)
  last : lastNr = count + 1 ∨ ¬ old (uidOf lastNr)

/-- What the search knows of the variables between two rounds. -/
def Narrowed (count : Nat) (uidOf : Nat → Bytes) (s₀ : Statics) (firstNr lastNr : Nat)
    (s : Statics) : Prop :=
  Searched count uidOf s₀ s ∧ (lastNr - firstNr ≤ count → s.oldsaved.records ≠ [])

/-- **Loop.** By induction on the rounds; the bounds close in on a boundary. -/
theorem triple_fastLoop (hcount : count < 2 ^ 31) {fuel firstNr lastNr : Nat}
    (hfuel : lastNr - firstNr ≤ fuel)
    (hbounds : Bounds s₀.oldsaved.Old uidOf count firstNr lastNr) :
    Talk.Triple (While total count uidOf (Narrowed count uidOf s₀ firstNr lastNr))
      (fastLoop fuel firstNr lastNr : Session ω _)
      (fun r d => While total count uidOf (Searched count uidOf s₀) d ∧
        ((∃ first, r = .ok (first, first + 1) ∧ (0 < count → d.statics.oldsaved.records ≠ []) ∧
          Bounds s₀.oldsaved.Old uidOf count first (first + 1)) ∨
        (¬ total ∧ ∃ err, r = .error err ∧ err ≠ .success)))
      (fun d => ¬ total ∧ While total count uidOf (Searched count uidOf s₀) d) := by
  induction fuel generalizing firstNr lastNr with
  | zero =>
    have hlt := hbounds.lt
    omega
  | succ fuel ih =>
    have hlt := hbounds.lt
    have hle := hbounds.le
    unfold fastLoop
    -- the round asks for the middle, and keeps the half in which the age changes
    refine Talk.Triple.ite (fun hround => ?_) fun hend => ?_
    · have hask : Talk.Triple (While total count uidOf (Searched count uidOf s₀))
          (pop3Getuidl ((firstNr + lastNr) / 2) : Session ω _) _ _ :=
        triple_pop3Getuidl (show 1 ≤ (firstNr + lastNr) / 2 by omega)
          (show (firstNr + lastNr) / 2 ≤ count by omega)
      refine Talk.Triple.bind (hask.mono (fun d hd => ⟨hd.1, hd.2.1⟩) (fun _ _ h => h) fun _ h => h)
        fun r => ?_
      cases r with
      | error err => exact Talk.Triple.pure fun d hd => ⟨hd.1, Or.inr (by simpa using hd.2)⟩
      | ok id =>
        have htry : (firstNr + lastNr) / 2 ≤ count := by omega
        by_cases hid : id = uidOf ((firstNr + lastNr) / 2)
        · subst hid
          refine Talk.Triple.bind (Talk.Triple.mono (triple_lookUp hcount htry
            (Statics.fastStep_spec _ _)) (fun d hd => hd.1) (fun _ _ h => h) fun _ h => h)
            fun old => ?_
          by_cases hold : s₀.oldsaved.Old (uidOf ((firstNr + lastNr) / 2))
          · have hbounds' : Bounds s₀.oldsaved.Old uidOf count ((firstNr + lastNr) / 2) lastNr :=
              ⟨by omega, hle, Or.inr hold, hbounds.last⟩
            rintro d ⟨hhonest, hs, hanswer, hknown, -⟩
            rw [if_pos (hanswer.mpr hold)]
            exact ih (by omega) hbounds' d ⟨hhonest, hs, fun _ => hknown⟩
          · have hbounds' : Bounds s₀.oldsaved.Old uidOf count firstNr ((firstNr + lastNr) / 2) :=
              ⟨by omega, by omega, hbounds.first, Or.inr hold⟩
            rintro d ⟨hhonest, hs, hanswer, hknown, -⟩
            rw [if_neg (mt hanswer.mp hold)]
            exact ih (by omega) hbounds' d ⟨hhonest, hs, fun _ => hknown⟩
        · exact fun d hd => absurd (by simpa using hd.2) hid
    · obtain rfl : lastNr = firstNr + 1 := by omega
      exact Talk.Triple.pure fun d hd =>
        ⟨⟨hd.1, hd.2.1⟩, Or.inl ⟨firstNr, rfl, fun hpos => hd.2.2 (by omega), hbounds⟩⟩

/-- **`pop3_fastuidl`**, successful or not. -/
theorem triple_pop3Fastuidl (hcount : count < 2 ^ 31) :
    Talk.Triple (While total count uidOf (Searched count uidOf s₀))
      (pop3Fastuidl count : Session ω _)
      (fun r d => While total count uidOf (Searched count uidOf s₀) d ∧
        ((∃ first : Nat, r = (.success, (count : Int) - first) ∧ d.statics.last = first ∧
          (0 < count → d.statics.oldsaved.records ≠ []) ∧
          Bounds s₀.oldsaved.Old uidOf count first (first + 1)) ∨
        (¬ total ∧ r.1 ≠ .success)))
      (fun d => ¬ total ∧ While total count uidOf (Searched count uidOf s₀) d) := by
  -- the bounds close in on the boundary, starting with all messages
  have hloop : Talk.Triple (While total count uidOf _)
      (fastLoop (count + 1 - 0) 0 (count + 1) : Session ω _) _ _ :=
    triple_fastLoop hcount (Nat.le_refl (count + 1 - 0))
      (⟨by omega, Nat.le_refl _, Or.inl rfl, Or.inl rfl⟩ : Bounds s₀.oldsaved.Old uidOf count 0 _)
  unfold pop3Fastuidl
  refine Talk.Triple.bind (hloop.mono (fun d hd => ⟨hd.1, hd.2, fun h => ?_⟩) (fun _ _ h => h)
    fun _ h => h) fun r => ?_
  · omega
  cases r with
  | error err =>
    refine Talk.Triple.pure fun d hd => ⟨hd.1, Or.inr ?_⟩
    simpa using hd.2
  | ok bounds =>
    obtain ⟨firstNr, lastNr⟩ := bounds
    rintro d ⟨⟨hhonest, hs⟩, hend⟩
    -- the bounds have met: messages up to `first` are old
    obtain ⟨first, hr, hknown, hbounds⟩ := hend.resolve_right (by simp)
    cases hr
    simp only [Talk.exec_bind, exec_assign, Talk.exec_pure]
    refine ⟨⟨hhonest.next _ _, hs.kept, hs.index, ?_⟩, Or.inl ⟨_, rfl, rfl, hknown, hbounds⟩⟩
    rw [hs.rest]

/-! ## `pop3_is_old` after the search -/

/-- The variables after a search that ended at `first`, and some calls. -/
structure Bounded (count : Nat) (uidOf : Nat → Bytes) (s₀ : Statics) (first : Nat) (s : Statics) :
    Prop where
  searched : Searched count uidOf s₀ s
  last : s.last = first
  known : s.oldsaved.records ≠ []
  fast : s₀.dofastuidl = true

/-- The index is read within its bounds. -/
theorem Searched.findOldNum (h : Searched count uidOf s₀ s) (h₀ : s₀.oldsaved.Unindexed count)
    (hcount : count < 2 ^ 31) (hn : n ≤ count) :
    s.findOldNum n = (s.oldsaved.findUidByNum n, s) := by
  have hin := Db.findInBounds_of_le (h.index h₀).1 (Db.lt_uintMax hcount) hn
  simp [Statics.findOldNum, hin]

/-- The answer for message `n` is right, or the server gave none. -/
def RightAnswer (total : Prop) (old : Bytes → Prop) (uidOf : Nat → Bytes) (first n : Nat)
    (b : Bool) : Prop :=
  (n ≤ first → b = true) ∧ (first < n → (b = true ↔ old (uidOf n)) ∨ (¬ total ∧ b = true))

/-- **`pop3_is_old`** in the fast mode. -/
theorem triple_pop3IsOld_fast (hcount : count < 2 ^ 31) (h₀ : s₀.oldsaved.Unindexed count)
    (hn : 1 ≤ n) (hn' : n ≤ count) {first : Nat} :
    Talk.Triple (While total count uidOf (Bounded count uidOf s₀ first))
      (pop3IsOld n : Session ω Bool)
      (fun b d => While total count uidOf (Bounded count uidOf s₀ first) d ∧
        RightAnswer total s₀.oldsaved.Old uidOf first n b ∧
        (b = false → d.statics.oldsaved.findUidByNum n ≠ none))
      (fun d => ¬ total ∧ While total count uidOf (Bounded count uidOf s₀ first) d) := by
  rintro d ⟨hhonest, hb⟩
  have hs := hb.searched
  have hknown : d.statics.oldsaved.uidDbNRecords ≠ 0 := by
    simpa [Db.uidDbNRecords] using hb.known
  have hfast : d.statics.dofastuidl = true := by
    rw [hs.rest]
    exact hb.fast
  simp only [pop3IsOld, isOldFast, Talk.exec_bind, Talk.exec_gets, hknown, hfast, if_true, if_false,
    hb.last, Int.ofNat_le, Talk.exec_ite]
  -- below the boundary there is no lookup
  by_cases hle : n ≤ first
  · simp only [hle, if_true, Talk.exec_pure]
    exact ⟨⟨hhonest, hb⟩, ⟨fun _ => rfl, fun h => by omega⟩, by simp⟩
  simp only [hle, if_false, exec_state, hs.findOldNum h₀ hcount hn']
  cases hfind : d.statics.oldsaved.findUidByNum n with
  | some p =>
    have hanswer := ((hs.index h₀).2.2 n hn hn' p hfind).2.1
    simp only [Talk.exec_bind, Talk.exec_gets, Talk.exec_pure]
    refine ⟨⟨hhonest, hb⟩, ⟨fun h => absurd h hle, fun _ => Or.inl ?_⟩, by simp [hfind]⟩
    simpa using hanswer
  | none =>
    -- a message that the search has not met
    have hask : Talk.Triple (While total count uidOf (Bounded count uidOf s₀ first))
        (askUid n : Session ω Bool)
        (fun b d => While total count uidOf (Bounded count uidOf s₀ first) d ∧
          RightAnswer total s₀.oldsaved.Old uidOf first n b ∧
          (b = false → d.statics.oldsaved.findUidByNum n ≠ none))
        (fun d => ¬ total ∧ While total count uidOf (Bounded count uidOf s₀ first) d) := by
      refine Talk.Triple.bind (triple_pop3Getuidl hn hn') fun r => ?_
      cases r with
      | error err =>
        refine Talk.Triple.pure fun d hd => ⟨hd.1, ⟨fun _ => rfl, fun _ => Or.inr ⟨?_, rfl⟩⟩, by simp⟩
        exact (hd.2.resolve_left (by simp)).1
      | ok id =>
        -- an honest server gives no other UID
        by_cases hid : id = uidOf n
        · subst hid
          rintro d ⟨⟨hhonest, hb⟩, -⟩
          have hstep := hb.searched.step hcount hn' (Statics.lazyStep_spec n (uidOf n) d.statics)
          obtain ⟨hsearched, hanswer, hne, hindex⟩ := hstep
          have hlast : (d.statics.lazyStep n (uidOf n)).2.last = d.statics.last := by
            unfold Statics.lazyStep
            split <;> rfl
          rw [exec_state]
          exact ⟨⟨hhonest.next _ _, hsearched, hlast.trans hb.last, hne, hb.fast⟩,
            ⟨fun h => absurd h hle, fun _ => Or.inl hanswer⟩, fun _ => hindex h₀⟩
        · exact fun d hd => absurd (by simpa using hd.2) hid
    exact hask d ⟨hhonest, hb⟩

end

end Fetchmail.Pop3
