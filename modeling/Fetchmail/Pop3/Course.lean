import Fetchmail.Pop3.Fastuidl

/-!
# The Course of `pop3_getrange`

For statements about any server, `pop3_getrange` is cut where the paths part: `course` talks
up to the reply to `UIDL`, and `finish` does the rest on the path taken. What a list does to
the variables is a function of the lines that wait to be read, whatever they are.
-/

namespace Fetchmail.Pop3

open Fetchmail.Lib Fetchmail.Transact Fetchmail.Uid

/-! ## Where the paths part -/

/-- How the messages are going to be counted. -/
inductive Course where
  /-- not by UIDs, or not at all -/
  | done (r : Range)
  | fast (count : Int)
  | list (count : Int)
  | slow (count : Int)
  deriving DecidableEq, Repr

section

variable {ω : Type}

/-- The talk of `do_uidl` that tells the path. -/
def courseUidl (count : Int) : Session ω Course := do
  if ← Talk.gets fun d => d.statics.dofastuidl then return .fast count
  else
    let (ok, _) ← command .uidl
    if ok = .success then return .list count else return .slow count

/-- The same for a mailbox with messages. -/
def courseNew (ctl : Ctl) (count : Int) : Session ω Course := do
  assign fun s =>
    { s with oldsaved := s.oldsaved.setUidDbNumPos0 count.toNat
             newsaved := s.newsaved.setUidDbNumPos0 count.toNat
             dofastuidl := ctl.wantsFast count }
  if ctl.uidl then courseUidl count
  else
    let (ok, buf) ← command .last
    if ok = .success then
      match scanLast buf with
      | none => return .done ⟨.error, count, -1⟩
      | some last =>
        assign fun s => { s with last := last }
        return .done ⟨.success, count, count - last⟩
    else courseUidl count

/-- The talk of `pop3_getrange` that tells the path. -/
def course (ctl : Ctl) : Session ω Course := do
  assign fun s => { s with newsaved := Db.initUidDb }
  let (ok, buf) ← command .stat
  if ok = .success then
    match scanStat buf with
    | none => return .done ⟨.protocol, 0, 0⟩
    | some count =>
      assign fun s => { s with last := 0 }
      if 0 < count && ctl.usesUids then courseNew ctl count
      else return .done ⟨.success, count, -1⟩
  else return .done ⟨ok, 0, 0⟩

/-- The rest of `pop3_getrange`. -/
def finish (ctl : Ctl) : Course → Session ω Range
  | .done r => return r
  | .fast count => do
    let (ok, newp) ← pop3Fastuidl count.toNat
    return ⟨ok, count, newp⟩
  | .list count => do
    let lines ← Talk.gets Dialogue.lines
    let (err, newp) ← uidlLines ctl.flush lines 0
    return ⟨err, count, newp⟩
  | .slow count => do
    match ← pop3Slowuidl ctl count with
    | .error _ => return ⟨.error, count, -1⟩
    | .ok newp => return ⟨.success, count, newp⟩

theorem doUidl_eq (ctl : Ctl) (count : Int) :
    (doUidl ctl count : Session ω Range) = courseUidl count >>= finish ctl := by
  ext d
  simp only [doUidl, courseUidl, Talk.exec_bind, Talk.exec_gets]
  cases d.statics.dofastuidl with
  | true => simp [finish]
  | false =>
    simp only [Bool.false_eq_true, if_false, Talk.exec_bind]
    cases hval : ((command .uidl : Session ω _).exec d).val with
    | error t => rfl
    | ok r =>
      obtain ⟨ok, buf⟩ := r
      by_cases hok : ok = .success
      · simp [hok, finish]
      · simp only [hok, if_false, Talk.exec_pure, finish, Talk.exec_bind, List.append_nil]
        rfl

theorem countNew_eq (ctl : Ctl) (count : Int) :
    (countNew ctl count : Session ω Range) = courseNew ctl count >>= finish ctl := by
  ext d
  simp only [countNew, courseNew, doUidl_eq, Talk.exec_bind, exec_assign]
  cases ctl.uidl with
  | true => simp
  | false =>
    simp only [Bool.false_eq_true, if_false, Talk.exec_bind]
    generalize { d with statics := _ } = d₁
    cases hval : ((command .last : Session ω _).exec d₁).val with
    | error t => rfl
    | ok r =>
      obtain ⟨ok, buf⟩ := r
      by_cases hok : ok = .success
      · cases hscan : scanLast buf with
        | none => simp [hok, hscan, finish]
        | some last => simp [hok, hscan, finish]
      · simp only [hok, if_false, Talk.exec_bind]
        generalize ((command .last : Session ω _).exec d₁) = o
        cases ((courseUidl count : Session ω Course).exec o.state).val with
        | error t => rfl
        | ok c => simp

/-- **`pop3_getrange` is its course and the rest.** -/
theorem pop3Getrange_eq (ctl : Ctl) :
    (pop3Getrange ctl : Session ω Range) = course ctl >>= finish ctl := by
  ext d
  simp only [pop3Getrange, course, countNew_eq, Talk.exec_bind, exec_assign]
  generalize { d with statics := _ } = d₁
  cases hval : ((command .stat : Session ω _).exec d₁).val with
  | error t => rfl
  | ok r =>
    obtain ⟨ok, buf⟩ := r
    by_cases hok : ok = .success
    · cases hscan : scanStat buf with
      | none => simp [hok, hscan, finish]
      | some count =>
        by_cases huses : (0 < count && ctl.usesUids) = true
        · simp only [hok, hscan, huses, if_true, Talk.exec_bind, exec_assign]
          generalize ((command .stat : Session ω _).exec d₁) = o
          cases ((courseNew ctl count : Session ω Course).exec
              { o.state with statics := { o.state.statics with last := 0 } }).val with
          | error t => rfl
          | ok c => simp
        · simp [hok, hscan, huses, finish]
    · simp [hok, finish]

/-! ## Any server -/

variable {P : Statics → Prop} {E : Dialogue Statics ω Command → Prop}

theorem triple_command (c : Command) :
    Talk.Triple (fun d => P d.statics) (command c : Session ω _) (fun _ d => P d.statics)
      (fun d => P d.statics) := Talk.Triple.of_keeps (keeps_command c)

theorem triple_assign {f : Statics → Statics} {Q : Statics → Prop} (h : ∀ s, P s → Q (f s)) :
    Talk.Triple (fun d => P d.statics) (assign f : Session ω Unit) (fun _ d => Q d.statics) E :=
  fun d hd => h d.statics hd

/-- The variables where the paths part, when they were `s₀` before. -/
inductive Reaches (ctl : Ctl) (s₀ : Statics) : Course → Statics → Prop
  /-- the mailbox could not be counted -/
  | failed {r : Range} {s : Statics} : r.err ≠ .success → Reaches ctl s₀ (.done r) s
  | unused {count : Int} : count < 2 ^ 31 → count ≤ 0 ∨ ctl.usesUids = false →
      Reaches ctl s₀ (.done ⟨.success, count, -1⟩) { s₀ with newsaved := Db.initUidDb, last := 0 }
  | last {count last : Int} : 0 < count → count < 2 ^ 31 → ctl.usesUids = true → ctl.uidl = false →
      Reaches ctl s₀ (.done ⟨.success, count, count - last⟩)
        { s₀.startCount count.toNat (ctl.wantsFast count) with last := last }
  | fast {count : Int} : 0 < count → count < 2 ^ 31 → ctl.wantsFast count = true →
      Reaches ctl s₀ (.fast count) (s₀.startCount count.toNat true)
  | list {count : Int} : 0 < count → count < 2 ^ 31 → ctl.wantsFast count = false →
      ctl.usesUids = true → Reaches ctl s₀ (.list count) (s₀.startCount count.toNat false)
  | slow {count : Int} : 0 < count → count < 2 ^ 31 → ctl.wantsFast count = false →
      ctl.usesUids = true → Reaches ctl s₀ (.slow count) (s₀.startCount count.toNat false)

theorem triple_courseUidl {ctl : Ctl} {s₀ : Statics} {count : Int} (hpos : 0 < count)
    (hlt : count < 2 ^ 31) (huses : ctl.usesUids = true) :
    Talk.Triple (fun d => d.statics = s₀.startCount count.toNat (ctl.wantsFast count))
      (courseUidl count : Session ω Course) (fun c d => Reaches ctl s₀ c d.statics)
      (fun _ => True) := by
  unfold courseUidl
  refine Talk.Triple.gets_bind fun fast => ?_
  cases fast with
  | true =>
    refine Talk.Triple.pure fun d hd => ?_
    have hfast : ctl.wantsFast count = true := by
      have h := hd.2
      rw [hd.1] at h
      exact h
    rw [hd.1, hfast]
    exact .fast hpos hlt hfast
  | false =>
    -- the server is asked for the full list
    have hcommand := triple_command (ω := ω) (P := fun s =>
      s = s₀.startCount count.toNat false ∧ ctl.wantsFast count = false) .uidl
    refine Talk.Triple.bind (hcommand.mono (fun d hd => ?_) (fun _ _ h => h) fun _ _ => trivial)
      fun r => ?_
    · have hfast : ctl.wantsFast count = false := by
        have h := hd.2
        rw [hd.1] at h
        exact h
      exact ⟨by rw [hd.1, hfast], hfast⟩
    -- where it refuses, each message is looked at for its id
    · refine Talk.Triple.ite (fun _ => ?_) fun _ => ?_
      · refine Talk.Triple.pure fun d hd => ?_
        rw [hd.1]
        exact .list hpos hlt hd.2 huses
      · refine Talk.Triple.pure fun d hd => ?_
        rw [hd.1]
        exact .slow hpos hlt hd.2 huses

theorem triple_courseNew {ctl : Ctl} {s₀ : Statics} {count : Int} (hpos : 0 < count)
    (hlt : count < 2 ^ 31) (huses : ctl.usesUids = true) :
    Talk.Triple (fun d => d.statics = { s₀ with newsaved := Db.initUidDb, last := 0 })
      (courseNew ctl count : Session ω Course) (fun c d => Reaches ctl s₀ c d.statics)
      (fun _ => True) := by
  unfold courseNew
  refine Talk.Triple.bind (triple_assign
    (P := fun s => s = { s₀ with newsaved := Db.initUidDb, last := 0 })
    (Q := fun s => s = s₀.startCount count.toNat (ctl.wantsFast count)) fun s hs => ?_) fun _ => ?_
  · rw [hs]
    rfl
  refine Talk.Triple.ite (fun _ => triple_courseUidl hpos hlt huses) fun huidl => ?_
  have hcommand := triple_command (ω := ω)
    (P := fun s => s = s₀.startCount count.toNat (ctl.wantsFast count)) .last
  refine Talk.Triple.bind (hcommand.mono (fun _ h => h) (fun _ _ h => h) fun _ _ => trivial)
    fun r => ?_
  refine Talk.Triple.ite (fun _ => ?_) fun _ => triple_courseUidl hpos hlt huses
  cases scanLast r.2 with
  | none => exact Talk.Triple.pure fun d hd => .failed (by simp)
  | some last =>
    refine Talk.Triple.bind (triple_assign
      (P := fun s => s = s₀.startCount count.toNat (ctl.wantsFast count))
      (Q := fun s => s = { s₀.startCount count.toNat (ctl.wantsFast count) with last := last })
      fun s hs => ?_) fun _ => Talk.Triple.pure fun d hd => ?_
    · rw [hs]
    · rw [hd]
      exact .last hpos hlt huses (by simpa using huidl)

/-- **Where the paths part**, any server may be. -/
theorem triple_course (ctl : Ctl) (s₀ : Statics) :
    Talk.Triple (fun d => d.statics = s₀) (course ctl : Session ω Course)
      (fun c d => Reaches ctl s₀ c d.statics) (fun _ => True) := by
  unfold course
  have hcommand := triple_command (ω := ω)
    (P := fun s => s = { s₀ with newsaved := Db.initUidDb }) .stat
  refine Talk.Triple.bind (triple_assign (P := fun s => s = s₀)
    (Q := fun s => s = { s₀ with newsaved := Db.initUidDb }) fun s hs => by rw [hs]) fun _ => ?_
  refine Talk.Triple.bind (hcommand.mono (fun _ h => h) (fun _ _ h => h) fun _ _ => trivial)
    fun r => ?_
  refine Talk.Triple.ite (fun _ => ?_) fun hno => Talk.Triple.pure fun d hd => .failed hno
  cases hscan : scanStat r.2 with
  | none => exact Talk.Triple.pure fun d hd => .failed (by simp)
  | some count =>
    refine Talk.Triple.bind (triple_assign (P := fun s => s = { s₀ with newsaved := Db.initUidDb })
      (Q := fun s => s = { s₀ with newsaved := Db.initUidDb, last := 0 }) fun s hs => by rw [hs])
      fun _ => ?_
    refine Talk.Triple.ite (fun huses => ?_) fun huses => Talk.Triple.pure fun d hd => ?_
    · rw [Bool.and_eq_true, decide_eq_true_eq] at huses
      exact triple_courseNew huses.1 (scanStat_lt hscan) huses.2
    · rw [hd]
      refine .unused (scanStat_lt hscan) ?_
      rw [Bool.and_eq_true, decide_eq_true_eq] at huses
      by_cases hpos : 0 < count
      · exact Or.inr (by simpa [hpos] using huses)
      · exact Or.inl (by omega)

/-- The paths of a `pop3_getrange` that succeeds: the talk up to where they part, what the
variables are there, and the rest. -/
theorem pop3Getrange_reaches {ctl : Ctl} {d : Dialogue Statics ω Command} {r : Range}
    (hval : ((pop3Getrange ctl : Session ω Range).exec d).val = .ok r) :
    ∃ c, ((course ctl : Session ω Course).exec d).val = .ok c ∧
      Reaches ctl d.statics c ((course ctl : Session ω Course).exec d).state.statics ∧
      ((finish ctl c : Session ω Range).exec
        ((course ctl : Session ω Course).exec d).state).val = .ok r ∧
      ((pop3Getrange ctl : Session ω Range).exec d).state.statics =
        ((finish ctl c : Session ω Range).exec
          ((course ctl : Session ω Course).exec d).state).state.statics := by
  have hcourse := triple_course ctl d.statics d rfl
  rw [pop3Getrange_eq, Talk.exec_bind] at hval ⊢
  cases hc : ((course ctl : Session ω Course).exec d).val with
  | error t =>
    rw [hc] at hval
    cases hval
  | ok c =>
    simp only [hc] at hcourse hval
    exact ⟨c, rfl, hcourse, hval, rfl⟩

/-- The old UIDs are known under their old places while a mailbox is counted. -/
theorem Statics.findUidById_startCount (s : Statics) (n : Nat) (fast : Bool) (id : Bytes) :
    (s.startCount n fast).oldsaved.findUidById id = s.oldsaved.findUidById id := rfl

theorem Statics.uidDbNRecords_startCount (s : Statics) (n : Nat) (fast : Bool) :
    (s.startCount n fast).oldsaved.uidDbNRecords = s.oldsaved.uidDbNRecords := rfl

/-! ## Any list -/

/-- The entries among the lines that are read after `UIDL`. -/
def entries : List Recv → List (Nat × Bytes)
  | .line text _ :: rest =>
    if dotLine text then []
    else
      match parseuid text with
      | some entry => entry :: entries rest
      | none => []
  | _ => []

/-- The variables after the lines, whether or not they are a proper list. -/
theorem statics_exec_uidlLines (flush : Bool) (lines : List Recv) (newp : Int)
    (d : Dialogue Statics ω Command) :
    ((uidlLines flush lines newp : Session ω _).exec d).state.statics =
      (d.statics.listAll flush (entries lines) newp).2 := by
  induction lines generalizing d newp with
  | nil => rfl
  | cons r rest ih =>
    cases r with
    | silence =>
      simp only [uidlLines, entries, Statics.listAll, accept, Talk.exec_bind, Talk.exec_modify,
        Talk.exec_gets, Talk.exec_ite]
      by_cases hidle : d.stage = .idle
      · simp [hidle]
      · simp [hidle]
    | line text late =>
      simp only [uidlLines, entries, Talk.exec_bind, exec_accept_line, Talk.exec_ite]
      by_cases hdot : dotLine text = true
      · simp [hdot, Statics.listAll]
      · cases hparse : parseuid text with
        | none => simp [hdot, Statics.listAll]
        | some entry =>
          obtain ⟨unum, id⟩ := entry
          simp only [hdot, Bool.false_eq_true, if_false, Talk.exec_bind, exec_state, Talk.exec_ite,
            Statics.listAll]
          split <;> simp [ih]

/-! ## Any messages -/

theorem keeps_topLines (lines : List Recv) (gotIt : Bool) (id : Bytes) :
    Keeps Dialogue.statics (topLines lines gotIt id : Session ω Bytes) := by
  induction lines generalizing gotIt id with
  | nil => exact keeps_pure _
  | cons r rest ih =>
    refine (keeps_accept (by intro d lines; rfl) r rest).bind fun read => ?_
    cases read with
    | error err => exact keeps_pure _
    | ok buf => exact Keeps.ite (keeps_pure _) (Keeps.ite (ih _ _) (ih _ _))

/-- Asking for a message id changes no variable. -/
theorem keeps_pop3Gettopid (num : Int) (id : Bytes) :
    Keeps Dialogue.statics (pop3Gettopid num id : Session ω (Except Ps Bytes)) := by
  refine (keeps_command _).bind fun r => Keeps.ite ?_ (keeps_pure _)
  exact (keeps_gets _).bind fun lines => (keeps_topLines lines false id).bind fun _ => keeps_pure _

theorem keeps_slowSearch (addIds : List Nat) (tryId : Int) (tryNr : Option Nat) (id : Bytes) :
    Keeps Dialogue.statics (slowSearch addIds tryId tryNr id : Session ω _) := by
  induction addIds generalizing tryId tryNr id with
  | nil => exact keeps_pure _
  | cons addId addIds ih =>
    refine Keeps.ite (ih _ _ _) ((keeps_pop3Gettopid _ _).bind fun r => ?_)
    cases r with
    | error ok => exact keeps_pure _
    | ok id => exact (keeps_gets _).bind fun _ => ih _ _ _

theorem keeps_estimate (count : Int) (firstNr nRecs : Nat) (id : Bytes) :
    Keeps Dialogue.statics (estimate count firstNr nRecs id : Session ω _) := by
  have hexpect : ∀ tryId, Keeps Dialogue.statics (expectLast count tryId id : Session ω _) := by
    intro tryId
    refine Keeps.ite ((keeps_pop3Gettopid _ _).bind fun r => ?_) (keeps_pure _)
    cases r with
    | error ok => exact keeps_pure _
    | ok id => exact (keeps_gets _).bind fun _ => keeps_pure _
  refine Keeps.ite (keeps_pure _) ((hexpect _).bind fun r => ?_)
  cases r with
  | error ok => exact keeps_pure _
  | ok r =>
    obtain ⟨tryId, tryNr, id⟩ := r
    cases tryNr with
    | some p => exact Keeps.ite (keeps_pure _) (keeps_pure _)
    | none =>
      refine (keeps_slowSearch _ _ _ _).bind fun r => ?_
      cases r with
      | error ok => exact keeps_pure _
      | ok r => exact keeps_pure _

/-- Message `num` has the message id `id`; the array held `old` before. -/
def TopId (num : Int) (old : Bytes) (d : Dialogue Statics ω Command) (id : Bytes) : Prop :=
  ((pop3Gettopid num old : Session ω _).exec d).val = .ok (.ok id)

/-- There is but one answer. -/
theorem TopId.unique {num : Int} {old id id' : Bytes} {d : Dialogue Statics ω Command}
    (h : TopId num old d id) (h' : TopId num old d id') : id = id' := by
  have heq := h.symm.trans h'
  cases heq
  rfl

/-- Each number is at least the sum of those that follow. -/
def Halves : List Nat → Prop
  | [] => True
  | addId :: rest => rest.sum ≤ addId ∧ Halves rest

theorem halves_dropWhile {l : List Nat} (h : Halves l) (p : Nat → Bool) : Halves (l.dropWhile p) := by
  induction l with
  | nil => exact h
  | cons addId rest ih =>
    rw [List.dropWhile_cons]
    split
    · exact ih h.2
    · exact h

theorem halves_addIds (tryId : Int) : Halves (addIds tryId) := by
  refine halves_dropWhile ?_ _
  simp only [List.range, List.range.loop, List.reverse_cons, List.reverse_nil, List.nil_append,
    List.cons_append, List.map_cons, List.map_nil, Halves, List.sum_cons, List.sum_nil]
  decide

/-- The number that the search ends with. -/
def searchResult (r : Int × Option Nat) : Int := if r.2 = none then r.1 - 1 else r.1

/-- The search goes down before it goes up, and never above where it began: by induction on
the steps that are left, with what they can add. -/
theorem slowSearch_le {steps : List Nat} (hsteps : Halves steps) {tryId : Int} {tryNr : Option Nat}
    {id : Bytes} {d : Dialogue Statics ω Command} {r : Int × Option Nat}
    (h : ((slowSearch steps tryId tryNr id : Session ω _).exec d).val = .ok (.ok r)) :
    searchResult r ≤ if tryNr = none then tryId else tryId + steps.sum := by
  induction steps generalizing tryId tryNr id d with
  | nil =>
    cases h
    unfold searchResult
    split
    · show tryId - 1 ≤ tryId
      omega
    · exact Int.le_add_of_nonneg_right (Int.natCast_nonneg _)
  | cons addId steps ih =>
    unfold slowSearch at h
    -- a step below the first message is skipped
    by_cases hskip : tryNr = none ∧ tryId - addId ≤ 1
    · rw [if_pos hskip] at h
      have hle := ih hsteps.2 h
      rw [if_pos hskip.1] at hle ⊢
      exact hle
    · rw [if_neg hskip, Talk.exec_bind] at h
      generalize ((pop3Gettopid (if tryNr = none then tryId - addId else tryId + addId) id :
        Session ω _).exec d) = o at h
      cases hval : o.val with
      | error t => simp [hval] at h
      | ok read =>
        cases read with
        | error ok => simp [hval] at h
        | ok id' =>
          simp only [hval, Talk.exec_bind, Talk.exec_gets] at h
          have hle := ih hsteps.2 h
          have hsum := hsteps.1
          rw [List.sum_cons]
          generalize steps.sum = total at hle hsum ⊢
          split at hle <;> split at hle <;> simp_all <;> omega

/-- The known messages are the last ones as far as `pop3_slowuidl` can tell: there is no more
than one, or the one that should be the last is known. -/
def LastKnown (firstNr nRecs : Nat) (id : Bytes) (d : Dialogue Statics ω Command) : Prop :=
  (nRecs : Int) - firstNr ≤ 1 ∨ ∀ id', TopId ((nRecs : Int) - firstNr) id d id' →
    d.statics.oldsaved.lastUidInDb id' ≠ none

/-- What the estimate is. -/
theorem estimate_spec {count : Int} {firstNr nRecs : Nat} {id : Bytes}
    {d : Dialogue Statics ω Command} {tryId : Int} {nolinear : Bool}
    (h : ((estimate count firstNr nRecs id : Session ω _).exec d).val = .ok (.ok (tryId, nolinear))) :
    (nolinear = false ∧ LastKnown firstNr nRecs id d) ∨
      (nolinear = true ∧ (count < (nRecs : Int) - firstNr ∨
        (¬ LastKnown firstNr nRecs id d ∧ tryId ≤ (nRecs : Int) - firstNr))) := by
  unfold estimate at h
  by_cases hone : (nRecs : Int) - firstNr ≤ 1
  · simp only [hone, if_true, Talk.exec_pure] at h
    cases h
    exact Or.inl ⟨rfl, Or.inl hone⟩
  simp only [hone, if_false, Talk.exec_bind] at h
  unfold expectLast at h
  -- the last UID is looked for where it should be
  by_cases hlast : (nRecs : Int) - firstNr ≤ count
  · simp only [hlast, if_true, Talk.exec_bind] at h
    have hkeeps := keeps_pop3Gettopid (ω := ω) ((nRecs : Int) - firstNr) id d
    cases hval : ((pop3Gettopid ((nRecs : Int) - firstNr) id : Session ω _).exec d).val with
    | error t => simp [hval] at h
    | ok read =>
      cases read with
      | error ok => simp [hval] at h
      | ok id' =>
        have htop : TopId ((nRecs : Int) - firstNr) id d id' := hval
        simp only [hval, Talk.exec_bind, Talk.exec_gets, hkeeps, Talk.exec_pure] at h
        cases hfind : d.statics.oldsaved.lastUidInDb id' with
        | some p =>
          simp only [hfind] at h
          -- the last record is where it was expected
          by_cases hp : p + 1 = nRecs
          · simp only [hp, if_true, Talk.exec_pure] at h
            cases h
            refine Or.inl ⟨rfl, Or.inr fun id'' htop' => ?_⟩
            rw [htop'.unique htop, hfind]
            exact Option.some_ne_none p
          · simp [hp] at h
        | none =>
          -- another message is there, and the search starts from it
          simp only [hfind, Talk.exec_bind] at h
          generalize ((pop3Gettopid ((nRecs : Int) - firstNr) id : Session ω _).exec d).state = d₁ at h
          cases hsearch : ((slowSearch (addIds ((nRecs : Int) - firstNr)) ((nRecs : Int) - firstNr) none
              id' : Session ω _).exec d₁).val with
          | error t => simp [hsearch] at h
          | ok r =>
            cases r with
            | error ok => simp [hsearch] at h
            | ok r =>
              simp only [hsearch, Talk.exec_pure] at h
              cases h
              refine Or.inr ⟨rfl, Or.inr ⟨?_, slowSearch_le (halves_addIds _) hsearch⟩⟩
              rintro (hle | hall)
              · exact hone hle
              · exact hall id' htop hfind
  · simp only [hlast, if_false, Talk.exec_pure] at h
    have hnolinear : nolinear = true := by
      simp only [Talk.exec_bind] at h
      generalize ((slowSearch (addIds (count + 1)) (count + 1) none id : Session ω _).exec d) = o at h
      cases hsearch : o.val with
      | error t => simp [hsearch] at h
      | ok r =>
        cases r with
        | error ok => simp [hsearch] at h
        | ok r =>
          simp only [hsearch, Talk.exec_pure] at h
          cases h
          rfl
    exact Or.inr ⟨hnolinear, Or.inl (by omega)⟩

/-- What `pop3_slowuidl` has done when it succeeds. -/
theorem pop3Slowuidl_spec {ctl : Ctl} {count newp : Int} {d : Dialogue Statics ω Command}
    (h : ((pop3Slowuidl ctl count : Session ω _).exec d).val = .ok (.ok newp)) :
    ∃ id, TopId 1 ctl.stackBytes d id ∧
      ((d.statics.oldsaved.findUidById id = none ∧
        ((pop3Slowuidl ctl count : Session ω _).exec d).state.statics = d.statics) ∨
      ∃ p tryId nolinear, d.statics.oldsaved.findUidById id = some p ∧
        ((pop3Slowuidl ctl count : Session ω _).exec d).state.statics =
          (d.statics.copyRecords p d.statics.oldsaved.uidDbNRecords).endSlow tryId nolinear ∧
        ((estimate count p d.statics.oldsaved.uidDbNRecords id : Session ω _).exec
          ((pop3Gettopid 1 ctl.stackBytes : Session ω _).exec d).state).val =
          .ok (.ok (tryId, nolinear))) := by
  have hkeeps := keeps_pop3Gettopid (ω := ω) 1 ctl.stackBytes d
  unfold pop3Slowuidl at h ⊢
  rw [Talk.exec_bind] at h ⊢
  cases hval : ((pop3Gettopid 1 ctl.stackBytes : Session ω _).exec d).val with
  | error t => simp [hval] at h
  | ok r =>
    cases r with
    | error ok => simp [hval] at h
    | ok id =>
      refine ⟨id, hval, ?_⟩
      simp only [hval, Talk.exec_bind, Talk.exec_gets, hkeeps] at h ⊢
      cases hfind : d.statics.oldsaved.findUidById id with
      -- the first message is new, and nothing is copied
      | none => exact Or.inl ⟨rfl, hkeeps⟩
      | some p =>
        right
        simp only [hfind, Talk.exec_bind, Talk.exec_gets, hkeeps] at h ⊢
        have hkeeps' := keeps_estimate (ω := ω) count p d.statics.oldsaved.uidDbNRecords id
          ((pop3Gettopid 1 ctl.stackBytes : Session ω _).exec d).state
        cases hval' : ((estimate count p d.statics.oldsaved.uidDbNRecords id : Session ω _).exec
            ((pop3Gettopid 1 ctl.stackBytes : Session ω _).exec d).state).val with
        | error t => simp [hval'] at h
        | ok r =>
          cases r with
          | error ok => simp [hval'] at h
          | ok r =>
            obtain ⟨tryId, nolinear⟩ := r
            refine ⟨p, tryId, nolinear, rfl, ?_, hval'⟩
            simp only [Talk.exec_bind, exec_assign, Talk.exec_pure, hkeeps', hkeeps]

end

end Fetchmail.Pop3
