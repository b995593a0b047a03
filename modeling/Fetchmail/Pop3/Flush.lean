import Fetchmail.Driver.OldCalls
import Fetchmail.Pop3.Classification

/-!
# Flushing Old Messages

With `flush`, the fetch loop deletes the messages that `pop3_is_old` calls old. After a full
list these are the listed messages with a known UID, and all messages that the server left
out of its list: `pop3_is_old` takes a message without a record for an old one.
-/

namespace Fetchmail.Pop3

open Fetchmail.Lib Fetchmail.Transact Fetchmail.Uid Fetchmail.Driver

section

variable {ω : Type}

/-! ## POP3 in the fetch loop -/

/-- A method as the fetch loop sees it. A jump to `do_session` leaves the loop, as the result
`left` does. -/
def asMethod {α : Type} (left : α) (x : Session ω α) (d : Dialogue Statics ω Command) :
    α × Dialogue Statics ω Command :=
  match (x.exec d).val with
  | .ok a => (a, (x.exec d).state)
  | .error _ => (left, (x.exec d).state)

/-- Either way the connection is the one that `x` leaves. -/
theorem asMethod_snd {α : Type} (left : α) (x : Session ω α) (d : Dialogue Statics ω Command) :
    (asMethod left x d).2 = (x.exec d).state := by
  unfold asMethod
  split <;> rfl

/-- The methods of `pop3.c` that use the UID databases; the rest of the loop does not. -/
structure Pop3Methods (m : Method (Dialogue Statics ω Command))
    (t : Transact (Dialogue Statics ω Command)) : Prop where
  isOld : m.isOld = some fun n => asMethod true (pop3IsOld n)
  deleteMsg : m.deleteMsg = some fun n => asMethod .error (pop3Delete n)
  markSeen : m.markSeen = some fun n => asMethod .error (pop3MarkSeen n)
  getpartialsizes : ∀ f, m.getpartialsizes = some f → ∀ first last sizes d,
    (f first last sizes d).2.statics = d.statics
  fetchHeaders : ∀ n d, (m.fetchHeaders n d).2.statics = d.statics
  fetchBody : m.fetchBody = none
  trail : m.trail = none
  readheaders : ∀ len size num b d, (t.readheaders len size num b d).2.statics = d.statics
  readbody : ∀ forward len d, (t.readbody forward len d).2.statics = d.statics
  closeSink : ∀ forward d, (t.closeSink forward d).2.statics = d.statics

/-! ## Answers that last -/

/-- What `pop3_is_old` answers outside the fast mode. -/
def oldAnswer (s : Statics) (n : Nat) : Bool :=
  if s.oldsaved.uidDbNRecords = 0 then (n : Int) ≤ s.last
  else
    match s.newsaved.findUidByNum n with
    | none => true
    | some p => s.newsaved.status p ≠ .unseen

/-- The variables, as far as the answers for messages from `num` on depend on them, are what
they were in `base`. -/
structure Settled (base : Statics) (count num : Nat) (s : Statics) : Prop where
  slow : s.dofastuidl = false
  last : s.last = base.last
  size : s.oldsaved.uidDbNRecords = base.oldsaved.uidDbNRecords
  index : s.newsaved.numNdx = base.newsaved.numNdx
  status : ∀ n, num ≤ n → n ≤ count → ∀ p, base.newsaved.findUidByNum n = some p →
    s.newsaved.status p = base.newsaved.status p

variable {base s : Statics} {count num n : Nat} {d : Dialogue Statics ω Command}

theorem Settled.answer (h : Settled base count num s) (hn : num ≤ n) (hn' : n ≤ count) :
    oldAnswer s n = oldAnswer base n := by
  unfold oldAnswer
  rw [h.size, h.last, Db.findUidByNum_congr h.index]
  cases hfind : base.newsaved.findUidByNum n with
  | none => rfl
  | some p => simp only [h.status n hn hn' p hfind]

theorem Settled.succ (h : Settled base count num s) : Settled base count (num + 1) s :=
  ⟨h.slow, h.last, h.size, h.index, fun n hn => h.status n (by omega)⟩

/-- Distinct messages have distinct records. -/
def Injective (base : Statics) (count : Nat) : Prop :=
  ∀ n ≤ count, ∀ m ≤ count, ∀ p, base.newsaved.findUidByNum n = some p →
    base.newsaved.findUidByNum m = some p → n = m

/-- Marking the record of message `num` in the new database. -/
theorem Settled.setStatus (h : Settled base count (num + 1) s) (hinj : Injective base count)
    (hnum : num ≤ count) {p : Nat} {mark : Mark} (hp : s.newsaved.findUidByNum num = some p) :
    Settled base count (num + 1) { s with newsaved := s.newsaved.setStatus p mark } where
  slow := h.slow
  last := h.last
  size := h.size
  index := h.index
  status := by
    intro n hn hn' q hq
    rw [Db.findUidByNum_congr h.index] at hp
    have hne : q ≠ p := by
      rintro rfl
      have hsame := hinj n hn' num hnum q hq hp
      omega
    show (s.newsaved.setStatus p mark).status q = _
    rw [Db.status_setStatus_of_ne hne]
    exact h.status n hn hn' q hq

/-- What the index knows is read, and nothing else changes. -/
theorem Settled.findNewNum (h : Settled base count num s) (m : Nat) :
    Settled base count num (s.findNewNum m).2 :=
  ⟨h.slow, h.last, h.size, h.index, h.status⟩

theorem Settled.findOldNum (h : Settled base count num s) (m : Nat) :
    Settled base count num (s.findOldNum m).2 :=
  ⟨h.slow, h.last, h.size, h.index, h.status⟩

/-- `mark_uid_seen` -/
theorem Settled.markUidSeen (h : Settled base count (num + 1) s) (hinj : Injective base count)
    (hnum : num ≤ count) : Settled base count (num + 1) (s.markUidSeen num) := by
  have hnew : Settled base count (num + 1) (s.markNewSeen num) := by
    unfold Statics.markNewSeen
    have hfind := h.findNewNum num
    cases hp : (s.findNewNum num).1 with
    | none => simpa [hp] using hfind
    | some p => simpa [hp] using hfind.setStatus hinj hnum hp
  unfold Statics.markUidSeen Statics.markOldSeen
  have hfind := hnew.findOldNum num
  cases hp : ((s.markNewSeen num).findOldNum num).1 with
  | none => simpa [hp] using hfind
  | some p =>
    simp only [hp]
    exact ⟨hfind.slow, hfind.last, by simpa [Db.uidDbNRecords] using hfind.size, hfind.index,
      hfind.status⟩

/-- The end of `pop3_delete` -/
theorem Settled.markDeleted (h : Settled base count (num + 1) s) (hinj : Injective base count)
    (hnum : num ≤ count) : Settled base count (num + 1) (s.markDeleted num) := by
  unfold Statics.markDeleted
  rw [h.slow, if_neg Bool.false_ne_true]
  have hfind := h.findNewNum num
  cases hp : (s.findNewNum num).1 with
  | none =>
    have hnull : Settled base count (num + 1) { (s.findNewNum num).2 with nullDeref := true } :=
      ⟨hfind.slow, hfind.last, hfind.size, hfind.index, hfind.status⟩
    simpa [hp] using hnull
  | some p => simpa [hp] using hfind.setStatus hinj hnum hp

/-- What `pop3_delete` does to the variables. -/
theorem statics_pop3Delete (left : Ps) :
    (asMethod left (pop3Delete num) d).2.statics = d.statics.markUidSeen num ∨
      (asMethod left (pop3Delete num) d).2.statics =
        (d.statics.markUidSeen num).markDeleted num := by
  rw [asMethod_snd]
  exact statics_exec_pop3Delete num d

/-- What holds of the variables with the message seen, and of those with its mark as well, holds
behind `pop3_delete`. -/
theorem pop3Delete_statics_rule {P : Statics → Prop} (left : Ps)
    (hseen : P (d.statics.markUidSeen num))
    (hdeleted : P ((d.statics.markUidSeen num).markDeleted num)) :
    P (asMethod left (pop3Delete num) d).2.statics := by
  have hstatics : (asMethod left (pop3Delete num) d).2.statics = d.statics.markUidSeen num ∨
      (asMethod left (pop3Delete num) d).2.statics =
        (d.statics.markUidSeen num).markDeleted num := statics_pop3Delete left
  rcases hstatics with heq | heq
  · rw [heq]
    exact hseen
  · rw [heq]
    exact hdeleted

/-- `pop3_is_old` as the fetch loop sees it, outside the fast mode. -/
theorem asMethod_pop3IsOld (hslow : d.statics.dofastuidl = false) (left : Bool) (m : Nat) :
    asMethod left (pop3IsOld m) d = (oldAnswer d.statics m,
      { d with statics := if d.statics.oldsaved.uidDbNRecords = 0 then d.statics
          else (d.statics.findNewNum m).2 }) := by
  unfold asMethod oldAnswer
  by_cases hnone : d.statics.oldsaved.uidDbNRecords = 0
  · simp only [pop3IsOld, Talk.exec_bind, Talk.exec_gets, hnone, if_true, Talk.exec_pure]
  · simp only [pop3IsOld, Talk.exec_bind, Talk.exec_gets, hnone, hslow, Bool.false_eq_true, if_false,
      exec_state]
    cases hp : d.statics.newsaved.findUidByNum m with
    | none => simp only [Statics.findNewNum, hp, Talk.exec_pure]
    | some p => simp only [Statics.findNewNum, hp, Talk.exec_bind, Talk.exec_gets, Talk.exec_pure]

/-- It changes nothing that the answers depend on. -/
theorem Settled.isOld (h : Settled base count num d.statics) (left : Bool) (m : Nat) :
    Settled base count num (asMethod left (pop3IsOld m) d).2.statics := by
  rw [asMethod_pop3IsOld h.slow]
  show Settled base count num (if _ then _ else _)
  split
  · exact h
  · exact h.findNewNum m

/-! ## A pass over the mailbox -/

/-- The answers of `is_old` on record are those for `base`. -/
def AnsweredBy (base : Statics) (c : Driver.Ctl) (count : Nat) (tr : List Call) : Prop :=
  ∀ n b, .isOld n b ∈ tr → 1 ≤ n ∧ n ≤ count ∧ c.fetchall = false ∧ b = oldAnswer base n

variable {m : Method (Dialogue Statics ω Command)} {t : Transact (Dialogue Statics ω Command)}

/-- What the calls before the disposal keep: only `pop3_is_old` has the variables change. -/
theorem Pop3Methods.judgeRule (hm : Pop3Methods m t) {I E : Statics → Prop}
    {Z : Flags → Statics → Prop} (hleave : ∀ s, I s → E s) (hdispose : ∀ f s, I s → Z f s)
    (hisOld : ∀ d : Dialogue Statics ω Command, I d.statics →
      I (asMethod true (pop3IsOld num) d).2.statics) :
    JudgeRule m t count num (fun d => I d.statics) (fun _ d => I d.statics)
      (fun f d => Z f d.statics) (fun d => E d.statics) (fun _ => True) := by
  have hkeep : ∀ {s s' : Statics}, s' = s → I s → I s' := fun hsame h => hsame ▸ h
  refine ⟨fun _ _ => trivial, fun d h => hleave _ h, fun _ d h => hleave _ h,
    fun d h => hdispose _ _ h, fun _ d h => hdispose _ _ h, ?_, ?_, ?_, ?_, ?_, ?_, ?_, ?_⟩
  · intro f hf d h
    -- `is_old` is the one call that may change the variables
    obtain rfl := Option.some.inj (hm.isOld.symm.trans hf)
    exact hisOld d h
  · intro f hf last sizes d _ _ _ h
    have hsame := hkeep (hm.getpartialsizes f hf num last sizes d) h
    exact ⟨hleave _ hsame, trivial, fun _ => hsame⟩
  · intro d h
    exact hkeep (hm.fetchHeaders num d) h
  · intro len size b d h
    have hsame := hkeep (hm.readheaders len size num b d) h
    exact ⟨hleave _ hsame, fun _ _ => hsame⟩
  · intro g hg
    -- POP3 has neither `trail` nor `fetch_body`
    rw [hm.trail] at hg
    cases hg
  · intro g hg
    rw [hm.fetchBody] at hg
    cases hg
  · intro len f d h
    exact hkeep (hm.readbody (!f.suppressForward) len d) h
  · intro f d h
    exact hdispose _ _ (hkeep (hm.closeSink (!f.suppressForward) d) h)

/-- One iteration. -/
theorem Pop3Methods.fetchMessage (hm : Pop3Methods m t) (hinj : Injective base count)
    {c : Driver.Ctl} {maxfetch : Int} {l : Loop} (hnum : num ≤ count)
    (hs : Settled base count num d.statics) :
    (fetchMessage c m t maxfetch count num l).wp
      (fun _ d' _ => Settled base count (num + 1) d'.statics) d := by
  have hrule : JudgeRule m t count num (fun d => Settled base count num d.statics)
      (fun _ d => Settled base count num d.statics) (fun _ d => Settled base count num d.statics)
      (fun d => Settled base count num d.statics) (fun _ => True) :=
    hm.judgeRule (fun _ h => h) (fun _ _ h => h) fun d h => h.isOld true num
  unfold Driver.fetchMessage
  simp only [Act.wp_bind]
  refine Act.wp_mono (judge_rule hrule l hnum hs) fun next d₁ tr₁ h₁ => ?_
  cases next with
  | nextMessage l' => exact h₁.2.succ
  | leave err l' => exact h₁.2.succ
  | flagthemail f l' =>
    -- only disposing of the message marks it, and then the number is passed
    have hdispose : (dispose c m num (c.softbounceFlags f) l').wp
        (fun _ d' _ => Settled base count (num + 1) d'.statics) d₁ := by
      refine Act.wp_mono (dispose_frame (I := fun d => Settled base count (num + 1) d.statics)
        ?_ ?_ h₁.2.succ) fun _ _ _ hd => hd.1
      · intro g hg d h
        obtain rfl := Option.some.inj (hm.deleteMsg.symm.trans hg)
        have hseen := h.markUidSeen hinj hnum
        exact pop3Delete_statics_rule Ps.error hseen (hseen.markDeleted hinj hnum)
      · intro g hg d h
        obtain rfl := Option.some.inj (hm.markSeen.symm.trans hg)
        exact h.markUidSeen hinj hnum
    have hflag : (flagthemail c m maxfetch count num f l').wp
        (fun _ d' _ => Settled base count (num + 1) d'.statics) d₁ := flagthemail_rule hdispose
    refine Act.wp_mono hflag fun next d₂ tr₂ h₂ => ?_
    cases next <;> exact h₂

/-- **A pass asks for the age of messages, and is answered by the list.** -/
theorem Pop3Methods.fetchMessages (hm : Pop3Methods m t) (hinj : Injective base count)
    {c : Driver.Ctl} {maxfetch : Int} {l : Loop} (hs : Settled base count 1 d.statics) :
    AnsweredBy base c count ((fetchMessages c m t maxfetch count l).run d).trace := by
  have hstart : AnsweredBy base c count [] := fun n b h => by simp at h
  refine fetchFrom_rule
    (fun num d tr => 1 ≤ num ∧ Settled base count num d.statics ∧ AnsweredBy base c count tr)
    (fun _ tr => AnsweredBy base c count tr) [] (by omega) ?_ (fun _ _ h => h.2.2)
    ⟨Nat.le_refl 1, hs, hstart⟩
  -- the numbers to come are settled, and those before have been answered
  rintro num l d tr hnum ⟨hone, hs, htr⟩
  have hnext : (Driver.fetchMessage c m t maxfetch count num l).wp
      (fun _ d' _ => Settled base count (num + 1) d'.statics) d := hm.fetchMessage hinj hnum hs
  have hanswered : AnsweredBy base c count
      (tr ++ ((Driver.fetchMessage c m t maxfetch count num l).run d).trace) := by
    intro n b h
    rcases List.mem_append.mp h with h | h
    · exact htr n b h
    · obtain ⟨rfl, hfetchall, f, hf, hb⟩ := isOld_fetchMessage h
      obtain rfl := Option.some.inj (hm.isOld.symm.trans hf)
      refine ⟨hone, hnum, hfetchall, ?_⟩
      rw [hb, show (asMethod true (pop3IsOld n) d).1 = _ from
        congrArg Prod.fst (asMethod_pop3IsOld hs.slow true n)]
      exact hs.answer (Nat.le_refl n) hnum
  unfold Act.wp
  beta_reduce
  split
  · exact ⟨by omega, hnext, hanswered⟩
  · exact hanswered

/-! ## A pass in which nothing goes wrong -/

/-- A server that obeys. -/
structure Obeys (d : Dialogue Statics ω Command) : Prop where
  tagged : d.tagged = false
  lines : d.lines = []
  answer : ∀ c p, (d.answer [] c p).1 = [.line (Bytes.lit "+OK") false]

/-- A fetch loop that finds no header of a new message. -/
def lazyMethod : Method (Dialogue Statics ω Command) where
  isOld := some fun n => asMethod true (pop3IsOld n)
  getpartialsizes := none
  fetchHeaders := fun _ d => ((.transient, -1), d)
  fetchBody := none
  trail := none
  deleteMsg := some fun n => asMethod .error (pop3Delete n)
  markSeen := some fun n => asMethod .error (pop3MarkSeen n)

/-- A transaction layer that reads nothing. -/
def idleTransact : Transact (Dialogue Statics ω Command) where
  readheaders := fun _ _ _ _ d => (⟨.success, false, 0⟩, d)
  readbody := fun _ _ d => (.success, d)
  closeSink := fun _ d => (true, d)

theorem pop3Methods_lazy :
    Pop3Methods (lazyMethod : Method (Dialogue Statics ω Command)) idleTransact where
  isOld := rfl
  deleteMsg := rfl
  markSeen := rfl
  getpartialsizes := by
    intro f hf
    cases hf
  fetchHeaders := fun _ _ => rfl
  fetchBody := rfl
  trail := rfl
  readheaders := fun _ _ _ _ _ => rfl
  readbody := fun _ _ _ => rfl
  closeSink := fun _ _ => rfl

/-- Settings that flush. -/
def flushCtl : Driver.Ctl :=
  ⟨.pop3, false, true, false, 0, false, 0, 0, false, true⟩

/-- Such a server obeys `DELE`. -/
theorem Obeys.delete (h : Obeys d) (n : Nat) :
    (asMethod .error (pop3Delete n) d).1 = .success ∧
      Obeys (asMethod .error (pop3Delete n) d).2 := by
  have hanswers : ∀ s : Statics, Answers { d with statics := s } (.dele n) (Bytes.lit "+OK") [] :=
    fun s => ⟨h.tagged, h.lines, false, h.answer _ _⟩
  have hok : (parseOk d.stage (Bytes.lit "+OK")).1 = .success := rfl
  simp only [asMethod, pop3Delete, Talk.exec_bind, exec_assign, exec_command_line (hanswers _), hok,
    if_true, Talk.exec_pure]
  exact ⟨trivial, h.tagged, h.lines, h.answer⟩

theorem Obeys.isOld (h : Obeys d) (hslow : d.statics.dofastuidl = false) (n : Nat) :
    Obeys (asMethod true (pop3IsOld n) d).2 := by
  rw [asMethod_pop3IsOld hslow]
  exact ⟨h.tagged, h.lines, h.answer⟩

/-- Every old message is deleted. -/
def DeletesOld (base : Statics) (num : Nat) (tr : List Call) : Prop :=
  ∀ n, 1 ≤ n → n < num → oldAnswer base n = true →
    .isOld n true ∈ tr ∧ .deleteMsg n .success ∈ tr

theorem DeletesOld.append {tr tr' : List Call} (h : DeletesOld base num tr)
    (hnew : oldAnswer base num = true → .isOld num true ∈ tr' ∧ .deleteMsg num .success ∈ tr') :
    DeletesOld base (num + 1) (tr ++ tr') := by
  intro n hn hlt hold
  rcases Nat.lt_or_ge n num with hlt' | hge
  · obtain ⟨hasked, hdeleted⟩ := h n hn hlt' hold
    exact ⟨List.mem_append.mpr (Or.inl hasked), List.mem_append.mpr (Or.inl hdeleted)⟩
  · obtain rfl : n = num := by omega
    obtain ⟨hasked, hdeleted⟩ := hnew hold
    exact ⟨List.mem_append.mpr (Or.inr hasked), List.mem_append.mpr (Or.inr hdeleted)⟩

/-- One iteration, in which the message is flushed or skipped. -/
theorem fetchMessage_flushes {l : Loop} (hnum : num ≤ count)
    (hs : Settled base count num d.statics) (hd : Obeys d) {tr : List Call}
    (htr : DeletesOld base num tr) :
    (fetchMessage flushCtl lazyMethod idleTransact 0 count num l).wp
      (fun next d' tr' => (∃ l', next = .nextMessage l') ∧ Obeys d' ∧
        DeletesOld base (num + 1) (tr ++ tr')) d := by
  have hanswer : (asMethod true (pop3IsOld num) d).1 = oldAnswer base num := by
    rw [asMethod_pop3IsOld hs.slow]
    exact hs.answer (Nat.le_refl num) hnum
  have hobeys := hd.isOld hs.slow num
  obtain ⟨hdel, hobeys'⟩ := hobeys.delete num
  -- the whole of the step is computed, as nothing but the answer decides
  have hcheck : checkOld flushCtl lazyMethod num = (do
      let old ← Act.lift (asMethod true (pop3IsOld num))
      Act.emit (.isOld num old)
      return old : Act (Dialogue Statics ω Command) Call Bool) := rfl
  have hsize : ∀ size, flushCtl.oversized size = false := fun _ => rfl
  unfold Driver.fetchMessage judge
  rw [hcheck]
  cases hb : oldAnswer base num with
  | true =>
    rw [hb] at hanswer
    simp only [Act.wp_bind, Act.wp_lift, Act.wp_emit, Act.wp_pure, List.nil_append, List.append_nil,
      hanswer, if_true, flagthemail, dispose, Ctl.softbounceFlags, Bool.false_eq_true, if_false,
      lazyMethod, Ctl.wantsDelete, Bool.not_false, Bool.true_and, flushCtl, hdel, ne_eq,
      not_true_eq_false, false_and]
    exact ⟨⟨_, rfl⟩, hobeys', htr.append fun _ => ⟨by simp, by simp⟩⟩
  | false =>
    rw [hb] at hanswer
    simp only [Act.wp_bind, Act.wp_lift, Act.wp_emit, Act.wp_pure, List.nil_append, List.append_nil,
      hanswer, Bool.false_eq_true, if_false, getSizes, lazyMethod, retrieve, hsize, if_true]
    refine ⟨⟨_, rfl⟩, hobeys, htr.append fun hold => ?_⟩
    rw [hb] at hold
    exact absurd hold Bool.false_ne_true

/-- **Nothing keeps an old message from being deleted** when the server obeys. -/
theorem fetchMessages_flushes (hinj : Injective base count) (l : Loop)
    (hs : Settled base count 1 d.statics) (hd : Obeys d) :
    DeletesOld base (count + 1)
      ((fetchMessages flushCtl lazyMethod idleTransact 0 count l).run d).trace := by
  have hstart : DeletesOld base 1 [] := fun n hn hlt => by omega
  refine fetchFrom_rule
    (fun num d tr => Settled base count num d.statics ∧ Obeys d ∧ DeletesOld base num tr)
    (fun _ tr => DeletesOld base (count + 1) tr) [] (by omega) ?_ (fun _ _ h => h.2.2)
    ⟨hs, hd, hstart⟩
  rintro num l d tr hnum ⟨hs, hd, htr⟩
  have hsettled : (Driver.fetchMessage flushCtl lazyMethod idleTransact 0 count num l).wp
      (fun _ d' _ => Settled base count (num + 1) d'.statics) d :=
    pop3Methods_lazy.fetchMessage hinj hnum hs
  have hflushes := fetchMessage_flushes (l := l) hnum hs hd htr
  refine Act.wp_mono (Act.wp_and hsettled hflushes) fun next d' tr' h => ?_
  obtain ⟨hs', ⟨l', rfl⟩, hd', htr'⟩ := h
  exact ⟨hs', hd', htr'⟩

/-! ## After the list -/

variable {ctl : Ctl} {listing : List (Nat × Bytes)} {flush : Bool} {s₀ : Statics} {newp : Int}

theorem Listed.injective (h : Listed flush s₀ count listing newp s) : Injective s count := by
  intro n hn m hm p hp hq
  obtain ⟨id, hid, -⟩ := (h.index n hn p).mp hp
  obtain ⟨id', hid', -⟩ := (h.index m hm p).mp hq
  rw [hid] at hid'
  cases hid'
  rfl

theorem Listed.settled (h : Listed flush s₀ count listing newp s)
    (hslow : s₀.dofastuidl = false) : Settled s count 1 s := by
  refine ⟨?_, rfl, rfl, rfl, fun _ _ _ _ _ => rfl⟩
  rw [h.rest]
  exact hslow

/-- A listed message is old if its UID was. -/
theorem Listed.oldAnswer_of_mem (h : Listed flush s₀ count listing newp s)
    (hslow : s₀.dofastuidl = false) (hn : n ≤ count) (hnodup : (listing.map Prod.fst).Nodup)
    {id : Bytes} (hmem : (n, id) ∈ listing) (d : Dialogue Statics ω Command)
    (hd : d.statics = s) : oldAnswer s n = decide (s₀.oldsaved.Old id) := by
  obtain ⟨k, hk⟩ := List.mem_iff_getElem?.mp hmem
  have hval := h.isOld (d := d) hslow hn hk hnodup hd
  have hslow' : d.statics.dofastuidl = false := by
    rw [hd]
    exact (h.settled hslow).slow
  have hanswer := asMethod_pop3IsOld hslow' true n
  rw [asMethod, hval, hd] at hanswer
  exact (congrArg Prod.fst hanswer).symm

/-- A message that was left out is old, unless no UID is known at all. -/
theorem Listed.oldAnswer_of_not_mem (h : Listed flush s₀ count listing newp s)
    (hlast : s₀.last = 0) (hn : 1 ≤ n) (hn' : n ≤ count) (hno : n ∉ listing.map Prod.fst) :
    oldAnswer s n = true ↔ s.oldsaved.uidDbNRecords ≠ 0 := by
  have hlast' : s.last = 0 := by
    rw [h.rest]
    exact hlast
  have hfind : s.newsaved.findUidByNum n = none := by
    cases hp : s.newsaved.findUidByNum n with
    | none => rfl
    | some p =>
      obtain ⟨id, hid, -⟩ := (h.index n hn' p).mp hp
      exact absurd (List.mem_map.mpr ⟨_, List.mem_of_getElem? hid, rfl⟩) hno
  unfold oldAnswer
  rw [hfind, hlast']
  by_cases hnone : s.oldsaved.uidDbNRecords = 0
  · rw [if_pos hnone]
    simp only [hnone, ne_eq, not_true_eq_false, iff_false, decide_eq_true_eq]
    omega
  · rw [if_neg hnone]
    simp [hnone]

/-- No UID is known after an empty list, if none was before. -/
theorem Listed.known_iff (h : Listed flush s₀ count listing newp s)
    (hempty : listing = [] → s.oldsaved = s₀.oldsaved) :
    s.oldsaved.uidDbNRecords ≠ 0 ↔ ¬ (listing = [] ∧ s₀.oldsaved.records = []) := by
  cases hl : listing with
  | nil =>
    rw [hempty hl, Db.uidDbNRecords]
    simp
  | cons e rest =>
    have hmem : (e.1, e.2) ∈ listing := by
      rw [hl]
      exact List.mem_cons_self
    obtain ⟨p, hp⟩ := h.found hmem
    have hlt := Db.findUidById_lt hp
    rw [Db.uidDbNRecords]
    simp only [List.cons_ne_nil, false_and, not_false_eq_true, iff_true]
    omega

/-- What the loop deletes because it is old was listed, with a UID that was known. -/
def FlushSafe (s₀ : Statics) (listing : List (Nat × Bytes)) (tr : List Call) : Prop :=
  ∀ n err, .isOld n true ∈ tr → .deleteMsg n err ∈ tr →
    ∃ id, (n, id) ∈ listing ∧ s₀.oldsaved.Old id

/-- **Flushing is safe exactly if the list is complete**, or is empty when no UID was known
before. With `fetchall` no message is asked for its age. -/
theorem flush_safe_iff {d : Dialogue Statics ω Command} (h : FullList ctl d count listing)
    (hcount : 0 < count) (huses : ctl.usesUids = true) (hflush : ctl.flush = true)
    (hnums : ∀ e ∈ listing, e.1 ≤ count) (hnodup : (listing.map Prod.fst).Nodup)
    (hids : ∀ e ∈ listing, e.2 ≠ []) :
    (∀ (c : Driver.Ctl) (m : Method (Dialogue Statics ω Command))
      (t : Transact (Dialogue Statics ω Command)) (maxfetch : Int) (l : Loop)
      (d' : Dialogue Statics ω Command),
      c.flush = ctl.flush → c.fetchall = ctl.fetchall → Pop3Methods m t →
      d'.statics = ((pop3Getrange ctl : Session ω Range).exec d).state.statics →
      FlushSafe d.statics listing ((fetchMessages c m t maxfetch count l).run d').trace) ↔
    ctl.fetchall = true ∨ (∀ n, 1 ≤ n → n ≤ count → n ∈ listing.map Prod.fst) ∨
      (listing = [] ∧ d.statics.oldsaved.records = []) := by
  have hbound : count < 2 ^ 31 := by
    obtain ⟨text, late, -, -, hscan⟩ := h.stat d.peer
    have hlt := scanStat_lt hscan
    omega
  have hslow : ctl.wantsFast count = false := by simp [Ctl.wantsFast, hflush]
  have hlisted := (listed_startCount ctl.flush d.statics hbound false).listAll hbound hnums
    hnodup hids
  rw [List.nil_append] at hlisted
  obtain ⟨p, tr, hexec⟩ := h.exec_getrange hcount huses hslow
  rw [hexec]
  have hempty : listing = [] → (((d.statics.startCount count false).listAll ctl.flush listing
      0).2).oldsaved = (d.statics.startCount count false).oldsaved := by
    rintro rfl
    rfl
  have hknown := hlisted.known_iff hempty
  generalize ((d.statics.startCount count false).listAll ctl.flush listing 0).2 = s at *
  constructor
  · intro hsafe
    by_contra hbad
    simp only [not_or, not_forall, Bool.not_eq_true] at hbad
    obtain ⟨hfetchall, ⟨n, hn, hn', hno⟩, hsome⟩ := hbad
    -- the server lists no UID for `n`, and obeys from then on
    have hold := (hlisted.oldAnswer_of_not_mem rfl hn hn' hno).mpr (hknown.mpr hsome)
    obtain ⟨d', hd', hobeys⟩ : ∃ d' : Dialogue Statics ω Command, d'.statics = s ∧ Obeys d' :=
      ⟨{ d with statics := s, lines := [], tagged := false,
                answer := fun _ _ p => ([.line (Bytes.lit "+OK") false], p) },
        rfl, rfl, rfl, fun _ _ => rfl⟩
    have hsettled : Settled s count 1 d'.statics := by
      rw [hd']
      exact hlisted.settled rfl
    obtain ⟨hasked, hdeleted⟩ := fetchMessages_flushes hlisted.injective
      ⟨0, 0, none, 0, 0, 0, 0, 0⟩ hsettled hobeys n hn (by omega) hold
    obtain ⟨id, hmem, -⟩ := hsafe flushCtl lazyMethod idleTransact 0 _ d' hflush.symm
      hfetchall.symm pop3Methods_lazy hd' n .success hasked hdeleted
    exact hno (List.mem_map.mpr ⟨_, hmem, rfl⟩)
  · intro hgood c m t maxfetch l d' hcflush hcfetch hm hd' n err hasked _
    have hsettled : Settled s count 1 d'.statics := by
      rw [hd']
      exact hlisted.settled rfl
    obtain ⟨hn, hn', hfetchall, hanswer⟩ :=
      hm.fetchMessages hlisted.injective hsettled n true hasked
    have hmem : n ∈ listing.map Prod.fst := by
      rcases hgood with hall | hall | hnone
      · rw [← hcfetch, hfetchall] at hall
        exact absurd hall Bool.false_ne_true
      · exact hall n hn hn'
      · by_contra hno
        have hsome := (hlisted.oldAnswer_of_not_mem rfl hn hn' hno).mp hanswer.symm
        exact hknown.mp hsome hnone
    obtain ⟨e, he, rfl⟩ := List.mem_map.mp hmem
    rw [hlisted.oldAnswer_of_mem rfl hn' hnodup he d' hd'] at hanswer
    exact ⟨e.2, he, of_decide_eq_true hanswer.symm⟩

end

/-! ## A message that was not listed -/

/-- A server with two messages that lists the first. -/
def partialList : Dialogue Statics Unit Command :=
  { fiveMessages with
    statics := ⟨Db.initUidDb, Db.initUidDb, 0, false, false, false⟩
    answer := fun _ c _ =>
      match c with
      | .stat => ([.line (Bytes.lit "+OK 2 20") false], ())
      | .uidl => ([.line (Bytes.lit "+OK") false, .line (Bytes.lit "1 a") false,
          .line (Bytes.lit ".") false], ())
      | .last => ([.line (Bytes.lit "-ERR") false], ())
      | _ => ([.line (Bytes.lit "+OK") false], ()) }

/-- Settings that flush. -/
def flushing : Ctl := ⟨false, true, false, 0, 0, []⟩

/-- The second message is deleted, unread and unlisted. -/
theorem partialList_not_flushSafe :
    ¬ FlushSafe partialList.statics [(1, Bytes.lit "a")]
      ((fetchMessages flushCtl lazyMethod idleTransact 0 2 ⟨0, 0, none, 0, 0, 0, 0, 0⟩).run
        ((pop3Getrange flushing).exec partialList).state).trace := by
  intro hsafe
  obtain ⟨id, hmem, -⟩ := hsafe 2 .success (by decide) (by decide)
  simp at hmem

/-- The list of the five messages is complete. -/
theorem flush_safe_iff_fiveMessages :
    (∀ (c : Driver.Ctl) (m : Method (Dialogue Statics Unit Command))
      (t : Transact (Dialogue Statics Unit Command)) (maxfetch : Int) (l : Loop)
      (d' : Dialogue Statics Unit Command),
      c.flush = true → c.fetchall = false → Pop3Methods m t →
      d'.statics = ((pop3Getrange flushing : Session Unit Range).exec fiveMessages).state.statics →
      FlushSafe fiveMessages.statics fiveListed ((fetchMessages c m t maxfetch 5 l).run d').trace) ↔
    false = true ∨ (∀ n, 1 ≤ n → n ≤ 5 → n ∈ fiveListed.map Prod.fst) ∨
      (fiveListed = [] ∧ fiveMessages.statics.oldsaved.records = []) :=
  flush_safe_iff (fullList_fiveMessages flushing) (by decide) rfl rfl (by decide) (by decide)
    (by decide)

end Fetchmail.Pop3
