import Fetchmail.Pop3.Uidl
import Mathlib.Data.List.Forall2

/-!
# Replies of the Server

What the methods of `pop3.c` come to when the server answers a command with the lines it
should: the talk falls away, and functions on the variables are left.
-/

namespace Fetchmail.Pop3

open Fetchmail.Lib Fetchmail.Transact Fetchmail.Uid

section

variable {ω : Type} {d : Dialogue Statics ω Command}

/-! ## One command -/

@[simp]
theorem exec_state {α : Type} (f : Statics → α × Statics) :
    (state f : Session ω α).exec d =
      ⟨.ok (f d.statics).1, { d with statics := (f d.statics).2 }, []⟩ := by
  simp [state]

/-- A line that is there is read. -/
@[simp]
theorem exec_accept_line (text : Bytes) (late : Bool) (rest : List Recv) :
    (accept (.line text late) rest : Session ω (Except Ps Bytes)).exec d =
      ⟨.ok (.ok text), { d with lines := rest }, []⟩ := by
  simp [accept]

/-- The server answers `c` with the line `text`, and `more` after it. -/
structure Answers (d : Dialogue Statics ω Command) (c : Command) (text : Bytes)
    (more : List Recv) : Prop where
  tagged : d.tagged = false
  lines : d.lines = []
  answer : ∃ late, (d.answer [] c d.peer).1 = .line text late :: more

/-- A command that is answered by a line. -/
theorem exec_command {c : Command} {text : Bytes} {more : List Recv} (h : Answers d c text more) :
    (command c : Session ω _).exec d = ⟨.ok (parseOk d.stage text),
      { d with lines := more, peer := (d.answer [] c d.peer).2 }, [.sent d.tls [] c]⟩ := by
  obtain ⟨late, hanswer⟩ := h.answer
  have htags : d.tags = false := by simp [Dialogue.tags, h.tagged]
  simp only [command, genSend, pop3Ok, genRecv, sockWrite, Talk.exec_bind, Talk.exec_gets, htags,
    Bool.false_eq_true, if_false, Talk.exec_emit, Talk.exec_modify,
    Dialogue.deliver, h.lines, List.nil_append, hanswer, exec_accept_line, Talk.exec_pure,
    List.append_nil]

/-- A command that is answered by one line and no more. -/
theorem exec_command_line {c : Command} {text : Bytes} (h : Answers d c text []) :
    (command c : Session ω _).exec d = ⟨.ok (parseOk d.stage text),
      { d with peer := (d.answer [] c d.peer).2 }, [.sent d.tls [] c]⟩ := by
  rw [exec_command h, h.lines]

/-- What `pop3_delete` does to the variables. -/
theorem statics_exec_pop3Delete (n : Nat) (d : Dialogue Statics ω Command) :
    ((pop3Delete n).exec d).state.statics = d.statics.markUidSeen n ∨
      ((pop3Delete n).exec d).state.statics = (d.statics.markUidSeen n).markDeleted n := by
  have hkeeps := keeps_command (.dele n) { d with statics := d.statics.markUidSeen n }
  simp only [pop3Delete, Talk.exec_bind, exec_assign]
  cases hval : ((command (.dele n)).exec { d with statics := d.statics.markUidSeen n }).val with
  | error t => exact Or.inl hkeeps
  | ok r =>
    obtain ⟨ok, text⟩ := r
    by_cases hok : ok = .success
    · right
      simp only [hok, if_true, Talk.exec_bind, exec_assign, Talk.exec_pure]
      rw [hkeeps]
    · left
      simp only [hok, if_false, Talk.exec_pure]
      exact hkeeps

/-! ## The full list -/

/-- The line is not the end of the list, and tells the number and the UID of a message. -/
def Lists (r : Recv) (entry : Nat × Bytes) : Prop :=
  ∃ text late, r = .line text late ∧ dotLine text = false ∧ parseuid text = some entry

/-- The databases after a list, and the number of new messages in it. -/
def Statics.listAll (flush : Bool) : List (Nat × Bytes) → Int → Statics → Int × Statics
  | [], newp, s => (newp, s)
  | (unum, id) :: listing, newp, s =>
    let (new, s) := s.listLine flush unum id
    s.listAll flush listing (if new then newp + 1 else newp)

/-- The list is read line by line, up to the dot. -/
theorem exec_uidlLines {flush : Bool} {body : List Recv} {listing : List (Nat × Bytes)}
    (hbody : List.Forall₂ Lists body listing) {dot : Bytes} (hdot : dotLine dot = true)
    (late : Bool) (more : List Recv) (newp : Int) :
    (uidlLines flush (body ++ .line dot late :: more) newp : Session ω _).exec d =
      ⟨.ok (.success, (d.statics.listAll flush listing newp).1),
        { d with lines := more
                 statics := (d.statics.listAll flush listing newp).2 }, []⟩ := by
  induction hbody generalizing d newp with
  | nil =>
    rw [List.nil_append]
    simp [uidlLines, hdot, Statics.listAll]
  | @cons r entry body listing hr hbody ih =>
    obtain ⟨text, late', rfl, hdotless, hparse⟩ := hr
    obtain ⟨unum, id⟩ := entry
    rw [List.cons_append]
    simp only [uidlLines, Talk.exec_bind, exec_accept_line, hdotless, hparse, Talk.exec_ite,
      Bool.false_eq_true, if_false, exec_state, ih, Statics.listAll]
    split <;> simp

/-! ## `pop3_getrange` -/

/-- The server counts `count` messages, and does not know `LAST` if it is asked for it. -/
structure Counts (ctl : Ctl) (d : Dialogue Statics ω Command) (count : Nat) : Prop where
  tagged : d.tagged = false
  lines : d.lines = []
  stat : ∀ p, ∃ text late, (d.answer [] .stat p).1 = [.line text late] ∧
    (parseOk d.stage text).1 = .success ∧
    scanStat (parseOk d.stage text).2 = some (count : Int)
  last : ctl.uidl = false → ∀ p, ∃ text late, (d.answer [] .last p).1 = [.line text late] ∧
    (parseOk d.stage text).1 ≠ .success

variable {ctl : Ctl} {count : Nat}

/-- The replies do not depend on the variables and the state of the server. -/
theorem Counts.next (h : Counts ctl d count) (s : Statics) (p : ω) :
    Counts ctl { d with statics := s, peer := p } count :=
  ⟨h.tagged, h.lines, h.stat, h.last⟩

/-- The variables when messages are there and UIDs are used. -/
def Statics.startCount (count : Nat) (dofastuidl : Bool) (s : Statics) : Statics :=
  { s with oldsaved := s.oldsaved.setUidDbNumPos0 count
           newsaved := Db.initUidDb.setUidDbNumPos0 count
           last := 0
           dofastuidl := dofastuidl }

/-- A session without `LAST` comes to `UIDL`. -/
theorem Counts.exec_countNew (h : Counts ctl d count) :
    ∃ p tr, (countNew ctl count : Session ω Range).exec d =
      let r := (doUidl ctl count : Session ω Range).exec
        { d with peer := p
                 statics := { d.statics with
                   oldsaved := d.statics.oldsaved.setUidDbNumPos0 count
                   newsaved := d.statics.newsaved.setUidDbNumPos0 count
                   dofastuidl := ctl.wantsFast count } }
      ⟨r.val, r.state, tr ++ r.trace⟩ := by
  cases huidl : ctl.uidl with
  | true =>
    refine ⟨d.peer, [], ?_⟩
    simp only [countNew, Talk.exec_bind, exec_assign, huidl, if_true, Int.toNat_natCast]
  | false =>
    obtain ⟨text, late, hanswer, hno⟩ := h.last huidl d.peer
    have hlast : ∀ s : Statics, Answers { d with statics := s } .last text [] :=
      fun s => ⟨h.tagged, h.lines, late, hanswer⟩
    refine ⟨(d.answer [] .last d.peer).2, [.sent d.tls [] .last], ?_⟩
    simp only [countNew, Talk.exec_bind, exec_assign, huidl, Bool.false_eq_true, if_false,
      Int.toNat_natCast, exec_command_line (hlast _), hno, List.nil_append]

/-- Such a session finds the mailbox and prepares the databases. -/
theorem Counts.exec_getrange (h : Counts ctl d count) (hcount : 0 < count)
    (huses : ctl.usesUids = true) :
    ∃ p tr, (pop3Getrange ctl : Session ω Range).exec d =
      let r := (doUidl ctl count : Session ω Range).exec
        { d with peer := p, statics := d.statics.startCount count (ctl.wantsFast count) }
      ⟨r.val, r.state, tr ++ r.trace⟩ := by
  obtain ⟨text, late, hanswer, hok, hscan⟩ := h.stat d.peer
  have hpos : (0 : Int) < count := by omega
  have hstat : ∀ s : Statics, Answers { d with statics := s } .stat text [] :=
    fun s => ⟨h.tagged, h.lines, late, hanswer⟩
  obtain ⟨p, tr, hnew⟩ := (h.next { d.statics with newsaved := Db.initUidDb, last := 0 }
    (d.answer [] .stat d.peer).2).exec_countNew
  refine ⟨p, .sent d.tls [] .stat :: tr, ?_⟩
  simp only [pop3Getrange, Talk.exec_bind, exec_assign, exec_command_line (hstat _), hok, if_true,
    hscan, hpos, huses, decide_true, Bool.and_self, List.nil_append, hnew]
  rfl

/-- **A session that reads the whole list**: the server answers `UIDL` with the entries of
`listing` and the dot. -/
structure FullList (ctl : Ctl) (d : Dialogue Statics ω Command) (count : Nat)
    (listing : List (Nat × Bytes)) : Prop extends Counts ctl d count where
  uidl : ∀ p, ∃ text late body dot late', (d.answer [] .uidl p).1 =
      .line text late :: (body ++ [.line dot late']) ∧
    (parseOk d.stage text).1 = .success ∧ List.Forall₂ Lists body listing ∧ dotLine dot = true

variable {listing : List (Nat × Bytes)}

/-- `UIDL`, with the list. -/
theorem FullList.exec_doUidl (h : FullList ctl d count listing)
    (hslow : d.statics.dofastuidl = false) :
    ∃ p tr, (doUidl ctl count : Session ω Range).exec d =
      ⟨.ok ⟨.success, count, (d.statics.listAll ctl.flush listing 0).1⟩,
        { d with peer := p, statics := (d.statics.listAll ctl.flush listing 0).2 }, tr⟩ := by
  obtain ⟨text, late, body, dot, late', hanswer, hok, hbody, hdot⟩ := h.uidl d.peer
  have hanswers : Answers d .uidl text (body ++ [.line dot late']) :=
    ⟨h.tagged, h.lines, late, hanswer⟩
  refine ⟨(d.answer [] .uidl d.peer).2, [.sent d.tls [] .uidl], ?_⟩
  simp only [doUidl, Talk.exec_bind, Talk.exec_gets, hslow, Bool.false_eq_true, if_false,
    exec_command hanswers, hok, if_true, exec_uidlLines hbody hdot, Talk.exec_pure,
    List.append_nil, List.nil_append]
  rw [h.lines]

/-- **`pop3_getrange`, reading the whole list.** -/
theorem FullList.exec_getrange (h : FullList ctl d count listing) (hcount : 0 < count)
    (huses : ctl.usesUids = true) (hslow : ctl.wantsFast count = false) :
    ∃ p tr, (pop3Getrange ctl : Session ω Range).exec d =
      ⟨.ok ⟨.success, count, ((d.statics.startCount count false).listAll ctl.flush listing 0).1⟩,
        { d with peer := p
                 statics := ((d.statics.startCount count false).listAll ctl.flush listing 0).2 },
        tr⟩ := by
  obtain ⟨p, tr, hrange⟩ := h.toCounts.exec_getrange hcount huses
  rw [hslow] at hrange
  have hnext : FullList ctl { d with peer := p, statics := d.statics.startCount count false } count
      listing := ⟨h.toCounts.next _ _, h.uidl⟩
  obtain ⟨p', tr', huidl⟩ := hnext.exec_doUidl rfl
  refine ⟨p', tr ++ tr', ?_⟩
  rw [hrange, huidl]

end

end Fetchmail.Pop3
