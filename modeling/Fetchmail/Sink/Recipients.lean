import Fetchmail.Sink.Delivery

/-!
# The Envelope, Reply by Reply

What `open_smtp_sink` makes of a message depends on the listener's replies alone: the one
to `MAIL FROM`, one for each recipient, then those to the postmaster and to `DATA`. The
dialogue is computed here from these replies: which are read, how the recipients are
counted and marked, and how the rest goes on.
-/

namespace Fetchmail.Sink

open Fetchmail.Lib
open Fetchmail.Driver

/-! ## Replies -/

/-- A reply, as `SMTP_ok` judges and saves it. -/
structure Reply where
  status : SmtpStatus
  text : Bytes
  deriving DecidableEq, Repr

/-- The next reply, and the lines after it. -/
def nextReply (lines : List Bytes) : Reply × List Bytes :=
  let r := smtpOkLoop [] lines
  (⟨r.1, r.2.1⟩, r.2.2)

/-- The next `n` replies, or those up to the one that breaks the connection. -/
def readReplies : Nat → List Bytes → List Reply × List Bytes
  | 0, lines => ([], lines)
  | n + 1, lines =>
    let r := nextReply lines
    if r.1.status = .unrecoverable then ([r.1], r.2)
    else
      let rest := readReplies n r.2
      (r.1 :: rest.1, rest.2)

/-- The connection lasts through all these replies. -/
def Lasting (replies : List Reply) : Prop := ∀ r ∈ replies, r.status ≠ .unrecoverable

instance (replies : List Reply) : Decidable (Lasting replies) :=
  inferInstanceAs (Decidable (∀ r ∈ replies, r.status ≠ .unrecoverable))

/-- What a reply leaves in the trace. -/
def Reply.answer (stage : Stage) (r : Reply) : List Answer :=
  if r.status = .unrecoverable then [] else [.reply stage r.status r.text]

section

variable {ω : Type} {k : SinkCtl} {x : External ω} {w : Listener ω}

/-- The listener after `n` commands of a kind have been answered. -/
def Listener.hear (w : Listener ω) (stage : Stage) (n : Nat) : Listener ω :=
  let r := readReplies n w.replies
  { w with
    replies := r.2
    smtpResponse := r.1.foldl (fun _ reply => reply.text) w.smtpResponse
    wire := w.wire ++ r.1.map fun reply => .exchange stage reply.status reply.text }

@[simp]
theorem lasting_nil : Lasting [] := by
  simp [Lasting]

@[simp]
theorem lasting_cons {r : Reply} {rs : List Reply} :
    Lasting (r :: rs) ↔ r.status ≠ .unrecoverable ∧ Lasting rs := by
  simp [Lasting]

theorem readReplies_one (lines : List Bytes) :
    readReplies 1 lines = ([(nextReply lines).1], (nextReply lines).2) := by
  simp only [readReplies]
  split <;> rfl

/-- As many replies as asked for, if the connection lasts. -/
theorem length_readReplies {n : Nat} {lines : List Bytes} (h : Lasting (readReplies n lines).1) :
    (readReplies n lines).1.length = n := by
  induction n generalizing lines with
  | zero => rfl
  | succ n ih =>
    simp only [readReplies] at h ⊢
    split at h
    · next hbroken => simp [hbroken] at h
    · next hfine =>
      simp only [hfine, if_false, List.length_cons]
      rw [ih (lasting_cons.mp h).2]

/-- **Step.** One command reads one reply. -/
theorem smtpOk_run (stage : Stage) (w : Listener ω) :
    (smtpOk stage).run w =
      ⟨(nextReply w.replies).1.status, w.hear stage 1, (nextReply w.replies).1.answer stage⟩ := by
  simp only [smtpOk, Act.run_bind, Act.run_gets, Act.run_modify, Listener.hear, readReplies_one]
  simp only [nextReply, Reply.answer, List.nil_append, List.map_cons, List.map_nil,
    List.foldl_cons, List.foldl_nil]
  by_cases h : (smtpOkLoop [] w.replies).1 = .unrecoverable
  · simp [h]
  · simp [h]

/-- A piece of dialogue reads its replies and leaves the rest of the world alone. -/
theorem smtpOk_hears (stage : Stage) :
    (smtpOk stage).wp (fun status w' tr => status = (nextReply w.replies).1.status ∧
      w' = w.hear stage 1 ∧ tr = (nextReply w.replies).1.answer stage) w := by
  unfold Act.wp
  rw [smtpOk_run]
  exact ⟨rfl, rfl, rfl⟩

/-! ## The recipients -/

/-- What one reply to `RCPT TO` adds to the tally. -/
def Tally.count (k : SinkCtl) (t : Tally) (r : Reply) : Tally :=
  match r.status with
  | .unrecoverable => t
  | .ok => { t with good := t.good + 1 }
  | .error =>
    match handleSmtpReportWithoutBounce k r.text with
    | .transient => { t with forceTransient := true }
    | .success => { t with fromResponses := t.fromResponses ++ [r.text] }
    | _ => t

/-- A reply that the listener takes the recipient for a bad one with. -/
def Reply.bad (k : SinkCtl) (r : Reply) : Prop :=
  r.status = .error ∧ handleSmtpReportWithoutBounce k r.text = .success

instance (k : SinkCtl) (r : Reply) : Decidable (r.bad k) :=
  inferInstanceAs (Decidable (_ ∧ _))

/-- What it does to the mark. -/
def Recipient.judged (k : SinkCtl) (rc : Recipient) (r : Reply) : Recipient :=
  if r.bad k then { rc with mark := .rcptbad } else rc

/-- The recipients after as many replies to `RCPT TO`. -/
def markAll (k : SinkCtl) : List Recipient → List Reply → List Recipient
  | [], _ => []
  | rc :: rcs, replies =>
    if rc.mark ≠ .accept then rc :: markAll k rcs replies
    else match replies with
      | [] => rc :: rcs
      | r :: rs => rc.judged k r :: markAll k rcs rs

/-- The number of recipients that a `RCPT TO` is sent for. -/
def wanted (rcs : List Recipient) : Nat := rcs.countP fun rc => rc.mark = .accept

theorem rcptTo_skipped {rc : Recipient} (t : Tally) (h : rc.mark ≠ .accept) :
    (rcptTo k rc t).run w = ⟨some (rc, t), w, []⟩ := by
  simp [rcptTo, h]

theorem rcptTo_run {rc : Recipient} (t : Tally) (h : rc.mark = .accept) :
    (rcptTo k rc t).run w =
      ⟨if (nextReply w.replies).1.status = .unrecoverable then none
        else some (rc.judged k (nextReply w.replies).1, t.count k (nextReply w.replies).1),
        w.hear .rcpt 1, (nextReply w.replies).1.answer .rcpt⟩ := by
  have htext : (w.hear .rcpt 1).smtpResponse = (nextReply w.replies).1.text := by
    simp [Listener.hear, readReplies_one]
  simp only [rcptTo, h, ne_eq, not_true_eq_false, if_false, Act.run_bind, smtpOk_run]
  generalize (nextReply w.replies).1 = r at *
  obtain ⟨status, text⟩ := r
  cases status with
  | unrecoverable => simp
  | ok => simp [Tally.count, Recipient.judged, Reply.bad]
  | error =>
    simp only [Act.run_bind, Act.run_gets, htext]
    cases hcase : handleSmtpReportWithoutBounce k text <;>
      simp [Tally.count, Recipient.judged, Reply.bad, hcase]

theorem markAll_nil (rcs : List Recipient) : markAll k rcs [] = rcs := by
  induction rcs with
  | nil => rfl
  | cons rc rcs ih => simp [markAll, ih]

theorem hear_zero (w : Listener ω) (stage : Stage) : w.hear stage 0 = w := by
  simp [Listener.hear, readReplies]

/-- Hearing one reply more. -/
theorem hear_succ {stage : Stage} {n : Nat} (h : (nextReply w.replies).1.status ≠ .unrecoverable) :
    (w.hear stage 1).hear stage n = w.hear stage (n + 1) := by
  have hreplies : (w.hear stage 1).replies = (nextReply w.replies).2 := by
    simp [Listener.hear, readReplies_one]
  unfold Listener.hear at hreplies ⊢
  simp only [readReplies_one] at hreplies ⊢
  simp only [readReplies, h, if_false]
  simp

theorem hear_broken {stage : Stage} {n : Nat} (h : (nextReply w.replies).1.status = .unrecoverable) :
    w.hear stage (n + 1) = w.hear stage 1 := by
  simp [Listener.hear, readReplies, h]

/-- **Run.** The loop reads a reply for each recipient that is wanted, until the connection
breaks, and counts and marks by them. -/
theorem rcptLoop_run (k : SinkCtl) (rcs : List Recipient) (t : Tally) (w : Listener ω) :
    (rcptLoop k rcs t).run w =
      ⟨(decide (Lasting (readReplies (wanted rcs) w.replies).1),
          (readReplies (wanted rcs) w.replies).1.foldl (Tally.count k) t,
          markAll k rcs (readReplies (wanted rcs) w.replies).1),
        w.hear .rcpt (wanted rcs),
        (readReplies (wanted rcs) w.replies).1.flatMap (Reply.answer .rcpt)⟩ := by
  induction rcs generalizing t w with
  | nil => simp [rcptLoop, wanted, readReplies, markAll, hear_zero]
  | cons rc rcs ih =>
    unfold rcptLoop
    by_cases hmark : rc.mark = .accept
    · have hwanted : wanted (rc :: rcs) = wanted rcs + 1 := by simp [wanted, hmark]
      rw [Act.run_bind, rcptTo_run t hmark, hwanted]
      by_cases hbroken : (nextReply w.replies).1.status = .unrecoverable
      · simp [hbroken, readReplies, hear_broken hbroken, Tally.count, markAll, hmark,
          Recipient.judged, Reply.bad, markAll_nil]
      · simp only [hbroken, if_false, Act.run_bind, ih, Act.run_pure, hear_succ hbroken]
        have hreplies : (w.hear .rcpt 1).replies = (nextReply w.replies).2 := by
          simp [Listener.hear, readReplies_one]
        simp [hreplies, readReplies, hbroken, markAll, hmark]
    · have hwanted : wanted (rc :: rcs) = wanted rcs := by simp [wanted, hmark]
      rw [Act.run_bind, rcptTo_skipped t hmark, hwanted]
      simp [ih, markAll, hmark]

/-! ## The tally -/

/-- A reply after which the message is to be tried again. -/
def Reply.deferred (k : SinkCtl) (r : Reply) : Prop :=
  r.status = .error ∧ handleSmtpReportWithoutBounce k r.text = .transient

instance (k : SinkCtl) (r : Reply) : Decidable (r.deferred k) :=
  inferInstanceAs (Decidable (_ ∧ _))

/-- What a list of replies adds to the tally. -/
theorem foldl_count (k : SinkCtl) (rs : List Reply) (t : Tally) :
    rs.foldl (Tally.count k) t =
      ⟨t.good + rs.countP (fun r => r.status = .ok),
        t.fromResponses ++ (rs.filter fun r => r.bad k).map Reply.text,
        t.forceTransient || rs.any fun r => r.deferred k⟩ := by
  induction rs generalizing t with
  | nil => simp
  | cons r rs ih =>
    obtain ⟨status, text⟩ := r
    rw [List.foldl_cons, ih]
    cases status with
    | unrecoverable => simp [Tally.count, Reply.bad, Reply.deferred]
    | ok =>
      simp [Tally.count, Reply.bad, Reply.deferred]
      omega
    | error =>
      cases hcase : handleSmtpReportWithoutBounce k text <;>
        simp [Tally.count, Reply.bad, Reply.deferred, hcase]

/-- The replies to the recipients of the current message, and the lines after them. -/
def rcptReplies (w : Listener ω) : List Reply :=
  (readReplies (wanted w.msg.recipients) (nextReply w.replies).2).1

def rcptRest (w : Listener ω) : List Bytes :=
  (readReplies (wanted w.msg.recipients) (nextReply w.replies).2).2

/-- How many recipients were accepted. -/
def goodRcpts (w : Listener ω) : Nat := (rcptReplies w).countP fun r => r.status = .ok

/-! ## The rest of the dialogue -/

/-- The value of `handle_smtp_report`. -/
def reportCode (k : SinkCtl) (smtpResponse : Bytes) : Ps :=
  let smtperr := smtperr smtpResponse
  if smtperr ∈ k.antispam then .refused
  else if smtperr = 552 ∨ smtperr = 553 then .refused
  else if smtperr = 530 then .transient
  else if permanent smtperr then .refused
  else .transient

/-- What no part of the sink changes while it bounces. -/
structure Undisturbed (w w' : Listener ω) : Prop where
  isOpen : w'.isOpen = w.isOpen
  mode : w'.mode = w.mode
  replies : w'.replies = w.replies
  destaddr : w'.destaddr = w.destaddr
  lmtpResponses : w'.lmtpResponses = w.lmtpResponses
  msg : w'.msg = w.msg
  wire : w'.wire = w.wire

theorem Undisturbed.rfl : Undisturbed w w := by constructor <;> simp

theorem Undisturbed.trans {w₁ w₂ : Listener ω} (h : Undisturbed w w₁) (h' : Undisturbed w₁ w₂) :
    Undisturbed w w₂ where
  isOpen := h'.isOpen.trans h.isOpen
  mode := h'.mode.trans h.mode
  replies := h'.replies.trans h.replies
  destaddr := h'.destaddr.trans h.destaddr
  lmtpResponses := h'.lmtpResponses.trans h.lmtpResponses
  msg := h'.msg.trans h.msg
  wire := h'.wire.trans h.wire

theorem bounceDialogue_undisturbed (f : Bytes × ω → Bool × Bytes × ω) :
    (bounceDialogue f).wp (fun _ w' tr => Undisturbed w w' ∧ tr = []) w := by
  simp only [bounceDialogue, Act.wp_lift, and_true]
  constructor <;> simp

/-- Bounces go over connections of their own. -/
theorem sendBouncemail_undisturbed (userclass : Xmit) (message : Bytes) (errors : List Bytes) :
    (sendBouncemail k x userclass message errors).wp
      (fun _ w' tr => Undisturbed w w' ∧ tr = []) w := by
  unfold sendBouncemail
  simp only [Act.wp_bind, Act.wp_gets, Act.wp_ite, Act.wp_pure, Act.wp_modify, List.nil_append]
  refine ⟨fun _ => ⟨.rfl, trivial⟩, fun _ => ?_⟩
  refine Act.wp_mono (bounceDialogue_undisturbed _) fun accepted w₁ tr₁ h₁ => ?_
  refine ⟨fun _ => ⟨h₁.1, by simp [h₁.2]⟩, fun _ => ?_⟩
  refine Act.wp_mono (bounceDialogue_undisturbed _) fun sent w₂ tr₂ h₂ => ?_
  refine ⟨h₁.1.trans (.trans ?_ h₂.1), by simp [h₁.2, h₂.2]⟩
  constructor <;> simp

theorem bounceIf_undisturbed (wanted : Bool) (message response : Bytes) :
    (bounceIf k x wanted message response).wp (fun _ w' tr => Undisturbed w w' ∧ tr = []) w := by
  cases wanted with
  | false => exact ⟨.rfl, rfl⟩
  | true =>
    simp only [bounceIf, if_true, Act.wp_bind, Act.wp_pure, List.append_nil]
    exact sendBouncemail_undisturbed _ _ _

theorem bounceRejected_undisturbed (fromResponses : List Bytes) :
    (bounceRejected k x fromResponses).wp (fun _ w' tr => Undisturbed w w' ∧ tr = []) w := by
  unfold bounceRejected
  simp only [Act.wp_ite, Act.wp_bind, Act.wp_pure, List.append_nil]
  exact ⟨fun _ => sendBouncemail_undisturbed _ _ _, fun _ => ⟨.rfl, trivial⟩⟩

/-- The report on a negative reply is a matter of its code. -/
theorem handleSmtpReport_undisturbed :
    (handleSmtpReport k x).wp (fun err w' tr => err = reportCode k w.smtpResponse ∧
      Undisturbed w w' ∧ tr = []) w := by
  unfold handleSmtpReport reportCode
  simp only [Act.wp_bind, Act.wp_gets, Act.wp_ite, Act.wp_pure, List.nil_append, List.append_nil]
  generalize smtperr w.smtpResponse = code
  refine ⟨fun hspam => ?_, fun hspam => ⟨fun h552 => ?_, fun h552 => ⟨fun h553 => ?_, fun h553 =>
    ⟨fun h530 => ?_, fun h530 => ⟨fun hperm => ?_, fun hperm => ?_⟩⟩⟩⟩⟩
  · refine Act.wp_mono (bounceIf_undisturbed _ _ _) fun _ _ _ h => ⟨?_, h⟩
    simp [hspam]
  · refine Act.wp_mono (bounceIf_undisturbed _ _ _) fun _ _ _ h => ⟨?_, h⟩
    simp [h552]
  · exact ⟨by simp [h553], .rfl, trivial⟩
  · subst h530
    exact ⟨by simp [hspam], .rfl, trivial⟩
  · refine Act.wp_mono (bounceIf_undisturbed _ _ _) fun _ _ _ h => ⟨?_, h⟩
    simp [hspam, h552, h553, h530, hperm]
  · exact ⟨by simp [hspam, h552, h553, h530, hperm], .rfl, trivial⟩

/-- The listener did not let the message in. -/
def NoData (tr : List Answer) : Prop := ∀ text, .reply .data .ok text ∉ tr

theorem noData_nil : NoData [] := by
  simp [NoData]

theorem noData_append {a b : List Answer} : NoData (a ++ b) ↔ NoData a ∧ NoData b := by
  simp [NoData, forall_and]

theorem noData_answer {stage : Stage} {r : Reply} (h : stage ≠ .data ∨ r.status ≠ .ok) :
    NoData (r.answer stage) := by
  intro text hmem
  unfold Reply.answer at hmem
  split at hmem
  · simp at hmem
  · simp only [List.mem_singleton, Answer.reply.injEq] at hmem
    obtain ⟨hstage, hstatus, -⟩ := hmem
    rcases h with h | h
    · exact h hstage.symm
    · exact h hstatus.symm

theorem smtpClose_noData (w : Listener ω) :
    (smtpClose false : SmtpM ω Unit).wp (fun _ _ tr => NoData tr) w := by
  simp [smtpClose, noData_nil]

theorem smtpRset_noData (w : Listener ω) :
    (smtpRset : SmtpM ω Unit).wp (fun _ _ tr => NoData tr) w := by
  unfold smtpRset
  simp only [Act.wp_bind]
  refine Act.wp_mono (smtpOk_hears .rset) fun status w₁ tr₁ h₁ => ?_
  obtain ⟨-, -, rfl⟩ := h₁
  have hrset : NoData ((nextReply w.replies).1.answer .rset) := noData_answer (.inl (by simp))
  simp only [Act.wp_ite, Act.wp_pure, List.append_nil]
  exact ⟨fun _ => Act.wp_mono (smtpClose_noData _) fun _ _ _ h => noData_append.mpr ⟨hrset, h⟩,
    fun _ => hrset⟩

/-- `DATA` is not accepted, in a way that keeps the message. -/
def dataDefers (k : SinkCtl) (lines : List Bytes) : Prop :=
  (nextReply lines).1.status = .unrecoverable ∨
    (nextReply lines).1.status = .error ∧ reportCode k (nextReply lines).1.text = .transient

/-- After the recipients, of whom `good` were accepted, the dialogue comes to an end that
keeps the message. -/
def restDefers (k : SinkCtl) (good : Nat) (lines : List Bytes) : Prop :=
  if good = 0 then
    k.postmaster ≠ [] ∧ ((nextReply lines).1.status = .unrecoverable ∨
      (nextReply lines).1.status = .ok ∧ dataDefers k (nextReply lines).2)
  else dataDefers k lines

/-- What the end of `open_smtp_sink` does: whether it keeps the message, that `DATA` was
accepted if and only if it succeeds, and what it leaves to `close_sink` then. -/
structure MessageOpened (k : SinkCtl) (good : Nat) (w : Listener ω) (keeps : Prop) (err : Ps)
    (w' : Listener ω) (tr : List Answer) : Prop where
  transient : err = .transient ↔ keeps
  unopened : err ≠ .success → NoData tr
  responses : err = .success → w'.lmtpResponses = good
  mode : err = .success → w'.mode = w.mode
  msg : err = .success → w'.msg = w.msg

theorem reportCode_ne_success (text : Bytes) : reportCode k text ≠ .success := by
  unfold reportCode
  simp only
  split <;> (try split) <;> (try split) <;> (try split) <;> simp

theorem openData_opens (good : Nat) :
    (openData k x good).wp (MessageOpened k good w (dataDefers k w.replies)) w := by
  unfold openData
  simp only [Act.wp_bind]
  refine Act.wp_mono (smtpOk_hears .data) fun status w₁ tr₁ h₁ => ?_
  obtain ⟨rfl, rfl, rfl⟩ := h₁
  have htext : (w.hear .data 1).smtpResponse = (nextReply w.replies).1.text := by
    simp [Listener.hear, readReplies_one]
  have hmode : (w.hear .data 1).mode = w.mode := rfl
  have hmsg : (w.hear .data 1).msg = w.msg := rfl
  have hdata : (nextReply w.replies).1.status ≠ .ok → NoData ((nextReply w.replies).1.answer .data) :=
    fun h => noData_answer (.inr h)
  unfold dataDefers
  generalize (nextReply w.replies).1 = r at *
  generalize w.hear .data 1 = w₁ at *
  obtain ⟨status, text⟩ := r
  cases status with
  | unrecoverable =>
    simp only [Act.wp_bind, Act.wp_pure]
    refine Act.wp_mono (smtpClose_noData w₁) fun _ w₂ tr₂ h₂ => ?_
    have htr := noData_append.mpr ⟨hdata (by simp), h₂⟩
    constructor <;> simp [htr]
  -- the listener refuses the text, and the reply says what becomes of the message
  | error =>
    simp only [Act.wp_bind, Act.wp_pure]
    refine Act.wp_mono handleSmtpReport_undisturbed fun err w₂ tr₂ h₂ => ?_
    obtain ⟨rfl, -, rfl⟩ := h₂
    refine Act.wp_mono (smtpRset_noData w₂) fun _ w₃ tr₃ h₃ => ?_
    have htr := noData_append.mpr ⟨hdata (by simp), h₃⟩
    rw [htext]
    have hne := reportCode_ne_success (k := k) text
    constructor <;> simp [htr, hne]
  | ok =>
    simp only [Act.wp_bind, Act.wp_modify, Act.wp_pure]
    constructor <;> simp [hmode, hmsg]

theorem openMessage_opens (good : Nat) :
    (openMessage k x good).wp (MessageOpened k good w (restDefers k good w.replies)) w := by
  unfold openMessage restDefers
  by_cases hgood : good = 0
  · simp only [hgood, if_true, Act.wp_bind, rcptPostmaster]
    -- nobody has accepted the message: the postmaster may get it
    by_cases hpost : k.postmaster = []
    · simp only [hpost, if_true, Act.wp_bind, Act.wp_pure]
      refine Act.wp_mono (smtpRset_noData w) fun _ w₁ tr₁ h₁ => ?_
      constructor <;> simp [h₁]
    · simp only [hpost, if_false, Act.wp_bind]
      refine Act.wp_mono (smtpOk_hears .postmaster) fun status w₁ tr₁ h₁ => ?_
      obtain ⟨rfl, rfl, rfl⟩ := h₁
      have hreplies : (w.hear .postmaster 1).replies = (nextReply w.replies).2 := by
        simp [Listener.hear, readReplies_one]
      have hmode : (w.hear .postmaster 1).mode = w.mode := rfl
      have hmsg : (w.hear .postmaster 1).msg = w.msg := rfl
      have hrcpt : NoData ((nextReply w.replies).1.answer .postmaster) :=
        noData_answer (.inl (by simp))
      rw [← hreplies]
      generalize (nextReply w.replies).1 = r at *
      generalize w.hear .postmaster 1 = w₁ at *
      obtain ⟨status, text⟩ := r
      cases status with
      -- the listener is gone
      | unrecoverable =>
        simp only [Act.wp_bind, Act.wp_pure]
        refine Act.wp_mono (smtpClose_noData w₁) fun _ w₂ tr₂ h₂ => ?_
        have htr := noData_append.mpr ⟨hrcpt, h₂⟩
        constructor <;> simp [htr, hpost]
      | error =>
        simp only [Act.wp_bind, Act.wp_pure]
        refine Act.wp_mono (smtpRset_noData w₁) fun _ w₂ tr₂ h₂ => ?_
        have htr := noData_append.mpr ⟨hrcpt, h₂⟩
        constructor <;> simp [htr]
      | ok =>
        simp only [Act.wp_pure]
        refine Act.wp_mono (openData_opens 0) fun err w₂ tr₂ h₂ => ?_
        refine ⟨?_, fun h => ?_, h₂.responses, fun h => ?_, fun h => ?_⟩
        · simpa [hpost] using h₂.transient
        · exact noData_append.mpr ⟨by simpa using hrcpt, h₂.unopened h⟩
        · exact (h₂.mode h).trans hmode
        · exact (h₂.msg h).trans hmsg
  · simp only [hgood, if_false]
    exact openData_opens good

/-! ## The whole of `open_smtp_sink` -/

/-- The message with the marks that its recipients have earned. -/
def markedMsg (k : SinkCtl) (w : Listener ω) : Msgblk :=
  { w.msg with recipients := markAll k w.msg.recipients (rcptReplies w) }

/-- What `open_smtp_sink` does, in terms of the replies. -/
structure SinkOpened (k : SinkCtl) (w : Listener ω) (o : Opened) (w' : Listener ω)
    (tr : List Answer) : Prop where
  bad : o.bad = 0
  accepted : o.err = .success → (nextReply w.replies).1.status = .ok ∧ Lasting (rcptReplies w) ∧
    ∀ r ∈ rcptReplies w, ¬ r.deferred k
  deferred : (nextReply w.replies).1.status = .ok →
    (¬ Lasting (rcptReplies w) ∨ ∃ r ∈ rcptReplies w, r.deferred k) → o.err = .transient
  rest : (nextReply w.replies).1.status = .ok → Lasting (rcptReplies w) →
    (∀ r ∈ rcptReplies w, ¬ r.deferred k) →
      (o.err = .transient ↔ restDefers k (goodRcpts w) (rcptRest w))
  unopened : o.err ≠ .success → NoData tr
  good : o.err = .success → o.good = goodRcpts w
  responses : o.err = .success → w'.lmtpResponses = goodRcpts w
  mode : o.err = .success → w'.mode = w.mode
  msg : o.err = .success → w'.msg = markedMsg k w

theorem noData_rcpt (rs : List Reply) : NoData (rs.flatMap (Reply.answer .rcpt)) := by
  induction rs with
  | nil => exact noData_nil
  | cons r rs ih =>
    rw [List.flatMap_cons]
    exact noData_append.mpr ⟨noData_answer (.inl (by simp)), ih⟩

/-- The recipients asked for, from the reply to `MAIL FROM` on. -/
theorem rcptLoop_asked {w₀ : Listener ω} (hw : w = w₀.hear .mailFrom 1) :
    (rcptLoop k w.msg.recipients ⟨0, [], false⟩).wp (fun o w' tr =>
      o = (decide (Lasting (rcptReplies w₀)),
        ⟨goodRcpts w₀, ((rcptReplies w₀).filter fun r => r.bad k).map Reply.text,
          (rcptReplies w₀).any fun r => r.deferred k⟩,
        markAll k w₀.msg.recipients (rcptReplies w₀)) ∧
      w'.replies = rcptRest w₀ ∧ w'.msg = w₀.msg ∧ w'.mode = w₀.mode ∧
      tr = (rcptReplies w₀).flatMap (Reply.answer .rcpt)) w := by
  have hreplies : w.replies = (nextReply w₀.replies).2 := by
    simp [hw, Listener.hear, readReplies_one]
  have hmsg : w.msg = w₀.msg := by simp [hw, Listener.hear]
  have hmode : w.mode = w₀.mode := by simp [hw, Listener.hear]
  have hrcpts : (readReplies (wanted w.msg.recipients) w.replies).1 = rcptReplies w₀ := by
    rw [hreplies, hmsg, rcptReplies]
  unfold Act.wp
  rw [rcptLoop_run, hrcpts, foldl_count]
  refine ⟨by simp [hmsg, goodRcpts], ?_, hmsg, hmode, rfl⟩
  rw [Listener.hear, hreplies, hmsg, rcptRest]

theorem openRecipients_opens {w₀ : Listener ω} (hw : w = w₀.hear .mailFrom 1)
    (hmail : (nextReply w₀.replies).1.status = .ok) :
    (openRecipients k x).wp (SinkOpened k w₀) w := by
  unfold openRecipients
  simp only [Act.wp_bind, Act.wp_gets, Act.wp_modify, List.nil_append]
  refine Act.wp_mono (rcptLoop_asked (k := k) hw) fun o w₁ tr₁ h₁ => ?_
  obtain ⟨rfl, hrest, hmsg, hmode, htr₁⟩ := h₁
  replace htr₁ : NoData tr₁ := htr₁ ▸ noData_rcpt _
  simp only [Act.wp_ite, Act.wp_bind, Act.wp_pure, Bool.not_eq_true', decide_eq_false_iff_not,
    not_not, List.append_nil]
  refine ⟨fun hbroken => ?_, fun hlast => ⟨fun hdef => ?_, fun hdef => ?_⟩⟩
  · refine Act.wp_mono (smtpClose_noData _) fun _ w₂ tr₂ h₂ => ?_
    constructor <;> simp [hbroken, noData_append, htr₁, h₂]
  · -- a recipient is to be tried again
    have hex : ∃ r ∈ rcptReplies w₀, r.deferred k := by simpa using hdef
    refine Act.wp_mono (smtpRset_noData _) fun _ w₂ tr₂ h₂ => ?_
    refine ⟨rfl, by simp, fun _ _ => rfl, fun _ _ hnone => ?_, fun _ => ?_, by simp, by simp,
      by simp, by simp⟩
    · obtain ⟨r, hr, hdef⟩ := hex
      exact absurd hdef (hnone r hr)
    · exact noData_append.mpr ⟨htr₁, h₂⟩
  -- the rejected recipients are bounced, and the message goes to the others
  · have hnone : ∀ r ∈ rcptReplies w₀, ¬ r.deferred k := by simpa using hdef
    refine Act.wp_mono (bounceRejected_undisturbed _) fun _ w₂ tr₂ h₂ => ?_
    obtain ⟨h₂, rfl⟩ := h₂
    refine Act.wp_mono (openMessage_opens (goodRcpts w₀)) fun err w₃ tr₃ h₃ => ?_
    rw [h₂.replies, hrest] at h₃
    refine ⟨rfl, fun _ => ⟨hmail, hlast, hnone⟩, fun _ hor => ?_, fun _ _ _ => h₃.transient,
      fun h => ?_, fun _ => rfl, h₃.responses, fun h => ?_, fun h => ?_⟩
    · rcases hor with hbroken | ⟨r, hr, hdef⟩
      · exact absurd hlast hbroken
      · exact absurd hdef (hnone r hr)
    · simpa using noData_append.mpr ⟨htr₁, h₃.unopened h⟩
    · exact ((h₃.mode h).trans h₂.mode).trans hmode
    · rw [h₃.msg h, h₂.msg, markedMsg, hmsg]

theorem openSmtpSink_opens (k : SinkCtl) (x : External ω) (w : Listener ω) :
    (openSmtpSink k x).wp (SinkOpened k w) w := by
  unfold openSmtpSink
  simp only [Act.wp_bind]
  refine Act.wp_mono (smtpOk_hears .mailFrom) fun status w₁ tr₁ h₁ => ?_
  obtain ⟨rfl, hw₁, rfl⟩ := h₁
  have hmail : NoData ((nextReply w.replies).1.answer .mailFrom) := noData_answer (.inl (by simp))
  cases hstatus : (nextReply w.replies).1.status with
  | unrecoverable =>
    simp only [Act.wp_bind, Act.wp_pure, List.append_nil]
    refine Act.wp_mono (smtpClose_noData w₁) fun _ w₂ tr₂ h₂ => ?_
    constructor <;> simp [hstatus, noData_append, hmail, h₂]
  | error =>
    simp only [Act.wp_bind, Act.wp_pure, List.append_nil]
    refine Act.wp_mono handleSmtpReport_undisturbed fun err w₂ tr₂ h₂ => ?_
    obtain ⟨rfl, -, rfl⟩ := h₂
    refine Act.wp_mono (smtpRset_noData w₂) fun _ w₃ tr₃ h₃ => ?_
    have hne := reportCode_ne_success (k := k) w₁.smtpResponse
    constructor <;> simp [hstatus, noData_append, hmail, h₃, hne]
  | ok =>
    refine Act.wp_mono (openRecipients_opens (k := k) (x := x) hw₁ hstatus) fun o w₂ tr₂ h₂ => ?_
    exact { h₂ with unopened := fun h => noData_append.mpr ⟨hmail, h₂.unopened h⟩ }

end

/-! ## A listener by its lines -/

/-- Nobody else's business. -/
def quietExternal : External Unit where
  collect _ _ _ _ w := (.early ⟨.success, false, 0⟩, w)
  stale w := (false, w)
  hunt w := (⟨false, .smtp, [], [], [], false⟩, w)
  ship _ _ w := (⟨.success, false, 0⟩, w)
  readbody _ _ w := (.success, w)
  bounceHost := ⟨Bytes.lit "localhost", Bytes.lit "foo", []⟩
  bounceOpen _ w := (true, [], w.2)
  bounceClose _ w := (true, [], w.2)

/-- No special replies, bounces wanted. -/
def quietCtl : SinkCtl where
  antispam := []
  batchlimit := 0
  smtpname := none
  bouncemail := true
  spambounce := false
  postmaster := Bytes.lit "root"

/-- A listener with two recipients to be asked for, and its replies. -/
def listenerSaying (mode : Mode) (replies : List Bytes) : Listener Unit where
  isOpen := true
  mode := mode
  replies := replies
  destaddr := Bytes.lit "localhost"
  batchcount := 0
  smtpResponse := []
  lmtpResponses := 0
  msg := ⟨none, [⟨Bytes.lit "ann", .accept⟩, ⟨Bytes.lit "bob", .accept⟩],
    Bytes.lit "sender@example.org"⟩
  wire := []
  bounces := []
  rest := ()

end Fetchmail.Sink
