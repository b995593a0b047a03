import Fetchmail.Sink.Recipients
import Mathlib.Data.List.Basic

/-!
# Replies to an LMTP Message

An LMTP listener answers the end of a message once for every recipient that it accepted.
`open_smtp_sink` leaves their number in `lmtp_responses`, where `close_sink` finds it. The
postmaster, who is asked when no recipient is accepted, does not count: then `close_sink`
still reads one reply, the right number, but takes it for a protocol violation whatever it
says.

If some replies are negative, `close_sink` sends a bounce with their texts. The bounce pairs
them with the recipients marked `XMIT_ACCEPT`, in order; which of these were delivered to,
or refused at `RCPT TO` without losing the mark, it cannot know.
-/

namespace Fetchmail.Sink

open Fetchmail.Lib
open Fetchmail.Driver

section

variable {ω : Type} {k : SinkCtl} {x : External ω} {w : Listener ω}

/-! ## Reading the replies -/

/-- The replies to the end of an LMTP message that are on record. -/
def eomAnswers (tr : List Answer) : List Reply :=
  tr.filterMap fun
    | .reply (.eom .lmtp) status text => some ⟨status, text⟩
    | _ => none

/-- The replies that were complete. -/
def complete (rs : List Reply) : List Reply := rs.filter fun r => r.status ≠ .unrecoverable

/-- The negative ones. -/
def negative (rs : List Reply) : List Reply := rs.filter fun r => r.status = .error

theorem eomAnswers_append (a b : List Answer) :
    eomAnswers (a ++ b) = eomAnswers a ++ eomAnswers b := List.filterMap_append

theorem eomAnswers_answer (r : Reply) : eomAnswers (r.answer (.eom .lmtp)) = complete [r] := by
  unfold Reply.answer complete
  by_cases h : r.status = .unrecoverable <;> simp [eomAnswers, h]

theorem eomAnswers_flatMap (rs : List Reply) :
    eomAnswers (rs.flatMap (Reply.answer (.eom .lmtp))) = complete rs := by
  induction rs with
  | nil => rfl
  | cons r rs ih =>
    have hcons : complete (r :: rs) = complete [r] ++ complete rs := by
      rw [complete, complete, complete, ← List.filter_append, List.singleton_append]
    rw [List.flatMap_cons, eomAnswers_append, eomAnswers_answer, ih, hcons]

/-- **Run.** The loop reads as many replies as it is told to, or up to a broken one, and
keeps the texts of the negative ones. -/
theorem lmtpReplies_run (n : Nat) (errors : List Bytes) (w : Listener ω) :
    (lmtpReplies n errors).run w =
      ⟨if Lasting (readReplies n w.replies).1 then
          some (errors ++ (negative (readReplies n w.replies).1).map Reply.text)
        else none,
        w.hear (.eom .lmtp) n, (readReplies n w.replies).1.flatMap (Reply.answer (.eom .lmtp))⟩ := by
  induction n generalizing errors w with
  | zero => simp [lmtpReplies, readReplies, negative, hear_zero]
  | succ n ih =>
    have htext : (w.hear (.eom .lmtp) 1).smtpResponse = (nextReply w.replies).1.text := by
      simp [Listener.hear, readReplies_one]
    have hreplies : (w.hear (.eom .lmtp) 1).replies = (nextReply w.replies).2 := by
      simp [Listener.hear, readReplies_one]
    rw [lmtpReplies, Act.run_bind, smtpOk_run]
    cases hstatus : (nextReply w.replies).1.status with
    | unrecoverable => simp [hstatus, readReplies, hear_broken hstatus]
    | ok =>
      have hhear : (w.hear (.eom .lmtp) 1).hear (.eom .lmtp) n = w.hear (.eom .lmtp) (n + 1) :=
        hear_succ (by simp [hstatus])
      simp [hstatus, ih, hhear, hreplies, readReplies, negative]
    | error =>
      have hhear : (w.hear (.eom .lmtp) 1).hear (.eom .lmtp) n = w.hear (.eom .lmtp) (n + 1) :=
        hear_succ (by simp [hstatus])
      simp [hstatus, ih, hhear, hreplies, htext, readReplies, negative]

theorem lmtpReplies_hears (n : Nat) (errors : List Bytes) (w : Listener ω) :
    (lmtpReplies n errors).wp (fun o w' tr =>
      o = (if Lasting (readReplies n w.replies).1 then
          some (errors ++ (negative (readReplies n w.replies).1).map Reply.text)
        else none) ∧
      w' = w.hear (.eom .lmtp) n ∧
      tr = (readReplies n w.replies).1.flatMap (Reply.answer (.eom .lmtp))) w := by
  unfold Act.wp
  rw [lmtpReplies_run]
  exact ⟨rfl, rfl, rfl⟩

/-! ## What `open_smtp_sink` announced -/

/-- The number of `RCPT TO` commands, the postmaster's included, that were accepted. -/
def acceptedRcpts (tr : List Answer) : Nat :=
  tr.countP fun
    | .reply .rcpt .ok _ | .reply .postmaster .ok _ => true
    | _ => false

@[simp]
theorem acceptedRcpts_nil : acceptedRcpts [] = 0 := rfl

@[simp]
theorem acceptedRcpts_append (a b : List Answer) :
    acceptedRcpts (a ++ b) = acceptedRcpts a + acceptedRcpts b := List.countP_append

theorem acceptedRcpts_answer {stage : Stage} (h : stage ∉ [Stage.rcpt, .postmaster]) (r : Reply) :
    acceptedRcpts (r.answer stage) = 0 := by
  unfold Reply.answer
  split
  · rfl
  · cases stage <;> simp_all [acceptedRcpts]

theorem acceptedRcpts_rcpts (rs : List Reply) :
    acceptedRcpts (rs.flatMap (Reply.answer .rcpt)) = rs.countP fun r => r.status = .ok := by
  induction rs with
  | nil => rfl
  | cons r rs ih =>
    obtain ⟨status, text⟩ := r
    rw [List.flatMap_cons, acceptedRcpts_append, ih]
    cases status <;> simp [Reply.answer, acceptedRcpts]
    omega

theorem openData_accepts (good : Nat) :
    (openData k x good).wp (fun err _ tr => err = .success → acceptedRcpts tr = 0) w := by
  unfold openData
  simp only [Act.wp_bind]
  refine Act.wp_mono (smtpOk_hears .data) fun status w₁ tr₁ h₁ => ?_
  obtain ⟨-, -, rfl⟩ := h₁
  cases status with
  | unrecoverable =>
    simp only [Act.wp_bind, Act.wp_pure]
    exact Act.wp_mono (smtpClose_noData w₁) fun _ _ _ _ => by simp
  | error =>
    simp only [Act.wp_bind, Act.wp_pure]
    refine Act.wp_mono handleSmtpReport_undisturbed fun err w₂ tr₂ h₂ => ?_
    refine Act.wp_mono (smtpRset_noData w₂) fun _ _ _ _ h => ?_
    exact absurd (h₂.1.symm.trans h) (reportCode_ne_success _)
  | ok =>
    have hnone : acceptedRcpts ((nextReply w.replies).1.answer .data) = 0 :=
      acceptedRcpts_answer (by simp) _
    simpa using hnone

theorem openMessage_accepts (good : Nat) :
    (openMessage k x good).wp (fun err _ tr => err = .success →
      acceptedRcpts tr = if good = 0 then 1 else 0) w := by
  unfold openMessage rcptPostmaster
  by_cases hgood : good = 0
  · simp only [hgood, if_true, Act.wp_bind]
    by_cases hpost : k.postmaster = []
    · simp only [hpost, if_true, Act.wp_bind, Act.wp_pure]
      exact Act.wp_mono (smtpRset_noData w) fun _ _ _ _ => by simp
    · simp only [hpost, if_false, Act.wp_bind]
      refine Act.wp_mono (smtpOk_hears .postmaster) fun status w₁ tr₁ h₁ => ?_
      obtain ⟨hstatus, -, rfl⟩ := h₁
      cases status with
      | unrecoverable =>
        simp only [Act.wp_bind, Act.wp_pure]
        exact Act.wp_mono (smtpClose_noData w₁) fun _ _ _ _ => by simp
      | error =>
        simp only [Act.wp_bind, Act.wp_pure]
        exact Act.wp_mono (smtpRset_noData w₁) fun _ _ _ _ => by simp
      | ok =>
        simp only [Act.wp_pure]
        refine Act.wp_mono (openData_accepts 0) fun err w₂ tr₂ h₂ herr => ?_
        have hone : acceptedRcpts ((nextReply w.replies).1.answer .postmaster) = 1 := by
          simp [Reply.answer, ← hstatus, acceptedRcpts]
        simp [hone, h₂ herr]
  · simp only [hgood, if_false]
    exact openData_accepts good

theorem openSmtpSink_accepts (k : SinkCtl) (x : External ω) (w : Listener ω) :
    (openSmtpSink k x).wp (fun o _ tr => o.err = .success →
      acceptedRcpts tr = goodRcpts w + if goodRcpts w = 0 then 1 else 0) w := by
  unfold openSmtpSink
  simp only [Act.wp_bind]
  refine Act.wp_mono (smtpOk_hears .mailFrom) fun status w₁ tr₁ h₁ => ?_
  obtain ⟨rfl, hw₁, rfl⟩ := h₁
  cases hstatus : (nextReply w.replies).1.status with
  | unrecoverable =>
    simp only [Act.wp_bind, Act.wp_pure]
    exact Act.wp_mono (smtpClose_noData w₁) fun _ _ _ _ => by simp
  | error =>
    simp only [Act.wp_bind, Act.wp_pure]
    refine Act.wp_mono handleSmtpReport_undisturbed fun err w₂ tr₂ h₂ => ?_
    refine Act.wp_mono (smtpRset_noData w₂) fun _ _ _ _ h => ?_
    exact absurd (h₂.1.symm.trans h) (reportCode_ne_success _)
  | ok =>
    -- only the recipients count, and the postmaster where none of them is accepted
    have hmail : acceptedRcpts ((nextReply w.replies).1.answer .mailFrom) = 0 :=
      acceptedRcpts_answer (by simp) _
    simp only [openRecipients, Act.wp_bind, Act.wp_gets, Act.wp_modify, List.nil_append]
    refine Act.wp_mono (rcptLoop_asked (k := k) hw₁) fun o w₂ tr₂ h₂ => ?_
    obtain ⟨rfl, -, -, -, rfl⟩ := h₂
    simp only [Act.wp_ite, Act.wp_bind, Act.wp_pure, List.append_nil]
    refine ⟨fun _ => ?_, fun _ => ⟨fun _ => ?_, fun _ => ?_⟩⟩
    · exact Act.wp_mono (smtpClose_noData _) fun _ _ _ _ => by simp
    · exact Act.wp_mono (smtpRset_noData _) fun _ _ _ _ => by simp
    · refine Act.wp_mono (bounceRejected_undisturbed _) fun _ w₃ tr₃ h₃ => ?_
      obtain ⟨-, rfl⟩ := h₃
      refine Act.wp_mono (openMessage_accepts (goodRcpts w)) fun err w₄ tr₄ h₄ herr => ?_
      simp [hmail, acceptedRcpts_rcpts, goodRcpts, h₄ herr]

/-! ## Closing an LMTP message -/

/-- No bounce is composed: the message is a bounce itself, or the connection for the bounce
is not to be had. -/
def NotBounced (k : SinkCtl) (x : External ω) (w : Listener ω) : Prop :=
  w.msg.bounceable = false ∨
    (x.bounceOpen (if k.bouncemail then w.msg.returnPath else k.postmaster)
      (w.smtpResponse, w.rest)).1 = false

theorem bounceDialogue_bounces (f : Bytes × ω → Bool × Bytes × ω) :
    (bounceDialogue f).wp (fun b w' _ => b = (f (w.smtpResponse, w.rest)).1 ∧
      w'.bounces = w.bounces ∧ w'.msg = w.msg ∧ w'.destaddr = w.destaddr) w := by
  simp [bounceDialogue]

theorem smtpClose_bounces (w : Listener ω) :
    (smtpClose false : SmtpM ω Unit).wp (fun _ w' tr => tr = [] ∧ w'.bounces = w.bounces) w := by
  simp [smtpClose]

theorem sendBouncemail_bounces (userclass : Xmit) (message : Bytes) (errors : List Bytes) :
    (sendBouncemail k x userclass message errors).wp (fun _ w' _ =>
      (NotBounced k x w → w'.bounces = w.bounces) ∧
      (¬ NotBounced k x w → ∃ b, w'.bounces = w.bounces ++ [b] ∧
        b.listed = listing (rcptAddress k.smtpname w.destaddr) userclass errors
          w.msg.recipients 0)) w := by
  unfold sendBouncemail NotBounced
  simp only [Act.wp_bind, Act.wp_gets, Act.wp_ite, Act.wp_pure, Act.wp_modify]
  refine ⟨fun hself => ?_, fun hself => ?_⟩
  · exact ⟨fun _ => trivial, fun h => absurd (.inl (by simpa using hself)) h⟩
  · have hbounceable : w.msg.bounceable = true := by simpa using hself
    refine Act.wp_mono (bounceDialogue_bounces _) fun accepted w₁ _ h₁ => ?_
    obtain ⟨rfl, hbounces, hmsg, hdest⟩ := h₁
    refine ⟨fun hrefused => ?_, fun haccepted => ?_⟩
    · exact ⟨fun _ => hbounces, fun h => absurd (.inr (by simpa using hrefused)) h⟩
    · refine Act.wp_mono (bounceDialogue_bounces _) fun sent w₂ _ h₂ => ⟨fun h => ?_, fun _ => ?_⟩
      · rcases h with h | h
        · simp [hbounceable] at h
        · exact absurd (by simpa using h) haccepted
      · exact ⟨_, by rw [h₂.2.1, hbounces], by rw [hdest]⟩

/-- What the end of an LMTP message comes to, with `n` replies to expect. -/
structure LmtpClosed (k : SinkCtl) (x : External ω) (n : Nat) (w : Listener ω) (ok : Bool)
    (w' : Listener ω) (tr : List Answer) : Prop where
  answers : eomAnswers tr = complete (readReplies (max 1 n) w.replies).1
  left : Lasting (readReplies (max 1 n) w.replies).1 →
    w'.replies = (readReplies (max 1 n) w.replies).2
  unexpected : n = 0 → ok = false
  delivered : n ≠ 0 → (∀ r ∈ (readReplies n w.replies).1, r.status = .ok) → ok = true
  unbounced : n = 0 ∨ ¬ Lasting (readReplies n w.replies).1 ∨
    negative (readReplies n w.replies).1 = [] ∨ NotBounced k x (w.hear (.eom .lmtp) n) →
      w'.bounces = w.bounces
  bounced : n ≠ 0 → Lasting (readReplies n w.replies).1 →
    negative (readReplies n w.replies).1 ≠ [] → ¬ NotBounced k x (w.hear (.eom .lmtp) n) →
      ∃ b, w'.bounces = w.bounces ++ [b] ∧
        b.listed = listing (rcptAddress k.smtpname w.destaddr) .accept
          ((negative (readReplies n w.replies).1).map Reply.text) w.msg.recipients 0

theorem negative_eq_nil {rs : List Reply} (hlast : Lasting rs) :
    negative rs = [] ↔ ∀ r ∈ rs, r.status = .ok := by
  simp only [negative, List.filter_eq_nil_iff, decide_eq_true_eq]
  refine forall₂_congr fun r hr => ?_
  have hfine := hlast r hr
  cases hstatus : r.status <;> simp_all

theorem lmtpEom_closes (k : SinkCtl) (x : External ω) (w : Listener ω) :
    (lmtpEom k x).wp (LmtpClosed k x w.lmtpResponses w) w := by
  unfold lmtpEom
  simp only [Act.wp_bind, Act.wp_gets, List.nil_append]
  generalize w.lmtpResponses = n
  -- without accepted recipients one reply is read all the same
  by_cases hn : n = 0
  · simp only [hn, if_true, Act.wp_bind, Act.wp_pure]
    refine Act.wp_mono (smtpOk_hears (.eom .lmtp)) fun status w₁ tr₁ h₁ => ?_
    obtain ⟨rfl, rfl, rfl⟩ := h₁
    constructor <;> simp [eomAnswers_answer, readReplies_one, Listener.hear]
  · have hmax : max 1 n = n := by omega
    simp only [hn, if_false, Act.wp_bind]
    refine Act.wp_mono (lmtpReplies_hears n [] w) fun o w₁ tr₁ h₁ => ?_
    obtain ⟨rfl, hw₁, rfl⟩ := h₁
    have hleft : w₁.replies = (readReplies n w.replies).2 := by simp [hw₁, Listener.hear]
    have hbounces : w₁.bounces = w.bounces := by simp [hw₁, Listener.hear]
    by_cases hlast : Lasting (readReplies n w.replies).1
    · have hok := negative_eq_nil hlast
      -- a bounce is sent if a reply is negative
      cases hneg : (negative (readReplies n w.replies).1).map Reply.text with
      | nil =>
        have hnil : negative (readReplies n w.replies).1 = [] := by simpa using hneg
        simp only [hlast, if_true, List.append_nil, Act.wp_pure]
        constructor <;> simp [hmax, hn, hnil, eomAnswers_flatMap, hleft, hbounces]
      | cons error errors =>
        have hne : negative (readReplies n w.replies).1 ≠ [] := by
          intro hnil
          simp [hnil] at hneg
        simp only [hlast, if_true, List.nil_append, Act.wp_bind, Act.wp_emit, Act.wp_pure]
        refine Act.wp_mono (Act.wp_and (sendBouncemail_undisturbed _ _ _)
          (sendBouncemail_bounces _ _ _)) fun sent w₂ tr₂ h₂ => ?_
        obtain ⟨⟨hund, rfl⟩, hnot, hyes⟩ := h₂
        rw [hw₁] at hnot hyes
        refine ⟨?_, fun _ => ?_, fun h => absurd h hn, fun _ hall => ?_, fun h => ?_,
          fun _ _ _ h => ?_⟩
        · rw [hmax, eomAnswers_append, eomAnswers_flatMap]
          simp [eomAnswers]
        · rw [hmax, hund.replies, hleft]
        · exact absurd (hok.mpr hall) hne
        · refine hnot ?_
          rcases h with h | h | h | h
          · exact absurd h hn
          · exact absurd hlast h
          · exact absurd h hne
          · exact h
        · rw [hneg]
          exact hyes h
    -- the listener is gone, so nothing is bounced
    · simp only [hlast, if_false, Act.wp_bind, Act.wp_pure]
      refine Act.wp_mono (smtpClose_bounces w₁) fun _ w₂ tr₂ h₂ => ?_
      obtain ⟨rfl, h₂⟩ := h₂
      have hnall : ¬ ∀ r ∈ (readReplies n w.replies).1, r.status = .ok := by
        intro hall
        exact hlast fun r hr => by simp [hall r hr]
      constructor <;> simp [hmax, hn, hlast, hnall, eomAnswers_flatMap, h₂, hbounces]

theorem closeSink_lmtp (k : SinkCtl) (x : External ω) (w : Listener ω) (hmode : w.mode = .lmtp) :
    (closeSink k x true).wp (LmtpClosed k x w.lmtpResponses w) w := by
  let dotted : Listener ω := { w with wire := w.wire ++ [.dot] }
  have hrun : (closeSink k x true).wp (LmtpClosed k x w.lmtpResponses w) w ↔
      (lmtpEom k x).wp (LmtpClosed k x w.lmtpResponses w) dotted := by
    simp [closeSink, smtpEom, hmode, dotted]
  refine hrun.mpr (Act.wp_mono (lmtpEom_closes k x dotted) fun ok w' tr h => ?_)
  exact ⟨h.answers, h.left, h.unexpected, h.delivered, h.unbounced, h.bounced⟩

/-! ## Staying in step -/

/-- `close_sink` reads a reply for each `RCPT TO` that was accepted, what follows is left, and
it returns `TRUE` if all of them are positive. -/
def LmtpInStep (k : SinkCtl) (x : External ω) (accepted : Nat) (w : Listener ω) : Prop :=
  let replies := readReplies accepted w.replies
  let o := (closeSink k x true).run w
  eomAnswers o.trace = complete replies.1 ∧
    (Lasting replies.1 → o.state.replies = replies.2) ∧
      ((∀ r ∈ replies.1, r.status = .ok) → o.val = true)

theorem goodRcpts_eq_zero : goodRcpts w = 0 ↔ ∀ r ∈ rcptReplies w, r.status ≠ .ok := by
  simp [goodRcpts, List.countP_eq_zero]

/-- The end of an LMTP message goes by the book unless only the postmaster was accepted and
the delivery to him succeeds. The message is closed in any state `w'` that
`lmtp_responses` is handed over to. -/
theorem lmtpInStep_iff (k : SinkCtl) (x : External ω) (w w' : Listener ω)
    (hsuccess : ((openSmtpSink k x).run w).val.err = .success) (hmode : w'.mode = .lmtp)
    (hresponses : w'.lmtpResponses = ((openSmtpSink k x).run w).state.lmtpResponses) :
    LmtpInStep k x (acceptedRcpts ((openSmtpSink k x).run w).trace) w' ↔
      ((∀ r ∈ rcptReplies w, r.status ≠ .ok) → (nextReply w'.replies).1.status ≠ .ok) := by
  have hopen : SinkOpened k w ((openSmtpSink k x).run w).val ((openSmtpSink k x).run w).state
      ((openSmtpSink k x).run w).trace := openSmtpSink_opens k x w
  have haccepted : acceptedRcpts ((openSmtpSink k x).run w).trace =
      goodRcpts w + if goodRcpts w = 0 then 1 else 0 := openSmtpSink_accepts k x w hsuccess
  have hclosed : LmtpClosed k x w'.lmtpResponses w' ((closeSink k x true).run w').val
      ((closeSink k x true).run w').state ((closeSink k x true).run w').trace :=
    closeSink_lmtp k x w' hmode
  rw [hresponses, hopen.responses hsuccess] at hclosed
  -- as many replies are read as recipients were accepted, or one
  have hmax : max 1 (goodRcpts w) = acceptedRcpts ((openSmtpSink k x).run w).trace := by
    rw [haccepted]
    split <;> omega
  have hanswers := hmax ▸ hclosed.answers
  have hleft := hmax ▸ hclosed.left
  unfold LmtpInStep
  simp only [hanswers, true_and]
  rw [and_iff_right hleft, ← goodRcpts_eq_zero]
  by_cases hgood : goodRcpts w = 0
  · -- the postmaster's reply is read, and held against the listener
    have hone : acceptedRcpts ((openSmtpSink k x).run w).trace = 1 := by simp [haccepted, hgood]
    simp [hone, readReplies_one, hclosed.unexpected hgood, hgood]
  · have hsame : acceptedRcpts ((openSmtpSink k x).run w).trace = goodRcpts w := by
      simp [haccepted, hgood]
    rw [hsame]
    simp only [hgood, false_implies, iff_true]
    exact hclosed.delivered hgood

/-! ## The bounce -/

/-- The recipients that were accepted, in order. -/
def acceptedIds (w : Listener ω) : List Bytes :=
  ((w.msg.accepted.zip (rcptReplies w)).filter fun p => p.2.status = .ok).map fun p => p.1.id

/-- Those of them that the delivery failed for, each with the reply that said so. -/
def failedRecipients (k : SinkCtl) (w w' : Listener ω) : List (Bytes × Option Bytes) :=
  (((acceptedIds w).zip (readReplies (goodRcpts w) w'.replies).1).filter
      fun p => p.2.status = .error).map
    fun p => (rcptAddress k.smtpname w'.destaddr p.1, some p.2.text)

/-- Whatever bounce `close_sink` sends lists the recipients that the delivery failed for. -/
def BounceExact (k : SinkCtl) (x : External ω) (w w' : Listener ω) : Prop :=
  ∀ b ∈ ((closeSink k x true).run w').state.bounces.drop w'.bounces.length,
    b.listed = failedRecipients k w w'

/-- The recipients that keep their mark are those that were not rejected. -/
theorem accepted_markAll (k : SinkCtl) {rcs : List Recipient} {rs : List Reply}
    (hlen : rs.length = wanted rcs) :
    (markAll k rcs rs).filter (fun rc => rc.mark = .accept) =
      (((rcs.filter fun rc => rc.mark = .accept).zip rs).filter fun p => ¬ p.2.bad k).map
        Prod.fst := by
  induction rcs generalizing rs with
  | nil => simp [markAll]
  | cons rc rcs ih =>
    by_cases hmark : rc.mark = .accept
    · cases rs with
      | nil => simp [wanted, hmark] at hlen
      | cons r rs =>
        have hlen' : rs.length = wanted rcs := by simpa [wanted, hmark] using hlen
        by_cases hbad : r.bad k
        · simpa [markAll, hmark, Recipient.judged, hbad] using ih hlen'
        · simpa [markAll, hmark, Recipient.judged, hbad] using ih hlen'
    · have hlen' : rs.length = wanted rcs := by simpa [wanted, hmark] using hlen
      simpa [markAll, hmark] using ih hlen'

theorem length_filter_zip {α : Type} {xs : List α} {rs : List Reply} (p : Reply → Bool)
    (hlen : rs.length = xs.length) :
    ((xs.zip rs).filter fun q => p q.2).length = rs.countP p := by
  induction xs generalizing rs with
  | nil => simp_all
  | cons a xs ih =>
    cases rs with
    | nil => simp at hlen
    | cons r rs =>
      have hlen' : rs.length = xs.length := by simpa using hlen
      have ih' := ih hlen'
      cases hp : p r <;> simp [hp, ih']

/-- Where every recipient listed has an error of its own, they are paired in order. -/
theorem listing_exact {address : Bytes → Bytes} {errors : List Bytes} {rcs : List Recipient}
    (hlen : errors.length = wanted rcs) :
    listing address .accept errors rcs 0 =
      List.zipWith (fun rc error => (address rc.id, some error))
        (rcs.filter fun rc => rc.mark = .accept) errors := by
  by_cases hone : errors.length = 1
  · obtain ⟨error, rfl⟩ := List.length_eq_one_iff.mp hone
    have hrcs : (rcs.filter fun rc => rc.mark = .accept).length = 1 := by
      rw [← List.countP_eq_length_filter]
      exact hlen.symm.trans hone
    obtain ⟨rc, hrc⟩ := List.length_eq_one_iff.mp hrcs
    rw [listing_one, hrc]
    rfl
  · have hcount : 0 + (rcs.countP fun rc => rc.mark = .accept) ≤ errors.length := by
      have : wanted rcs = rcs.countP fun rc => rc.mark = .accept := rfl
      omega
    rw [listing_paired hone rcs 0 hcount, List.drop_zero]

/-- The length of the list gives a mismatch away. -/
theorem length_listing_eq {address : Bytes → Bytes} {errors : List Bytes} {rcs : List Recipient}
    (h : (listing address .accept errors rcs 0).length = errors.length) :
    errors.length = wanted rcs := by
  by_cases hone : errors.length = 1
  · obtain ⟨error, rfl⟩ := List.length_eq_one_iff.mp hone
    rw [listing_one, List.length_map, ← List.countP_eq_length_filter] at h
    exact h.symm
  · rw [listing_many hone] at h
    have : wanted rcs = rcs.countP fun rc => rc.mark = .accept := rfl
    omega

/-- Accepted recipients keep their mark. -/
theorem accepted_sublist (k : SinkCtl) {w : Listener ω}
    (hlen : (rcptReplies w).length = wanted w.msg.recipients) :
    List.Sublist
      (((w.msg.accepted.zip (rcptReplies w)).filter fun p => p.2.status = .ok).map Prod.fst)
      ((markedMsg k w).recipients.filter fun rc => rc.mark = .accept) := by
  rw [markedMsg, accepted_markAll k hlen, Msgblk.accepted]
  refine List.Sublist.map _ (List.monotone_filter_right _ fun p hok => ?_)
  have hok : p.2.status = .ok := by simpa using hok
  simp [Reply.bad, hok]

theorem length_acceptedIds {w : Listener ω}
    (hlen : (rcptReplies w).length = wanted w.msg.recipients) :
    (acceptedIds w).length = goodRcpts w := by
  have hlen' : (rcptReplies w).length = w.msg.accepted.length := by
    rw [hlen, Msgblk.accepted, wanted, List.countP_eq_length_filter]
  rw [acceptedIds, List.length_map,
    length_filter_zip (fun r => decide (r.status = .ok)) hlen', goodRcpts]

/-- If all who kept the mark were refused on delivery, the list is right. -/
theorem failedRecipients_all (k : SinkCtl) {w w' : Listener ω}
    (hlen : (rcptReplies w).length = wanted w.msg.recipients)
    (hlast : Lasting (readReplies (goodRcpts w) w'.replies).1)
    (hall : (negative (readReplies (goodRcpts w) w'.replies).1).length =
      wanted (markedMsg k w).recipients) :
    failedRecipients k w w' =
      List.zipWith (fun rc error => (rcptAddress k.smtpname w'.destaddr rc.id, some error))
        ((markedMsg k w).recipients.filter fun rc => rc.mark = .accept)
        ((negative (readReplies (goodRcpts w) w'.replies).1).map Reply.text) := by
  have hds := length_readReplies hlast
  have hids := length_acceptedIds hlen
  have hsub := accepted_sublist k hlen
  rw [acceptedIds, List.length_map] at hids
  rw [wanted, List.countP_eq_length_filter] at hall
  generalize hdsEq : (readReplies (goodRcpts w) w'.replies).1 = ds at *
  generalize hmarked : (markedMsg k w).recipients.filter (fun rc => rc.mark = .accept) = marked at *
  have hle : (negative ds).length ≤ ds.length := List.length_filter_le _ _
  -- nobody but the accepted recipients can have kept the mark
  have hmarkedEq := hsub.eq_of_length_le (by
    rw [List.length_map, hids]
    omega)
  have hneg : negative ds = ds := by
    refine List.filter_eq_self.mpr ?_
    have hfull : (negative ds).length = ds.length := by
      have := congrArg List.length hmarkedEq
      rw [List.length_map, hids] at this
      omega
    exact List.length_filter_eq_length_iff.mp hfull
  have herror : ∀ r ∈ ds, r.status = .error := by
    intro r hr
    rw [← hneg] at hr
    simpa using (List.mem_filter.mp hr).2
  have hkeep : (((acceptedIds w).zip ds).filter fun p => p.2.status = .error) =
      (acceptedIds w).zip ds := by
    refine List.filter_eq_self.mpr fun p hp => ?_
    have := herror p.2 (List.of_mem_zip hp).2
    simpa using this
  have hidsEq : acceptedIds w = marked.map Recipient.id := by
    rw [acceptedIds, ← hmarkedEq, List.map_map]
    rfl
  rw [failedRecipients, hdsEq, hkeep, hneg, hidsEq, List.zip, List.zipWith_map_left,
    List.map_zipWith, List.zipWith_map_right]

/-- The bounce is exact where none is sent (the connection broke, all deliveries succeeded,
or the sender cannot be told), and else if and only if as many deliveries failed as there
are recipients marked `XMIT_ACCEPT`. The message is closed in any state `w'` that
`lmtp_responses` and the recipients are handed over to. -/
theorem bounceExact_iff (k : SinkCtl) (x : External ω) (w w' : Listener ω)
    (hsuccess : ((openSmtpSink k x).run w).val.err = .success) (hmode : w'.mode = .lmtp)
    (hresponses : w'.lmtpResponses = ((openSmtpSink k x).run w).state.lmtpResponses)
    (hmsg : w'.msg = ((openSmtpSink k x).run w).state.msg) :
    BounceExact k x w w' ↔
      ¬ Lasting (readReplies (goodRcpts w) w'.replies).1 ∨
        negative (readReplies (goodRcpts w) w'.replies).1 = [] ∨
        NotBounced k x (w'.hear (.eom .lmtp) (goodRcpts w)) ∨
        (negative (readReplies (goodRcpts w) w'.replies).1).length = wanted w'.msg.recipients := by
  have hopen : SinkOpened k w ((openSmtpSink k x).run w).val ((openSmtpSink k x).run w).state
      ((openSmtpSink k x).run w).trace := openSmtpSink_opens k x w
  have hclosed : LmtpClosed k x w'.lmtpResponses w' ((closeSink k x true).run w').val
      ((closeSink k x true).run w').state ((closeSink k x true).run w').trace :=
    closeSink_lmtp k x w' hmode
  rw [hresponses, hopen.responses hsuccess] at hclosed
  rw [hopen.msg hsuccess] at hmsg
  have hlen : (rcptReplies w).length = wanted w.msg.recipients :=
    length_readReplies (hopen.accepted hsuccess).2.1
  by_cases hlast : Lasting (readReplies (goodRcpts w) w'.replies).1
  · by_cases hneg : negative (readReplies (goodRcpts w) w'.replies).1 = []
    · have hsame := hclosed.unbounced (.inr (.inr (.inl hneg)))
      simp [BounceExact, hsame, hneg]
    · by_cases hnot : NotBounced k x (w'.hear (.eom .lmtp) (goodRcpts w))
      · have hsame := hclosed.unbounced (.inr (.inr (.inr hnot)))
        simp [BounceExact, hsame, hnot]
      · have hgood : goodRcpts w ≠ 0 := by
          intro hzero
          simp [hzero, readReplies, negative] at hneg
        obtain ⟨b, hbounces, hlisted⟩ := hclosed.bounced hgood hlast hneg hnot
        have hexact : BounceExact k x w w' ↔ b.listed = failedRecipients k w w' := by
          simp [BounceExact, hbounces]
        rw [hexact]
        simp only [hlast, hneg, hnot, not_true_eq_false, false_or]
        -- the bounce is to list one recipient for each negative reply
        have hfailed : (failedRecipients k w w').length =
            (negative (readReplies (goodRcpts w) w'.replies).1).length := by
          have hzip : (readReplies (goodRcpts w) w'.replies).1.length = (acceptedIds w).length :=
            (length_readReplies hlast).trans (length_acceptedIds hlen).symm
          rw [failedRecipients, List.length_map,
            length_filter_zip (fun r => decide (r.status = .error)) hzip, negative,
            List.countP_eq_length_filter]
        constructor
        -- lists of the same length, so no recipient was left out
        · intro heq
          have hlength : (listing (rcptAddress k.smtpname w'.destaddr) .accept
              ((negative (readReplies (goodRcpts w) w'.replies).1).map Reply.text)
              w'.msg.recipients 0).length =
                ((negative (readReplies (goodRcpts w) w'.replies).1).map Reply.text).length := by
            rw [← hlisted, heq, hfailed, List.length_map]
          simpa using length_listing_eq hlength
        · intro hcount
          rw [hlisted, listing_exact (by simpa using hcount), hmsg]
          rw [hmsg] at hcount
          exact (failedRecipients_all k hlen hlast hcount).symm
  · have hsame := hclosed.unbounced (.inr (.inl hlast))
    simp [BounceExact, hsame, hlast]

end

/-! ## A delivery to the postmaster, and one to one of two recipients -/

/-- Nobody but the postmaster is accepted, and he gets the message. -/
def postmasterListener : Listener Unit :=
  listenerSaying .lmtp [Bytes.lit "250 ok\r\n", Bytes.lit "550 no such user\r\n",
    Bytes.lit "550 no such user\r\n", Bytes.lit "250 ok\r\n", Bytes.lit "354 go on\r\n",
    Bytes.lit "250 delivered\r\n"]

/-- The listener once the message is open. -/
def openedBy (w : Listener Unit) : Listener Unit :=
  ((openSmtpSink quietCtl quietExternal).run w).state

theorem postmasterListener_unexpected :
    ((openSmtpSink quietCtl quietExternal).run postmasterListener).val.err = .success ∧
      ¬ LmtpInStep quietCtl quietExternal
        (acceptedRcpts ((openSmtpSink quietCtl quietExternal).run postmasterListener).trace)
        (openedBy postmasterListener) := by
  refine ⟨by decide, fun h => ?_⟩
  exact absurd (h.2.2 (by decide)) (by decide)

theorem lmtpInStep_iff_postmasterListener :
    LmtpInStep quietCtl quietExternal
        (acceptedRcpts ((openSmtpSink quietCtl quietExternal).run postmasterListener).trace)
        (openedBy postmasterListener) ↔
      ((∀ r ∈ rcptReplies postmasterListener, r.status ≠ .ok) →
        (nextReply (openedBy postmasterListener).replies).1.status ≠ .ok) :=
  lmtpInStep_iff quietCtl quietExternal postmasterListener (openedBy postmasterListener)
    (by decide) (by decide) rfl

/-- Both recipients are accepted, and only the first gets the message. -/
def fullMailboxListener : Listener Unit :=
  listenerSaying .lmtp [Bytes.lit "250 ok\r\n", Bytes.lit "250 ok\r\n", Bytes.lit "250 ok\r\n",
    Bytes.lit "354 go on\r\n", Bytes.lit "250 delivered\r\n", Bytes.lit "552 mailbox full\r\n"]

theorem fullMailbox_blames_both :
    ((openSmtpSink quietCtl quietExternal).run fullMailboxListener).val.err = .success ∧
      ¬ BounceExact quietCtl quietExternal fullMailboxListener (openedBy fullMailboxListener) := by
  refine ⟨by decide, ?_⟩
  unfold BounceExact
  decide

theorem bounceExact_iff_fullMailbox :
    BounceExact quietCtl quietExternal fullMailboxListener (openedBy fullMailboxListener) ↔
      ¬ Lasting (readReplies (goodRcpts fullMailboxListener)
          (openedBy fullMailboxListener).replies).1 ∨
        negative (readReplies (goodRcpts fullMailboxListener)
          (openedBy fullMailboxListener).replies).1 = [] ∨
        NotBounced quietCtl quietExternal ((openedBy fullMailboxListener).hear (.eom .lmtp)
          (goodRcpts fullMailboxListener)) ∨
        (negative (readReplies (goodRcpts fullMailboxListener)
          (openedBy fullMailboxListener).replies).1).length =
            wanted (openedBy fullMailboxListener).msg.recipients :=
  bounceExact_iff quietCtl quietExternal fullMailboxListener (openedBy fullMailboxListener)
    (by decide) (by decide) rfl rfl

end Fetchmail.Sink
