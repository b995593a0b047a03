import Fetchmail.Sink.Recipients

/-!
# Refused Recipients

Two things that `open_smtp_sink` owes the message when some of its recipients are refused.

A refusal that is only temporary has to keep the whole message. It does, with one
exception: `handle_smtp_report` keeps messages for which the listener demands `STARTTLS`
(reply 530), and its double `handle_smtp_report_without_bounce`, which judges the replies to
`RCPT TO`, does not.

The caller has to learn how many recipients were accepted and how many were rejected. It
learns the first; the second count is also the index that `from_responses` is freed with,
and is always zero on return.
-/

namespace Fetchmail.Sink

open Fetchmail.Lib
open Fetchmail.Driver

section

variable {ω : Type} {k : SinkCtl} {x : External ω} {w : Listener ω}

/-! ## Temporary refusals -/

/-- One of the two handlers keeps a message that has drawn this reply. -/
def SinkCtl.defers (k : SinkCtl) (smtpResponse : Bytes) : Prop :=
  handleSmtpReportWithoutBounce k smtpResponse = .transient ∨ reportCode k smtpResponse = .transient

/-- `must issue STARTTLS` -/
def SinkCtl.demandsTls (k : SinkCtl) (smtpResponse : Bytes) : Prop :=
  smtperr smtpResponse = 530 ∧ 530 ∉ k.antispam

/-- The handlers differ in one code. -/
theorem defers_iff (k : SinkCtl) (text : Bytes) :
    k.defers text ↔ handleSmtpReportWithoutBounce k text = .transient ∨ k.demandsTls text := by
  unfold SinkCtl.defers SinkCtl.demandsTls handleSmtpReportWithoutBounce reportCode
  generalize smtperr text = code
  by_cases hspam : code ∈ k.antispam
  · have hnot : ¬ (code = 530 ∧ 530 ∉ k.antispam) := by
      rintro ⟨rfl, h⟩
      exact h hspam
    simp [hspam, hnot]
  · by_cases h530 : code = 530
    · subst h530
      simp [hspam]
    · by_cases h552 : code = 552
      · simp [h552]
      · by_cases h553 : code = 553
        · simp [h553]
        · by_cases hperm : permanent code = true
          · simp [hspam, h552, h553, h530, hperm]
          · simp [hspam, h552, h553, h530, hperm]

/-- A recipient whose refusal one of the handlers treats as temporary keeps the message, and
`DATA` is not opened. -/
def KeepsForRecipient (k : SinkCtl) (x : External ω) (w : Listener ω) : Prop :=
  (nextReply w.replies).1.status = .ok →
    (∃ r ∈ rcptReplies w, r.status = .error ∧ k.defers r.text) →
      ((openSmtpSink k x).run w).val.err = .transient ∧ NoData ((openSmtpSink k x).run w).trace

/-- Some recipient is refused for want of `STARTTLS`, and nothing else keeps the message: no
other refusal, no broken connection, and nothing that follows the recipients. -/
structure Overlooked (k : SinkCtl) (w : Listener ω) : Prop where
  mailFrom : (nextReply w.replies).1.status = .ok
  lasting : Lasting (rcptReplies w)
  demand : ∃ r ∈ rcptReplies w, r.status = .error ∧ k.demandsTls r.text
  others : ∀ r ∈ rcptReplies w, ¬ r.deferred k
  rest : ¬ restDefers k (goodRcpts w) (rcptRest w)

/-- A temporary refusal keeps the message except where it is overlooked. -/
theorem keepsForRecipient_iff (k : SinkCtl) (x : External ω) (w : Listener ω) :
    KeepsForRecipient k x w ↔ ¬ Overlooked k w := by
  have hopen : SinkOpened k w ((openSmtpSink k x).run w).val ((openSmtpSink k x).run w).state
      ((openSmtpSink k x).run w).trace := openSmtpSink_opens k x w
  unfold KeepsForRecipient
  generalize (openSmtpSink k x).run w = o at hopen
  constructor
  · intro hkeeps h
    obtain ⟨r, hr, herr, htls⟩ := h.demand
    have hdefers : k.defers r.text := (defers_iff k r.text).mpr (.inr htls)
    have htransient := (hkeeps h.mailFrom ⟨r, hr, herr, hdefers⟩).1
    exact h.rest ((hopen.rest h.mailFrom h.lasting h.others).mp htransient)
  · intro hnot hmail ⟨r, hr, herr, hdefers⟩
    have htransient : o.val.err = .transient := by
      by_cases hlast : Lasting (rcptReplies w)
      · by_cases hdef : ∃ r ∈ rcptReplies w, r.deferred k
        · exact hopen.deferred hmail (.inr hdef)
        · -- only the demand for STARTTLS is left
          have hothers : ∀ r ∈ rcptReplies w, ¬ r.deferred k := by simpa using hdef
          have htls : k.demandsTls r.text :=
            ((defers_iff k r.text).mp hdefers).resolve_left fun h => hothers r hr ⟨herr, h⟩
          have hrest : restDefers k (goodRcpts w) (rcptRest w) := by
            by_contra hrest
            exact hnot ⟨hmail, hlast, ⟨r, hr, herr, htls⟩, hothers, hrest⟩
          exact (hopen.rest hmail hlast hothers).mpr hrest
      · exact hopen.deferred hmail (.inl hlast)
    exact ⟨htransient, hopen.unopened (by simp [htransient])⟩

/-! ## Counts -/

theorem countP_markAll (k : SinkCtl) {rcs : List Recipient} {rs : List Reply}
    (hlen : rs.length = wanted rcs) :
    (markAll k rcs rs).countP (fun rc => rc.mark = .rcptbad) =
      rcs.countP (fun rc => rc.mark = .rcptbad) + rs.countP fun r => r.bad k := by
  induction rcs generalizing rs with
  | nil =>
    have hnil : rs = [] := by simpa [wanted] using hlen
    simp [markAll, hnil]
  | cons rc rcs ih =>
    by_cases hmark : rc.mark = .accept
    · cases rs with
      | nil => simp [wanted, hmark] at hlen
      | cons r rs =>
        have hlen' : rs.length = wanted rcs := by simpa [wanted, hmark] using hlen
        by_cases hbad : r.bad k
        · simp [markAll, hmark, Recipient.judged, hbad, ih hlen']
          omega
        · simp [markAll, hmark, Recipient.judged, hbad, ih hlen']
    · have hlen' : rs.length = wanted rcs := by simpa [wanted, hmark] using hlen
      simp only [markAll, hmark, ne_eq, not_false_eq_true, if_true, List.countP_cons, ih hlen']
      omega

/-- The counts handed back are those of the accepted and of the rejected recipients. -/
def CountsExact (k : SinkCtl) (x : External ω) (w : Listener ω) : Prop :=
  let o := (openSmtpSink k x).run w
  o.val.good = goodRcpts w ∧
    o.val.bad = o.state.msg.recipients.countP fun rc => rc.mark = .rcptbad

/-- The counts are exact if and only if there is no rejected recipient to be counted. -/
theorem countsExact_iff (k : SinkCtl) (x : External ω) (w : Listener ω)
    (hsuccess : ((openSmtpSink k x).run w).val.err = .success) :
    CountsExact k x w ↔
      (∀ rc ∈ w.msg.recipients, rc.mark ≠ .rcptbad) ∧ ∀ r ∈ rcptReplies w, ¬ r.bad k := by
  have hopen : SinkOpened k w ((openSmtpSink k x).run w).val ((openSmtpSink k x).run w).state
      ((openSmtpSink k x).run w).trace := openSmtpSink_opens k x w
  have hlen : (rcptReplies w).length = wanted w.msg.recipients :=
    length_readReplies (hopen.accepted hsuccess).2.1
  have hcount : ((openSmtpSink k x).run w).state.msg.recipients.countP
      (fun rc => rc.mark = .rcptbad) = w.msg.recipients.countP (fun rc => rc.mark = .rcptbad) +
        (rcptReplies w).countP fun r => r.bad k := by
    rw [hopen.msg hsuccess, markedMsg, countP_markAll k hlen]
  simp only [CountsExact, hcount, hopen.bad, hopen.good hsuccess, true_and]
  rw [eq_comm, Nat.add_eq_zero_iff, List.countP_eq_zero, List.countP_eq_zero]
  simp

end

/-! ## A demand for `STARTTLS`, and a rejected recipient -/

/-- The second recipient is only taken over TLS. -/
def tlsListener : Listener Unit :=
  listenerSaying .smtp [Bytes.lit "250 ok\r\n", Bytes.lit "250 ok\r\n",
    Bytes.lit "530 must issue STARTTLS first\r\n", Bytes.lit "354 go on\r\n"]

theorem tlsListener_overlooked : ¬ KeepsForRecipient quietCtl quietExternal tlsListener := by
  intro h
  have hmail : (nextReply tlsListener.replies).1.status = .ok := by decide
  have hdefers : ∃ r ∈ rcptReplies tlsListener, r.status = .error ∧ quietCtl.defers r.text :=
    ⟨⟨.error, Bytes.lit "530 must issue STARTTLS first"⟩, by decide, rfl, .inr (by decide)⟩
  exact absurd (h hmail hdefers).1 (by decide)

/-- The second recipient does not exist. -/
def unknownUserListener : Listener Unit :=
  listenerSaying .smtp [Bytes.lit "250 ok\r\n", Bytes.lit "250 ok\r\n",
    Bytes.lit "550 no such user\r\n", Bytes.lit "354 go on\r\n"]

theorem unknownUser_uncounted :
    ((openSmtpSink quietCtl quietExternal).run unknownUserListener).val.err = .success ∧
      ¬ CountsExact quietCtl quietExternal unknownUserListener := by
  refine ⟨by decide, fun h => ?_⟩
  exact absurd h.2 (by decide)

theorem countsExact_iff_unknownUser :
    CountsExact quietCtl quietExternal unknownUserListener ↔
      (∀ rc ∈ unknownUserListener.msg.recipients, rc.mark ≠ .rcptbad) ∧
        ∀ r ∈ rcptReplies unknownUserListener, ¬ r.bad quietCtl :=
  countsExact_iff quietCtl quietExternal unknownUserListener (by decide)

end Fetchmail.Sink
