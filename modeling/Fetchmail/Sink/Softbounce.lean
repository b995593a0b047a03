import Fetchmail.Driver.LoopRule
import Fetchmail.Sink.Recipients

/-!
# Permanent Errors in Softbounce Mode

With `softbounce` set, permanent delivery errors are meant to leave the message on the
server. They do where the listener rejects `MAIL FROM` or `DATA`: `open_smtp_sink` returns
`PS_REFUSED` or `PS_TRANSIENT`, the loop sets `suppress_forward` and the softbounce rule
protects the message. They do not where the listener rejects the message itself: then
`close_sink` returns `TRUE`, as it does after a delivery, and `suppress_forward` was never
set. `Fatal` names the dialogues of the second kind.
-/

namespace Fetchmail.Sink

open Fetchmail.Lib
open Fetchmail.Driver

/-! ## Kinds of answers -/

/-- A permanent negative reply outside the `antispam` list. -/
def SinkCtl.rejects (k : SinkCtl) (status : SmtpStatus) (smtpResponse : Bytes) : Prop :=
  status = .error ∧ permanent (smtperr smtpResponse) = true ∧ smtperr smtpResponse ∉ k.antispam

/-- The listener rejected `MAIL FROM`, `DATA` or the end of the message. -/
def Rejected (k : SinkCtl) (answers : List Answer) : Prop :=
  ∃ stage status response, .reply stage status response ∈ answers ∧
    stage ∈ [Stage.mailFrom, .data, .eom .smtp, .eom .lmtp] ∧ k.rejects status response

/-- The listener rejected the end of the message over SMTP, and not for want of `STARTTLS`;
or it did so over LMTP for some recipient, and the sender could be told. -/
def Fatal (k : SinkCtl) (answers : List Answer) : Prop :=
  (∃ status response, .reply (.eom .smtp) status response ∈ answers ∧
      k.rejects status response ∧ smtperr response ≠ 530) ∨
    (∃ status response, .reply (.eom .lmtp) status response ∈ answers ∧
      k.rejects status response) ∧ .partialBounce true ∈ answers

/-- The answer belongs to the end of a message. -/
def Answer.Final : Answer → Prop
  | .reply (.eom _) _ _ | .partialBounce _ => True
  | _ => False

section

variable {ω : Type} {k : SinkCtl} {x : External ω} {w : Listener ω}

theorem rejected_append {a b : List Answer} :
    Rejected k (a ++ b) ↔ Rejected k a ∨ Rejected k b := by
  unfold Rejected
  simp only [List.mem_append]
  constructor
  · rintro ⟨stage, status, response, hmem | hmem, h⟩
    · exact .inl ⟨stage, status, response, hmem, h⟩
    · exact .inr ⟨stage, status, response, hmem, h⟩
  · rintro (⟨stage, status, response, hmem, h⟩ | ⟨stage, status, response, hmem, h⟩)
    · exact ⟨stage, status, response, .inl hmem, h⟩
    · exact ⟨stage, status, response, .inr hmem, h⟩

/-- Answers before the end of the message do not matter for `Fatal`. -/
theorem fatal_append {a b : List Answer} (ha : ∀ e ∈ a, ¬ e.Final) :
    Fatal k (a ++ b) ↔ Fatal k b := by
  have hmode : ∀ mode status response, .reply (.eom mode) status response ∉ a :=
    fun _ _ _ hmem => ha _ hmem trivial
  have hbounce : .partialBounce true ∉ a := fun hmem => ha _ hmem trivial
  simp [Fatal, hmode, hbounce]

theorem rejected_singleton {stage : Stage} {status : SmtpStatus} {response : Bytes} :
    Rejected k [.reply stage status response] ↔
      stage ∈ [Stage.mailFrom, .data, .eom .smtp, .eom .lmtp] ∧ k.rejects status response := by
  unfold Rejected
  constructor
  · rintro ⟨_, _, _, hmem, h⟩
    cases List.mem_singleton.mp hmem
    exact h
  · exact fun h => ⟨_, _, _, by simp, h⟩

/-- An answer that neither rejects the message nor ends it. -/
def Neutral (k : SinkCtl) (answers : List Answer) : Prop :=
  (∀ e ∈ answers, ¬ e.Final) ∧ ¬ Rejected k answers

theorem neutral_nil : Neutral k [] := by
  simp [Neutral, Rejected]

theorem Neutral.append {a b : List Answer} (ha : Neutral k a) (hb : Neutral k b) :
    Neutral k (a ++ b) := by
  refine ⟨fun e he => ?_, fun h => (rejected_append.mp h).elim ha.2 hb.2⟩
  rcases List.mem_append.mp he with he | he
  · exact ha.1 e he
  · exact hb.1 e he

/-- A positive reply before the end of the message. -/
theorem neutral_ok {stage : Stage} {response : Bytes} (hstage : ∀ mode, stage ≠ .eom mode) :
    Neutral k [.reply stage .ok response] := by
  refine ⟨fun e he => ?_, fun h => ?_⟩
  · cases List.mem_singleton.mp he
    cases stage <;> simp_all [Answer.Final]
  · rw [rejected_singleton] at h
    exact absurd h.2.1 (by decide)

/-- A reply to a command that the claim of rejection does not cover. -/
theorem neutral_reply {stage : Stage} {status : SmtpStatus} {response : Bytes}
    (hstage : stage ∈ [Stage.rcpt, .postmaster, .rset, .quit]) :
    Neutral k [.reply stage status response] := by
  simp only [List.mem_cons, List.not_mem_nil, or_false] at hstage
  rcases hstage with rfl | rfl | rfl | rfl <;> simp [Neutral, rejected_singleton, Answer.Final]

/-! ## The dialogue -/

/-- One exchange: at most one answer, which is the reply that `smtp_response` holds. -/
theorem smtpOk_spec (stage : Stage) :
    (smtpOk stage).wp (fun status w' tr =>
      tr = if status = .unrecoverable then [] else [.reply stage status w'.smtpResponse]) w := by
  unfold smtpOk
  simp only [Act.wp_bind, Act.wp_gets, Act.wp_modify, Act.wp_ite, Act.wp_emit, Act.wp_pure]
  by_cases h : (smtpOkLoop [] w.replies).1 = .unrecoverable <;> simp [h]

theorem smtpOk_mode (stage : Stage) :
    (smtpOk stage).wp (fun _ w' _ => w'.mode = w.mode) w := by
  unfold smtpOk
  simp

theorem smtpClose_false : (smtpClose false : SmtpM ω Unit).wp (fun _ _ tr => tr = []) w := by
  simp [smtpClose]

theorem smtpClose_spec (k : SinkCtl) (sayquit : Bool) :
    (smtpClose sayquit : SmtpM ω Unit).wp (fun _ _ tr => Neutral k tr) w := by
  unfold smtpClose
  simp only [Act.wp_bind, Act.wp_gets, Act.wp_ite, Act.wp_modify, List.nil_append,
    List.append_nil]
  refine ⟨fun _ => ⟨fun _ => ?_, fun _ => neutral_nil⟩, fun _ => neutral_nil⟩
  refine Act.wp_mono (smtpOk_spec .quit) fun status w₁ tr₁ h₁ => ?_
  rw [h₁]
  split
  · exact neutral_nil
  · exact neutral_reply (by simp)

theorem smtpRset_spec (k : SinkCtl) : (smtpRset : SmtpM ω Unit).wp (fun _ _ tr => Neutral k tr) w := by
  unfold smtpRset
  simp only [Act.wp_bind]
  refine Act.wp_mono (smtpOk_spec .rset) fun status w₁ tr₁ h₁ => ?_
  subst h₁
  simp only [Act.wp_ite]
  refine ⟨fun h => ?_, fun h => ?_⟩
  · refine Act.wp_mono smtpClose_false fun _ w₂ tr₂ h₂ => ?_
    simpa [h, h₂] using neutral_nil
  · simpa [h] using neutral_reply (by simp)

/-- Sending a bounce is no part of the dialogue with the listener. -/
theorem sendBouncemail_spec (userclass : Xmit) (message : Bytes) (errors : List Bytes) :
    (sendBouncemail k x userclass message errors).wp (fun _ _ tr => tr = []) w := by
  simp [sendBouncemail, bounceDialogue]

theorem bounceIf_spec (wanted : Bool) (message response : Bytes) :
    (bounceIf k x wanted message response).wp (fun _ _ tr => tr = []) w := by
  cases wanted with
  | false => simp [bounceIf]
  | true =>
    simp only [bounceIf, if_true, Act.wp_bind, Act.wp_pure]
    exact Act.wp_mono (sendBouncemail_spec _ _ _) fun _ _ _ h => by simp [h]

/-- What `handle_smtp_report` makes of the reply in `smtp_response`. -/
theorem handleSmtpReport_spec :
    (handleSmtpReport k x).wp (fun err _ tr => tr = [] ∧ (err = .refused ∨ err = .transient) ∧
      (permanent (smtperr w.smtpResponse) = true → smtperr w.smtpResponse ∉ k.antispam →
        (err = .refused ↔ smtperr w.smtpResponse ≠ 530))) w := by
  unfold handleSmtpReport
  simp only [Act.wp_bind, Act.wp_gets]
  generalize smtperr w.smtpResponse = code
  simp only [Act.wp_ite, Act.wp_bind, Act.wp_pure, List.nil_append]
  refine ⟨fun hspam => ?_, fun _ => ⟨fun h552 => ?_, fun _ => ⟨fun h553 => ?_, fun _ =>
    ⟨fun h530 => ?_, fun h530 => ⟨fun _ => ?_, fun hperm => ?_⟩⟩⟩⟩⟩
  · refine Act.wp_mono (bounceIf_spec _ _ _) fun _ _ _ h => ?_
    simp [h, hspam]
  · refine Act.wp_mono (bounceIf_spec _ _ _) fun _ _ _ h => ?_
    simp [h, h552]
  · simp [h553]
  · simp [h530]
  · refine Act.wp_mono (bounceIf_spec _ _ _) fun _ _ _ h => ?_
    simp [h, h530]
  · simp [hperm]

/-- What a part of `open_smtp_sink` guarantees: the end of the message is still to come,
and a rejection shows in the return code. -/
def OpenSpec (k : SinkCtl) (err : Ps) (tr : List Answer) : Prop :=
  (∀ e ∈ tr, ¬ e.Final) ∧ (Rejected k tr → err = .refused ∨ err = .transient)

theorem Neutral.openSpec {err : Ps} {tr : List Answer} (h : Neutral k tr) : OpenSpec k err tr :=
  ⟨h.1, fun hr => absurd hr h.2⟩

theorem OpenSpec.prepend {err : Ps} {tr₁ tr₂ : List Answer} (h : OpenSpec k err tr₂)
    (h₁ : Neutral k tr₁) : OpenSpec k err (tr₁ ++ tr₂) := by
  refine ⟨fun e he => ?_, fun hr => h.2 ((rejected_append.mp hr).resolve_left h₁.2)⟩
  rcases List.mem_append.mp he with he | he
  · exact h₁.1 e he
  · exact h.1 e he

/-- The way out after a negative reply that is reported. -/
theorem report_rset_spec {α : Type} (f : α → Ps) (g : Ps → α) (hfg : ∀ err, f (g err) = err)
    {stage : Stage} {response : Bytes} (hstage : ∀ mode, stage ≠ .eom mode) :
    (do
      let err ← handleSmtpReport k x
      smtpRset
      return g err : SmtpM ω α).wp
      (fun v _ tr => OpenSpec k (f v) ([.reply stage .error response] ++ tr)) w := by
  simp only [Act.wp_bind, Act.wp_pure]
  refine Act.wp_mono handleSmtpReport_spec fun err w₁ tr₁ h₁ => ?_
  refine Act.wp_mono (smtpRset_spec k) fun _ w₂ tr₂ h₂ => ?_
  obtain ⟨rfl, herr, _⟩ := h₁
  rw [hfg]
  refine ⟨fun e he => ?_, fun _ => herr⟩
  simp only [List.nil_append, List.append_nil, List.mem_append, List.mem_singleton] at he
  rcases he with rfl | he
  · cases stage <;> simp_all [Answer.Final]
  · exact h₂.1 e he

theorem rcptTo_spec (r : Recipient) (t : Tally) :
    (rcptTo k r t : SmtpM ω _).wp (fun _ _ tr => Neutral k tr) w := by
  unfold rcptTo
  simp only [Act.wp_ite, Act.wp_bind, Act.wp_pure]
  refine ⟨fun _ => neutral_nil, fun _ => ?_⟩
  refine Act.wp_mono (smtpOk_spec .rcpt) fun status w₁ tr₁ h₁ => ?_
  have hneutral : status ≠ .unrecoverable → Neutral k tr₁ := by
    intro h
    rw [h₁, if_neg h]
    exact neutral_reply (by simp)
  cases status with
  | unrecoverable => simpa [h₁] using neutral_nil
  | ok => simpa using hneutral (by simp)
  | error =>
    simp only [Act.wp_bind, Act.wp_gets, List.nil_append]
    split <;> simpa using hneutral (by simp)

theorem rcptLoop_spec (rs : List Recipient) (t : Tally) :
    (rcptLoop k rs t : SmtpM ω _).wp (fun _ _ tr => Neutral k tr) w := by
  induction rs generalizing t w with
  | nil => simpa [rcptLoop] using neutral_nil
  | cons r rs ih =>
    unfold rcptLoop
    simp only [Act.wp_bind]
    refine Act.wp_mono (rcptTo_spec r t) fun o w₁ tr₁ h₁ => ?_
    cases o with
    | none => simpa using h₁
    | some p =>
      simp only [Act.wp_bind, Act.wp_pure]
      refine Act.wp_mono (ih p.2) fun _ w₂ tr₂ h₂ => ?_
      simpa using h₁.append h₂

theorem rcptPostmaster_spec :
    (rcptPostmaster k : SmtpM ω _).wp (fun _ _ tr => Neutral k tr) w := by
  unfold rcptPostmaster
  simp only [Act.wp_ite, Act.wp_bind, Act.wp_pure]
  refine ⟨fun _ => ?_, fun _ => ?_⟩
  · refine Act.wp_mono (smtpRset_spec k) fun _ _ _ h => ?_
    simpa using h
  · refine Act.wp_mono (smtpOk_spec .postmaster) fun status w₁ tr₁ h₁ => ?_
    have hneutral : Neutral k tr₁ := by
      rw [h₁]
      split
      · exact neutral_nil
      · exact neutral_reply (by simp)
    cases status with
    | unrecoverable =>
      simp only [Act.wp_bind, Act.wp_pure]
      refine Act.wp_mono smtpClose_false fun _ _ _ h => ?_
      simpa [h] using hneutral
    | error =>
      simp only [Act.wp_bind, Act.wp_pure]
      refine Act.wp_mono (smtpRset_spec k) fun _ _ _ h => ?_
      simpa using hneutral.append h
    | ok => simpa using hneutral

theorem openData_spec (good : Nat) :
    (openData k x good).wp (fun err _ tr => OpenSpec k err tr) w := by
  unfold openData
  simp only [Act.wp_bind]
  refine Act.wp_mono (smtpOk_spec .data) fun status w₁ tr₁ h₁ => ?_
  subst h₁
  cases status with
  | unrecoverable =>
    simp only [Act.wp_bind, Act.wp_pure]
    refine Act.wp_mono smtpClose_false fun _ _ _ h => ?_
    simpa [h] using neutral_nil.openSpec
  | error => exact report_rset_spec id id (fun _ => rfl) (by simp)
  | ok => simpa using (neutral_ok (by simp)).openSpec

/-- From the postmaster on. -/
theorem openMessage_spec (good : Nat) :
    (openMessage k x good).wp (fun err _ tr => OpenSpec k err tr) w := by
  unfold openMessage
  simp only [Act.wp_ite, Act.wp_bind]
  refine ⟨fun _ => ?_, fun _ => openData_spec good⟩
  refine Act.wp_mono rcptPostmaster_spec fun v w₁ tr₁ h₁ => ?_
  cases v with
  | some err => simpa using h₁.openSpec
  | none => exact Act.wp_mono (openData_spec good) fun err w₂ tr₂ h₂ => h₂.prepend h₁

theorem bounceRejected_spec (fromResponses : List Bytes) :
    (bounceRejected k x fromResponses).wp (fun _ _ tr => tr = []) w := by
  unfold bounceRejected
  simp only [Act.wp_ite, Act.wp_bind, Act.wp_pure, implies_true, and_true]
  exact fun _ => Act.wp_mono (sendBouncemail_spec _ _ _) fun _ _ _ h => by simp [h]

theorem openRecipients_spec :
    (openRecipients k x).wp (fun o _ tr => OpenSpec k o.err tr) w := by
  unfold openRecipients
  simp only [Act.wp_bind, Act.wp_gets, Act.wp_modify, List.nil_append]
  refine Act.wp_mono (rcptLoop_spec w.msg.recipients _) fun r w₁ tr₁ h₁ => ?_
  simp only [Act.wp_ite, Act.wp_bind, Act.wp_pure]
  refine ⟨fun _ => ?_, fun _ => ⟨fun _ => ?_, fun _ => ?_⟩⟩
  · refine Act.wp_mono smtpClose_false fun _ _ _ h => ?_
    simpa [h] using h₁.openSpec
  · refine Act.wp_mono (smtpRset_spec k) fun _ _ _ h => ?_
    simpa using (h₁.append h).openSpec
  · refine Act.wp_mono (bounceRejected_spec _) fun _ w₂ tr₂ h₂ => ?_
    subst h₂
    refine Act.wp_mono (openMessage_spec r.2.1.good) fun err w₃ tr₃ h₃ => ?_
    simpa using h₃.prepend h₁

theorem openSmtpSink_spec :
    (openSmtpSink k x).wp (fun o _ tr => OpenSpec k o.err tr) w := by
  unfold openSmtpSink
  simp only [Act.wp_bind]
  refine Act.wp_mono (smtpOk_spec .mailFrom) fun status w₁ tr₁ h₁ => ?_
  subst h₁
  cases status with
  | unrecoverable =>
    simp only [Act.wp_bind, Act.wp_pure]
    refine Act.wp_mono smtpClose_false fun _ _ _ h => ?_
    simpa [h] using neutral_nil.openSpec
  | error =>
    exact report_rset_spec Opened.err (fun err => ⟨err, 0, 0⟩) (fun _ => rfl) (by simp)
  | ok =>
    refine Act.wp_mono openRecipients_spec fun o w₂ tr₂ h₂ => ?_
    exact h₂.prepend (neutral_ok (by simp))

theorem closeStale_spec (k : SinkCtl) : (closeStale x).wp (fun _ _ tr => Neutral k tr) w := by
  unfold closeStale
  simp only [Act.wp_bind, Act.wp_lift, Act.wp_ite, Act.wp_pure, List.nil_append]
  exact ⟨fun _ => smtpClose_spec k true, fun _ => neutral_nil⟩

theorem closeBatch_spec : (closeBatch k : SmtpM ω Unit).wp (fun _ _ tr => Neutral k tr) w := by
  unfold closeBatch
  simp only [Act.wp_bind, Act.wp_gets, Act.wp_ite, Act.wp_modify, Act.wp_pure, List.nil_append,
    List.append_nil]
  refine ⟨fun _ => ⟨fun _ => smtpClose_spec k true, fun _ => neutral_nil⟩, fun _ => neutral_nil⟩

theorem smtpSetup_spec : (smtpSetup k x).wp (fun _ _ tr => Neutral k tr) w := by
  unfold smtpSetup
  simp only [Act.wp_bind]
  refine Act.wp_mono (closeStale_spec k) fun _ w₁ tr₁ h₁ => ?_
  refine Act.wp_mono closeBatch_spec fun _ w₂ tr₂ h₂ => ?_
  simp only [Act.wp_gets, Act.wp_ite, Act.wp_bind, raiseListener, Act.wp_modify, List.append_nil]
  exact ⟨fun _ => h₁.append h₂, fun _ => h₁.append h₂⟩

theorem openSink_spec (w : Listener ω) :
    (openSink k x).wp (fun o _ tr => OpenSpec k o.err tr) w := by
  unfold openSink
  simp only [Act.wp_bind, Act.wp_ite, Act.wp_pure]
  refine Act.wp_mono smtpSetup_spec fun c w₁ tr₁ h₁ => ⟨fun _ => ?_, fun _ => ?_⟩
  · exact Act.wp_mono openSmtpSink_spec fun o w₂ tr₂ h₂ => h₂.prepend h₁
  · simpa using h₁.openSpec

/-! ## The end of the message -/

/-- What `close_sink` guarantees: it answers `TRUE` to a rejection only if that is fatal,
and to every fatal one. -/
def CloseSpec (k : SinkCtl) (ok : Bool) (tr : List Answer) : Prop :=
  (Rejected k tr → ok = true → Fatal k tr) ∧ (Fatal k tr → ok = true)

theorem closeSpec_of_neutral {ok : Bool} {tr : List Answer} (h : Neutral k tr) :
    CloseSpec k ok tr := by
  refine ⟨fun hr => absurd hr h.2, fun hf => ?_⟩
  have hnil : Fatal k (tr ++ []) ↔ Fatal k [] := fatal_append h.1
  simp [Fatal] at hnil hf
  tauto

/-- Only replies to an LMTP message. -/
def LmtpReplies (answers : List Answer) : Prop :=
  ∀ e ∈ answers, ∃ status response, e = .reply (.eom .lmtp) status response

theorem LmtpReplies.not_fatal {answers : List Answer} (h : LmtpReplies answers) :
    ¬ Fatal k answers := by
  rintro (⟨status, response, hmem, _⟩ | ⟨_, hmem⟩)
  · obtain ⟨_, _, heq⟩ := h _ hmem
    cases heq
  · obtain ⟨_, _, heq⟩ := h _ hmem
    cases heq

/-- With a bounce delivered, a rejection among LMTP replies is fatal. -/
theorem LmtpReplies.fatal_bounce {answers : List Answer} (h : LmtpReplies answers) {sent : Bool} :
    Fatal k (answers ++ [.partialBounce sent]) ↔ Rejected k answers ∧ sent = true := by
  have hbounce : ∀ b, Answer.partialBounce b ∉ answers := fun b hmem => by
    obtain ⟨_, _, heq⟩ := h _ hmem
    cases heq
  constructor
  · rintro (⟨status, response, hmem, hrej, _⟩ | ⟨⟨status, response, hmem, hrej⟩, hsent⟩)
    · simp only [List.mem_append, List.mem_singleton, reduceCtorEq, or_false] at hmem
      obtain ⟨_, _, heq⟩ := h _ hmem
      cases heq
    · simp only [List.mem_append, List.mem_singleton, reduceCtorEq, or_false] at hmem
      simp only [List.mem_append, hbounce, List.mem_singleton, false_or,
        Answer.partialBounce.injEq] at hsent
      exact ⟨⟨_, status, response, hmem, by simp, hrej⟩, hsent.symm⟩
  · rintro ⟨⟨stage, status, response, hmem, _, hrej⟩, rfl⟩
    obtain ⟨_, _, heq⟩ := h _ hmem
    cases heq
    exact .inr ⟨⟨status, response, by simp [hmem], hrej⟩, by simp⟩

/-- Errors are saved for every rejection among the replies. -/
theorem lmtpReplies_spec (k : SinkCtl) (n : Nat) (errors : List Bytes) :
    (lmtpReplies n errors : SmtpM ω _).wp (fun r _ tr => LmtpReplies tr ∧
      ∀ errors', r = some errors' → errors ≠ [] ∨ Rejected k tr → errors' ≠ []) w := by
  induction n generalizing errors w with
  | zero =>
    simp only [lmtpReplies, Act.wp_pure]
    refine ⟨by simp [LmtpReplies], ?_⟩
    rintro errors' ⟨⟩ (h | h)
    · exact h
    · exact absurd h neutral_nil.2
  | succ n ih =>
    unfold lmtpReplies
    simp only [Act.wp_bind]
    refine Act.wp_mono (smtpOk_spec (.eom .lmtp)) fun status w₁ tr₁ h₁ => ?_
    subst h₁
    -- one more reply of the end of the message
    have hcons : ∀ {tr : List Answer}, LmtpReplies tr →
        LmtpReplies ([.reply (.eom .lmtp) status w₁.smtpResponse] ++ tr) := by
      intro tr h e he
      simp only [List.mem_append, List.mem_singleton] at he
      rcases he with rfl | he
      · exact ⟨_, _, rfl⟩
      · exact h e he
    cases status with
    | unrecoverable => simp [LmtpReplies]
    -- a reply that accepts rejects nothing
    | ok =>
      refine Act.wp_mono (ih errors) fun r w₂ tr₂ h₂ => ⟨hcons h₂.1, ?_⟩
      intro errors' hr hor
      refine h₂.2 errors' hr (hor.imp id fun hrej => ?_)
      rcases rejected_append.mp hrej with hrej | hrej
      · exact absurd (rejected_singleton.mp hrej).2.1 (by decide)
      · exact hrej
    -- the text of the reply is kept
    | error =>
      simp only [Act.wp_bind, Act.wp_gets, List.nil_append]
      refine Act.wp_mono (ih (errors ++ [w₁.smtpResponse])) fun r w₂ tr₂ h₂ => ⟨hcons h₂.1, ?_⟩
      exact fun errors' hr _ => h₂.2 errors' hr (.inl (by simp))

theorem lmtpEom_spec : (lmtpEom k x).wp (fun ok _ tr => CloseSpec k ok tr) w := by
  unfold lmtpEom
  simp only [Act.wp_bind, Act.wp_gets, Act.wp_ite, Act.wp_pure, List.nil_append]
  refine ⟨fun _ => ?_, fun _ => ?_⟩
  · refine Act.wp_mono (smtpOk_spec (.eom .lmtp)) fun status w₁ tr₁ h₁ => ?_
    subst h₁
    refine ⟨by simp, fun h => absurd h ?_⟩
    refine LmtpReplies.not_fatal fun e he => ?_
    split at he <;> simp_all
  · refine Act.wp_mono (lmtpReplies_spec k _ []) fun r w₁ tr₁ h₁ => ?_
    obtain ⟨hreplies, herrors⟩ := h₁
    rcases r with _ | _ | ⟨error, errors⟩
    · simp only [Act.wp_bind, Act.wp_pure]
      refine Act.wp_mono smtpClose_false fun _ w₂ tr₂ h₂ => ?_
      simpa [h₂, CloseSpec] using hreplies.not_fatal
    · have hrej : ¬ Rejected k tr₁ := fun h => herrors [] rfl (.inr h) rfl
      simpa [CloseSpec] using fun h => absurd h hrej
    · simp only [Act.wp_bind, Act.wp_emit, Act.wp_pure, List.append_nil]
      refine Act.wp_mono (sendBouncemail_spec _ _ _) fun sent w₂ tr₂ h₂ => ?_
      subst h₂
      simp only [List.nil_append]
      refine ⟨fun hrej hsent => ?_, fun hfatal => (hreplies.fatal_bounce.mp hfatal).2⟩
      refine hreplies.fatal_bounce.mpr ⟨?_, hsent⟩
      refine (rejected_append.mp hrej).resolve_right ?_
      simp [Rejected]

/-- The reply to the end of an SMTP message decides. -/
theorem eomReport_spec {response : Bytes} (hw : w.smtpResponse = response) :
    (do
      let err ← handleSmtpReport k x
      smtpRset
      return decide (err = .refused) : SmtpM ω Bool).wp
      (fun ok _ tr => CloseSpec k ok ([.reply (.eom .smtp) .error response] ++ tr)) w := by
  simp only [Act.wp_bind, Act.wp_pure]
  refine Act.wp_mono handleSmtpReport_spec fun err w₁ tr₁ h₁ => ?_
  refine Act.wp_mono (smtpRset_spec k) fun _ w₂ tr₂ h₂ => ?_
  obtain ⟨rfl, _, hcode⟩ := h₁
  rw [hw] at hcode
  simp only [List.nil_append, List.append_nil]
  refine ⟨fun hrej href => ?_, fun hfatal => decide_eq_true ?_⟩
  · have href := of_decide_eq_true href
    have hrejects := (rejected_singleton.mp ((rejected_append.mp hrej).resolve_right h₂.2)).2
    exact .inl ⟨.error, response, by simp, hrejects, (hcode hrejects.2.1 hrejects.2.2).mp href⟩
  · rcases hfatal with ⟨status, response', hmem, hrej, hne⟩ | ⟨⟨status, response', hmem, _⟩, _⟩
    · simp only [List.mem_append, List.mem_singleton] at hmem
      rcases hmem with heq | hmem
      · cases heq
        exact (hcode hrej.2.1 hrej.2.2).mpr hne
      · exact absurd trivial (h₂.1 _ hmem)
    · simp only [List.mem_append, List.mem_singleton] at hmem
      rcases hmem with heq | hmem
      · cases heq
      · exact absurd trivial (h₂.1 _ hmem)

theorem closeSink_spec (k : SinkCtl) (x : External ω) (w : Listener ω) (forward : Bool) :
    (closeSink k x forward).wp (fun ok _ tr =>
      CloseSpec k ok tr ∧ (forward = false → ok = true ∧ tr = [])) w := by
  cases forward with
  | false => simpa [closeSink] using closeSpec_of_neutral neutral_nil
  | true =>
    simp only [closeSink, Bool.not_true, Bool.false_eq_true, if_false, Act.wp_bind, smtpEom,
      Act.wp_gets, List.nil_append, reduceCtorEq, false_implies, and_true]
    cases hmode : w.mode with
    | lmtp => simpa [hmode] using lmtpEom_spec
    | smtp =>
      refine Act.wp_mono (Act.wp_and (smtpOk_spec (.eom .smtp)) (smtpOk_mode _))
        fun status w₁ tr₁ h₁ => ?_
      obtain ⟨rfl, hmode₁⟩ := h₁
      cases status with
      | unrecoverable =>
        simp only [Act.wp_bind, Act.wp_pure]
        refine Act.wp_mono smtpClose_false fun _ w₂ tr₂ h₂ => ?_
        simpa [h₂] using closeSpec_of_neutral neutral_nil
      | error => exact eomReport_spec rfl
      | ok =>
        simp only [Act.wp_bind, Act.wp_gets, hmode₁, hmode]
        refine ⟨fun hrej _ => ?_, fun _ => rfl⟩
        exact absurd (rejected_singleton.mp hrej).2.1 (by decide)

end

/-! ## One message -/

section

variable {ω : Type} {k : SinkCtl} {x : External ω} {c : Ctl} {m : Method ω} {num : Nat}

/-- Since `before`, the log has grown by `answers`, all about message `num`. -/
def Session.Grew (s : Session ω) (before : List (Nat × Answer)) (num : Nat)
    (answers : List Answer) : Prop :=
  s.log = before ++ answers.map (num, ·)

@[simp]
theorem aside_log {α : Type} (f : ω → α × ω) (s : Session ω) : (s.aside f).2.log = s.log := rfl

@[simp]
theorem aside_num {α : Type} (f : ω → α × ω) (s : Session ω) : (s.aside f).2.num = s.num := rfl

theorem conduct_grew {α : Type} {s : Session ω} {a : SmtpM ω α} {before : List (Nat × Answer)}
    {answers : List Answer} (h : s.Grew before s.num answers) :
    (s.conduct a).2.Grew before s.num (answers ++ (a.run s.listener).trace) := by
  unfold Session.Grew at *
  simp [Session.conduct, h]

/-- Message `num` between its headers and its end: a rejection has set `suppress_forward`,
and the end of the message is still to come. -/
structure HeadersDone (k : SinkCtl) (before : List (Nat × Answer)) (num : Nat) (f : Flags)
    (s : Session ω) (answers : List Answer) : Prop where
  grew : s.Grew before num answers
  current : s.num = num
  unfinished : ∀ e ∈ answers, ¬ e.Final
  rejected : Rejected k answers → f.suppressForward = true
  unknown : f.msgcode = .unknown
  clean : f.suppressForward = false → f.suppressDelete = false ∧ f.retained = false

/-- Message `num` at `flagthemail`: a rejection that is not fatal has left a flag, a fatal
one has not. -/
structure AtFlags (k : SinkCtl) (before : List (Nat × Answer)) (num : Nat) (f : Flags)
    (s : Session ω) (answers : List Answer) : Prop where
  grew : s.Grew before num answers
  rejected : Rejected k answers → ¬ Fatal k answers →
    f.suppressForward = true ∨ f.suppressDelete = true
  fatal : Fatal k answers → f = ⟨.unknown, false, false, false⟩

theorem HeadersDone.not_fatal {before : List (Nat × Answer)} {f : Flags} {s : Session ω}
    {answers : List Answer} (h : HeadersDone k before num f s answers) : ¬ Fatal k answers := by
  have hnil : Fatal k (answers ++ []) ↔ Fatal k [] := fatal_append h.unfinished
  simpa [Fatal] using hnil

/-- Closing the sink. -/
theorem HeadersDone.closed {before : List (Nat × Answer)} {f : Flags} {s : Session ω}
    {answers : List Answer} (h : HeadersDone k before num f s answers) :
    AtFlags k before num
      { f with suppressDelete :=
          f.suppressDelete || !((transact k x).closeSink (!f.suppressForward) s).1 }
      ((transact k x).closeSink (!f.suppressForward) s).2
      (answers ++ ((closeSink k x (!f.suppressForward)).run s.listener).trace) := by
  have hspec := closeSink_spec k x s.listener (!f.suppressForward)
  change CloseSpec k ((transact k x).closeSink (!f.suppressForward) s).1 _ ∧
    (_ → ((transact k x).closeSink (!f.suppressForward) s).1 = true ∧ _) at hspec
  obtain ⟨⟨hclose, hfatal⟩, hskip⟩ := hspec
  refine ⟨?_, fun hrej hnot => ?_, fun hfat => ?_⟩
  · have hgrew : s.Grew before s.num answers := h.current.symm ▸ h.grew
    exact h.current ▸ conduct_grew hgrew
  · rw [fatal_append h.unfinished] at hnot
    rcases rejected_append.mp hrej with hrej | hrej
    · exact .inl (h.rejected hrej)
    · right
      have hfalse := Bool.eq_false_iff.mpr fun hok => hnot (hclose hrej hok)
      simp [hfalse]
  · rw [fatal_append h.unfinished] at hfat
    -- a fatal answer was given in the sink, which was therefore open
    have hfwd : f.suppressForward = false := by
      rw [← Bool.not_eq_true]
      intro htrue
      obtain ⟨-, hnil⟩ := hskip (by simp [htrue])
      simp [hnil, Fatal] at hfat
    obtain ⟨hdel, hret⟩ := h.clean hfwd
    have hok := hfatal hfat
    simp only [hfwd, Bool.not_false] at hok
    simp [hok, hdel, hret, hfwd, h.unknown]

/-- The flags of a message whose headers left no rejection behind, or left one in `err`. -/
theorem headersDone {before : List (Nat × Answer)} {err : Ps} {f : Flags} {s : Session ω}
    {answers : List Answer} (hf : headerFlags err = some f) (hgrew : s.Grew before num answers)
    (hnum : s.num = num) (hopen : OpenSpec k err answers) :
    HeadersDone k before num f s answers := by
  refine ⟨hgrew, hnum, hopen.1, fun hrej => ?_, ?_, ?_⟩
  · rcases hopen.2 hrej with rfl | rfl <;> cases hf <;> rfl
  all_goals
    unfold headerFlags at hf
    split at hf <;> simp_all <;> (subst hf; simp)

/-- The stage after the headers, for whatever return code. -/
def AfterHeaders (k : SinkCtl) (before : List (Nat × Answer)) (num : Nat)
    (r : HeaderResult × Session ω) : Prop :=
  (∃ answers, r.2.Grew before num answers ∧ ¬ Fatal k answers) ∧
    ∀ f, headerFlags r.1.err = some f → ∃ answers, HeadersDone k before num f r.2 answers

theorem afterHeaders {before : List (Nat × Answer)} {r : HeaderResult × Session ω}
    {answers : List Answer} (hgrew : r.2.Grew before num answers) (hnum : r.2.num = num)
    (hopen : OpenSpec k r.1.err answers) : AfterHeaders k before num r := by
  refine ⟨⟨answers, hgrew, ?_⟩, fun f hf => ⟨answers, headersDone hf hgrew hnum hopen⟩⟩
  have hnil : Fatal k (answers ++ []) ↔ Fatal k [] := fatal_append hopen.1
  simpa [Fatal] using hnil

theorem shipHeaders_spec {before : List (Nat × Answer)} {s : Session ω} (msg : Msgblk)
    (hs : s.log = before) (hnum : s.num = num) :
    AfterHeaders k before num (shipHeaders k x msg s) := by
  unfold shipHeaders
  have hstart : ({ s with listener := { s.listener with msg := msg } } : Session ω).log = before ∧
      ({ s with listener := { s.listener with msg := msg } } : Session ω).num = num :=
    ⟨hs, hnum⟩
  generalize ({ s with listener := { s.listener with msg := msg } } : Session ω) = s₁ at hstart
  obtain ⟨rfl, rfl⟩ := hstart
  have hgrew : (s₁.conduct (openSink k x)).2.Grew s₁.log s₁.num
      ([] ++ ((openSink k x).run s₁.listener).trace) := conduct_grew (by simp [Session.Grew])
  have hopen : OpenSpec k (s₁.conduct (openSink k x)).1.err
      ([] ++ ((openSink k x).run s₁.listener).trace) := openSink_spec s₁.listener
  generalize [] ++ ((openSink k x).run s₁.listener).trace = answers at hgrew hopen
  have hnum₂ : (s₁.conduct (openSink k x)).2.num = s₁.num := rfl
  generalize s₁.conduct (openSink k x) = r at hgrew hopen hnum₂
  simp only
  split
  · next hok =>
    refine afterHeaders hgrew hnum₂ ⟨hopen.1, fun hrej => ?_⟩
    have := hopen.2 hrej
    simp_all
  · exact afterHeaders hgrew hnum₂ hopen

theorem readheaders_spec {before : List (Nat × Answer)} {s : Session ω} (len size : Int)
    (b : Bool) (hs : s.log = before) :
    AfterHeaders k before num (readheaders k x len size num b s) := by
  simp only [readheaders]
  split
  · exact afterHeaders (by simp [Session.Grew, hs] : Session.Grew _ before num []) rfl
      neutral_nil.openSpec
  · exact shipHeaders_spec _ hs rfl

/-- The assertions of one message, for the rule of the loop body. -/
theorem judgeRule (k : SinkCtl) (x : External ω) (m : Method ω) (count num : Nat)
    (before : List (Nat × Answer)) :
    JudgeRule (sessionMethod m) (transact k x) count num
      (fun s => s.log = before)
      (fun f s => ∃ answers, HeadersDone k before num f s answers)
      (fun f s => ∃ answers, AtFlags k before num f s answers)
      (fun s => ∃ answers, s.Grew before num answers ∧ ¬ Fatal k answers)
      (fun e => ∀ n, ¬ e.Disposes n) where
  plain e he n := by cases e <;> simp_all [Call.Plain, Call.Disposes]
  -- the calls before the headers answer nothing
  leave s hs := ⟨[], by simp [Session.Grew, hs], by simp [Fatal]⟩
  leaveBody f s := fun ⟨answers, h⟩ => ⟨answers, h.grew, h.not_fatal⟩
  old s hs := ⟨[], by simp [Session.Grew, hs], by simp [Rejected], by simp [Fatal]⟩
  toolarge b s hs := ⟨[], by simp [Session.Grew, hs], by simp [Rejected], by simp [Fatal]⟩
  isOld f hf s hs := by
    obtain ⟨g, -, rfl⟩ := Option.map_eq_some_iff.mp hf
    exact hs
  getpartialsizes f hf last sizes s _ _ _ hs := by
    obtain ⟨g, -, rfl⟩ := Option.map_eq_some_iff.mp hf
    exact ⟨⟨[], by simpa [Session.Grew] using hs, by simp [Fatal]⟩, by simp [Call.Disposes],
      fun _ => hs⟩
  fetchHeaders s hs := hs
  readheaders len size b s hs := readheaders_spec len size b hs
  trail g hg f s := by
    obtain ⟨g', -, rfl⟩ := Option.map_eq_some_iff.mp hg
    exact fun ⟨answers, h⟩ => ⟨answers, h.grew, h.current, h.unfinished, h.rejected, h.unknown, h.clean⟩
  fetchBody g hg f s := by
    obtain ⟨g', -, rfl⟩ := Option.map_eq_some_iff.mp hg
    exact fun ⟨answers, h⟩ => ⟨answers, h.grew, h.current, h.unfinished, h.rejected, h.unknown, h.clean⟩
  readbody len f s := by
    rintro ⟨answers, h⟩
    refine ⟨answers, h.grew, h.current, h.unfinished, ?_, ?_, ?_⟩
    · intro hrej
      unfold Flags.afterBody
      split
      · rfl
      · exact h.rejected hrej
    · unfold Flags.afterBody
      split <;> exact h.unknown
    · unfold Flags.afterBody
      split
      · simp
      · exact h.clean
  -- the answers of the whole message are in
  closeSink f s := by
    rintro ⟨answers, h⟩
    exact ⟨_, h.closed⟩

/-- Some call of the trace disposes of message `num`. -/
def Disposed (num : Nat) (tr : List Call) : Prop :=
  ∃ e ∈ tr, e.Disposes num

theorem disposed_append {a b : List Call} : Disposed num (a ++ b) ↔ Disposed num a ∨ Disposed num b := by
  unfold Disposed
  simp only [List.mem_append, or_and_right, exists_or]

/-- What becomes of a message, given the answers about it. -/
def Consistent (k : SinkCtl) (c : Ctl) (m : Method ω) (num : Nat) (answers : List Answer)
    (tr : List Call) : Prop :=
  (Rejected k answers → ¬ Fatal k answers → ¬ Disposed num tr) ∧
    (Fatal k answers → (Disposed num tr ↔ c.disposes m))

theorem disposes_sessionMethod : c.disposes (sessionMethod m) ↔ c.disposes m := by
  simp [Ctl.disposes, sessionMethod]

/-- The loop body after `judge`. -/
theorem flagthemail_consistent (hsoft : c.softbounce = true) {maxfetch : Int} {count : Nat}
    {before : List (Nat × Answer)} {f : Flags} {l : Loop} {s : Session ω} {answers : List Answer}
    (h : AtFlags k before num f s answers) :
    (flagthemail c (sessionMethod m) maxfetch count num f l).wp (fun _ s' tr =>
      s'.Grew before num answers ∧ (∀ n, Disposed n tr → n = num) ∧
        Consistent k c m num answers tr) s := by
  -- no other message is disposed of
  have hframe : (dispose c (sessionMethod m) num (c.softbounceFlags f) l).wp
      (fun _ s' tr => s'.Grew before num answers ∧ ∀ e ∈ tr, ∀ n, e.Disposes n → n = num) s := by
    refine dispose_frame (fun g hg s hs => ?_) (fun g hg s hs => ?_) h.grew
    all_goals
      obtain ⟨g', -, rfl⟩ := Option.map_eq_some_iff.mp hg
      exact hs
  have hcons : (dispose c (sessionMethod m) num (c.softbounceFlags f) l).wp
      (fun _ _ tr => Consistent k c m num answers tr) s := by
    by_cases hfat : Fatal k answers
    · have hf := h.fatal hfat
      subst hf
      refine Act.wp_mono dispose_delivered fun _ _ tr htr => ⟨fun _ hnot => absurd hfat hnot, ?_⟩
      exact fun _ => htr.trans disposes_sessionMethod
    -- a message that was rejected is not deleted, as `softbounce` is on
    · by_cases hrej : Rejected k answers
      · have hdel : (c.softbounceFlags f).suppressDelete = true := by
          unfold Ctl.softbounceFlags
          rcases h.rejected hrej hfat with hfwd | hdel
          · simp [hfwd, hsoft]
          · split <;> simp [hdel]
        rw [dispose_of_suppressDelete hdel]
        exact ⟨fun _ _ => by simp [Disposed], fun hfat' => absurd hfat' hfat⟩
      · exact ⟨fun hrej' => absurd hrej' hrej, fun hfat' => absurd hfat' hfat⟩
  refine flagthemail_rule (Act.wp_mono (Act.wp_and hframe hcons) fun _ s' tr h' => ?_)
  exact ⟨h'.1.1, fun n hn => hn.elim fun e he => h'.1.2 e he.1 n he.2, h'.2⟩

/-- **Step.** One iteration adds answers about its own message only, disposes of no other,
and of its own consistently. -/
theorem fetchMessage_consistent (hsoft : c.softbounce = true) {maxfetch : Int} {count : Nat}
    (hnum : num ≤ count) {before : List (Nat × Answer)} {l : Loop} {s : Session ω}
    (hs : s.log = before) :
    (fetchMessage c (sessionMethod m) (transact k x) maxfetch count num l).wp (fun _ s' tr =>
      ∃ answers, s'.Grew before num answers ∧ (∀ n, Disposed n tr → n = num) ∧
        Consistent k c m num answers tr) s := by
  unfold fetchMessage
  simp only [Act.wp_bind]
  refine Act.wp_mono (judge_rule (judgeRule k x m count num before) l hnum hs)
    fun next s₁ tr₁ h₁ => ?_
  obtain ⟨hquiet, hnext⟩ := h₁
  have hnone : ∀ n, ¬ Disposed n tr₁ := fun n hn => hn.elim fun e he => hquiet e he.1 n he.2
  have hleave : ∀ answers, s₁.Grew before num answers → ¬ Fatal k answers →
      ∃ answers, s₁.Grew before num answers ∧ (∀ n, Disposed n tr₁ → n = num) ∧
        Consistent k c m num answers tr₁ := fun answers hgrew hfat =>
    ⟨answers, hgrew, fun n hn => absurd hn (hnone n), fun _ _ => hnone num,
      fun hfat' => absurd hfat' hfat⟩
  cases next with
  | nextMessage l' =>
    have hgrew : s₁.Grew before num [] := by simpa [Session.Grew] using hnext
    simpa using hleave [] hgrew (by simp [Fatal])
  | leave err l' =>
    obtain ⟨answers, hgrew, hfat⟩ := hnext
    simpa using hleave answers hgrew hfat
  -- the message is disposed of here only
  | flagthemail f l' =>
    obtain ⟨answers, hflags⟩ := hnext
    refine Act.wp_mono (flagthemail_consistent hsoft hflags) fun next s₂ tr₂ h₂ => ?_
    obtain ⟨hgrew, honly, hcons⟩ := h₂
    have happend : ∀ n, Disposed n (tr₁ ++ tr₂) ↔ Disposed n tr₂ := fun n => by
      rw [disposed_append]
      simp [hnone n]
    refine ⟨answers, hgrew, fun n hn => honly n ((happend n).mp hn), ?_⟩
    simpa only [Consistent, happend] using hcons

/-! ## The pass -/

/-- The answers about message `num`. -/
def answersAbout (num : Nat) (log : List (Nat × Answer)) : List Answer :=
  log.filterMap fun p => if p.1 = num then some p.2 else none

theorem answersAbout_grown {before : List (Nat × Answer)} {answers : List Answer} (n : Nat)
    (hbefore : ∀ p ∈ before, p.1 < num) :
    answersAbout n (before ++ answers.map (num, ·)) =
      if n = num then answers else answersAbout n before := by
  have hself : ∀ answers : List Answer,
      answersAbout n (answers.map (num, ·)) = if n = num then answers else [] := by
    intro answers
    induction answers with
    | nil => simp [answersAbout]
    | cons a rest ih =>
      unfold answersAbout at *
      by_cases h : num = n
      · simp_all
      · simp_all [Ne.symm h]
  have hnone : n = num → answersAbout n before = [] := by
    rintro rfl
    refine List.filterMap_eq_nil_iff.mpr fun p hp => ?_
    simp [Nat.ne_of_lt (hbefore p hp)]
  have happend : answersAbout n (before ++ answers.map (num, ·)) =
      answersAbout n before ++ answersAbout n (answers.map (num, ·)) := List.filterMap_append
  rw [happend, hself]
  split
  · simp [hnone ‹_›]
  · simp

/-- What holds when message `num` is reached. -/
structure PassInv (k : SinkCtl) (c : Ctl) (m : Method ω) (num : Nat) (s : Session ω)
    (tr : List Call) : Prop where
  log : ∀ p ∈ s.log, p.1 < num
  disposed : ∀ n, Disposed n tr → n < num
  consistent : ∀ n, Consistent k c m n (answersAbout n s.log) tr

theorem PassInv.step {s s' : Session ω} {tr tr' : List Call} {answers : List Answer}
    (h : PassInv k c m num s tr) (hgrew : s'.Grew s.log num answers)
    (honly : ∀ n, Disposed n tr' → n = num) (hcons : Consistent k c m num answers tr') :
    PassInv k c m (num + 1) s' (tr ++ tr') := by
  unfold Session.Grew at hgrew
  refine ⟨fun p hp => ?_, fun n hn => ?_, fun n => ?_⟩
  · rw [hgrew] at hp
    rcases List.mem_append.mp hp with hp | hp
    · exact Nat.lt_succ_of_lt (h.log p hp)
    · obtain ⟨a, -, rfl⟩ := List.mem_map.mp hp
      exact Nat.lt_succ_self num
  · rcases disposed_append.mp hn with hn | hn
    · exact Nat.lt_succ_of_lt (h.disposed n hn)
    · exact honly n hn ▸ Nat.lt_succ_self num
  · rw [hgrew, answersAbout_grown n h.log]
    split
    · next heq =>
      subst heq
      have hnot : ¬ Disposed n tr := fun hn => absurd (h.disposed n hn) (Nat.lt_irrefl n)
      simpa [Consistent, disposed_append, hnot] using hcons
    · next hne =>
      have hnot : ¬ Disposed n tr' := fun hn => hne (honly n hn)
      simpa [Consistent, disposed_append, hnot] using h.consistent n

/-- **Run.** Every pass that starts with an empty log treats every message consistently. -/
theorem fetchMessages_consistent (k : SinkCtl) (m : Method ω) (hsoft : c.softbounce = true) (x : External ω) (maxfetch : Int)
    (count : Nat) (l : Loop) (s : Session ω) (hlog : s.log = []) :
    (fetchMessages c (sessionMethod m) (transact k x) maxfetch count l).wp (fun _ s' tr =>
      ∀ n, Consistent k c m n (answersAbout n s'.log) tr) s := by
  have hinit : PassInv k c m 1 s [] := by
    refine ⟨by simp [hlog], by simp [Disposed], fun n => ?_⟩
    simp [Consistent, Disposed, hlog, answersAbout, Fatal]
  let D (s : Session ω) (tr : List Call) := ∀ n, Consistent k c m n (answersAbout n s.log) tr
  refine fetchFrom_rule (PassInv k c m) D [] (by omega) (fun num l s tr hnum hI => ?_)
    (fun s tr hI => hI.consistent) hinit
  refine Act.wp_mono (fetchMessage_consistent hsoft hnum rfl) fun next s' tr' h => ?_
  obtain ⟨answers, hgrew, honly, hcons⟩ := h
  have hI' := hI.step hgrew honly hcons
  split
  · exact hI'
  · exact hI'.consistent

/-- A fatal answer is a rejection. -/
theorem Fatal.rejected {answers : List Answer} (h : Fatal k answers) : Rejected k answers := by
  rcases h with ⟨status, response, hmem, hrej, _⟩ | ⟨⟨status, response, hmem, hrej⟩, _⟩
  · exact ⟨_, status, response, hmem, by simp, hrej⟩
  · exact ⟨_, status, response, hmem, by simp, hrej⟩

/-- In softbounce mode the messages that the listener rejected all stay on the server
exactly when no rejection was fatal, or nothing would be disposed of anyway. -/
theorem softbounce_keeps_iff {ω : Type} (k : SinkCtl) (x : External ω) (c : Ctl) (m : Method ω)
    (maxfetch : Int) (count : Nat) (l : Loop) (listener : Listener ω)
    (hsoft : c.softbounce = true) :
    let pass := (fetchMessages c (sessionMethod m) (transact k x) maxfetch count l).run
      ⟨listener, 0, []⟩
    (∀ n, Rejected k (answersAbout n pass.state.log) → ¬ Disposed n pass.trace) ↔
      ∀ n, Fatal k (answersAbout n pass.state.log) → ¬ c.disposes m := by
  have hcons := fetchMessages_consistent k m hsoft x maxfetch count l
    ⟨listener, 0, []⟩ rfl
  constructor
  · intro hkept n hfat hdisp
    exact hkept n hfat.rejected (((hcons n).2 hfat).mpr hdisp)
  · intro hnofatal n hrej hdisp
    have hnot : ¬ Fatal k _ := fun hfat =>
      hnofatal n hfat (((hcons n).2 hfat).mp hdisp)
    exact (hcons n).1 hrej hnot hdisp

end

/-! ## A fatal dialogue -/

/-- Settings of a plain pass: deliver, then delete, softbounce on. -/
def plainCtl : Ctl where
  protocol := .pop3
  keep := false
  flush := false
  fetchall := false
  limit := 0
  limitflush := false
  fetchsizelimit := 0
  errcount := 0
  softbounce := true
  peekCapable := true

/-- A protocol driver without any surprises. -/
def plainMethod : Method Unit where
  isOld := none
  getpartialsizes := none
  fetchHeaders _ w := ((.success, 100), w)
  fetchBody := none
  trail := none
  deleteMsg := some fun _ w => (.success, w)
  markSeen := none

/-- One recipient. -/
def plainMsgblk : Msgblk where
  headers := none
  recipients := [⟨Bytes.lit "user", .accept⟩]
  returnPath := Bytes.lit "sender@example.org"

/-- One recipient, and nothing else goes wrong. -/
def plainExternal : External Unit :=
  { quietExternal with collect := fun _ _ _ _ w => (.addressed plainMsgblk, w) }

/-- The listener takes the envelope and rejects the message. -/
def rejectingListener : Listener Unit :=
  listenerSaying .smtp [Bytes.lit "250 ok\r\n", Bytes.lit "250 ok\r\n",
    Bytes.lit "354 go on\r\n", Bytes.lit "554 content rejected\r\n", Bytes.lit "250 reset\r\n"]

/-- A pass over a mailbox of one message. -/
def rejectedPass : Outcome (Session Unit) Call (Ps × Loop) :=
  (fetchMessages plainCtl (sessionMethod plainMethod)
    (transact quietCtl plainExternal) 0 1 ⟨1, 0, none, 0, 0, 0, 0, 0⟩).run
    ⟨rejectingListener, 0, []⟩

theorem rejectedPass_loses_mail :
    plainCtl.softbounce = true ∧
      ¬ ∀ n, Rejected quietCtl (answersAbout n rejectedPass.state.log) →
        ¬ Disposed n rejectedPass.trace := by
  refine ⟨rfl, fun hkept => hkept 1 ?_ ⟨.deleteMsg 1 .success, by decide, rfl⟩⟩
  exact ⟨.eom .smtp, .error, Bytes.lit "554 content rejected", by decide, by decide, rfl,
    by decide, by decide⟩

theorem softbounce_keeps_iff_rejectedPass :
    (∀ n, Rejected quietCtl (answersAbout n rejectedPass.state.log) →
        ¬ Disposed n rejectedPass.trace) ↔
      ∀ n, Fatal quietCtl (answersAbout n rejectedPass.state.log) →
        ¬ plainCtl.disposes plainMethod :=
  softbounce_keeps_iff _ _ plainCtl plainMethod 0 1 _ rejectingListener rfl

end Fetchmail.Sink
