import Fetchmail.Sink.Recipients

/-!
# The Order of SMTP Commands

An SMTP listener expects `MAIL`, any number of `RCPT`, then either `DATA`, the message and
its end, or `RSET`, and that again and again until the connection is closed. `Phase` is the
listener's view of how far it has come; `Phase.next` says what may follow. The functions of
the sink keep to it: on every way out of `open_smtp_sink` the message is open or nothing is
left of the transaction, and nothing is left after `close_sink`.

What a positive reply to `DATA` is, they take broadly: any code that begins with 1, 2 or 3,
not only 354.
-/

namespace Fetchmail.Sink

open Fetchmail.Lib
open Fetchmail.Driver

/-! ## The listener's view -/

/-- Where a connection stands. -/
inductive Phase where
  | closed
  | idle
  /-- a transaction has begun and is to be brought to an end -/
  | envelope
  /-- the message is being sent -/
  | content
  /-- nothing can be said any more -/
  | broken
  deriving DecidableEq, Repr

/-- What may come next. Which replies admit a message is left open. A refused `MAIL` and a
refused message leave a transaction that is to be reset. -/
def Phase.next (admits : Bytes → Bool) : Phase → Wire → Option Phase
  | .closed, .opened => some .idle
  | .closed, _ => none
  | _, .closed => some .closed
  | .broken, _ => none
  | .idle, .exchange .quit _ _ => some .broken
  | .idle, .exchange .mailFrom status _ =>
    some (if status = .unrecoverable then .broken else .envelope)
  | .envelope, .exchange stage status text =>
    if status = .unrecoverable then some .broken
    else match stage with
      | .rcpt | .postmaster => some .envelope
      | .rset => some .idle
      | .data =>
        if status = .error then some .envelope
        else if admits text then some .content else none
      | _ => none
  | .content, .exchange (.eom .smtp) status _ =>
    match status with
    | .ok => some .idle
    | .error => some .envelope
    | .unrecoverable => some .broken
  | _, _ => none

/-- The phase after all that has passed over the wire; `none` when something was out of
place. -/
def phaseAfter (admits : Bytes → Bool) (wire : List Wire) : Option Phase :=
  wire.foldl (fun phase e => phase.bind fun p => p.next admits e) (some .closed)

theorem phaseAfter_snoc (admits : Bytes → Bool) (wire : List Wire) (e : Wire) :
    phaseAfter admits (wire ++ [e]) = (phaseAfter admits wire).bind fun p => p.next admits e := by
  simp [phaseAfter, List.foldl_append]

/-- Any positive reply admits a message. -/
def anyPositive (_ : Bytes) : Bool := true

/-- Only `354` does. -/
def only354 (smtpResponse : Bytes) : Bool := smtperr smtpResponse = 354

section

variable {ω : Type} {k : SinkCtl} {x : External ω} {w : Listener ω}

/-- An open SMTP connection in a given phase. -/
structure At (p : Phase) (w : Listener ω) : Prop where
  mode : w.mode = .smtp
  isOpen : w.isOpen = true
  phase : phaseAfter anyPositive w.wire = some p

/-- No transaction is open, and perhaps no connection. -/
structure Ready (w : Listener ω) : Prop where
  mode : w.mode = .smtp
  phase : phaseAfter anyPositive w.wire = some (if w.isOpen then .idle else .closed)

theorem Ready.at_idle (h : Ready w) (hopen : w.isOpen = true) : At .idle w :=
  ⟨h.mode, hopen, by simpa [hopen] using h.phase⟩

theorem At.ready (h : At .idle w) : Ready w :=
  ⟨h.mode, by simp [h.isOpen, h.phase]⟩

theorem Undisturbed.at {w' : Listener ω} {p : Phase} (hund : Undisturbed w w') (h : At p w) :
    At p w' :=
  ⟨hund.mode.trans h.mode, hund.isOpen.trans h.isOpen, hund.wire ▸ h.phase⟩

/-! ## One command -/

/-- The phase that a command leads to, by its reply. -/
theorem smtpOk_at {p : Phase} (h : At p w) (stage : Stage) :
    (smtpOk stage).wp (fun status w' _ => ∀ q,
      p.next anyPositive (.exchange stage status w'.smtpResponse) = some q → At q w') w := by
  refine Act.wp_mono (smtpOk_hears stage) fun status w₁ tr₁ h₁ => ?_
  obtain ⟨rfl, rfl, -⟩ := h₁
  intro q hq
  refine ⟨h.mode, h.isOpen, ?_⟩
  simp only [Listener.hear, readReplies_one, List.map_cons, List.map_nil, List.foldl_cons,
    List.foldl_nil] at hq ⊢
  rw [phaseAfter_snoc, h.phase]
  exact hq

/-- Closing is in order at any time. -/
theorem smtpClose_at {p : Phase} (h : At p w) (hp : p ≠ .closed) :
    (smtpClose false : SmtpM ω Unit).wp (fun _ w' _ => Ready w') w := by
  have hnext : p.next anyPositive .closed = some .closed := by
    cases p <;> simp_all [Phase.next]
  simp only [smtpClose, Act.wp_bind, Act.wp_gets, h.isOpen, if_true, Act.wp_modify,
    Bool.false_eq_true, if_false]
  exact ⟨h.mode, by simp [phaseAfter_snoc, h.phase, hnext]⟩

/-- Between messages it may be done with `QUIT`. -/
theorem smtpClose_ready (h : Ready w) (sayquit : Bool) :
    (smtpClose sayquit : SmtpM ω Unit).wp (fun _ w' _ => Ready w') w := by
  by_cases hopen : w.isOpen = true
  · cases sayquit with
    | false => exact smtpClose_at (h.at_idle hopen) (by simp)
    | true =>
      simp only [smtpClose, Act.wp_bind, Act.wp_gets, hopen, if_true, Act.wp_modify]
      refine Act.wp_mono (smtpOk_at (h.at_idle hopen) .quit) fun status w₁ tr₁ h₁ => ?_
      have hbroken := h₁ .broken rfl
      exact ⟨hbroken.mode, by simp [phaseAfter_snoc, hbroken.phase, Phase.next]⟩
  · simp only [smtpClose, Act.wp_bind, Act.wp_gets, hopen]
    exact ⟨h.mode, h.phase⟩

/-- `RSET` ends a transaction, or the connection is closed. -/
theorem smtpRset_at (h : At .envelope w) :
    (smtpRset : SmtpM ω Unit).wp (fun _ w' _ => Ready w') w := by
  unfold smtpRset
  simp only [Act.wp_bind]
  refine Act.wp_mono (smtpOk_at h .rset) fun status w₁ tr₁ h₁ => ?_
  simp only [Act.wp_ite, Act.wp_pure]
  refine ⟨fun hbroken => ?_, fun hfine => ?_⟩
  · exact smtpClose_at (h₁ .broken (by simp [Phase.next, hbroken])) (by simp)
  · exact (h₁ .idle (by simp [Phase.next, hfine])).ready

/-- A reply is reported and the transaction reset. -/
theorem report_rset_at {α : Type} (h : At .envelope w) (f : Ps → α) :
    (do
      let err ← handleSmtpReport k x
      smtpRset
      return f err : SmtpM ω α).wp (fun v w' _ => Ready w' ∧ ∃ text, v = f (reportCode k text)) w := by
  simp only [Act.wp_bind, Act.wp_pure]
  refine Act.wp_mono handleSmtpReport_undisturbed fun err w₁ tr₁ h₁ => ?_
  refine Act.wp_mono (smtpRset_at (h₁.2.1.at h)) fun _ w₂ tr₂ h₂ => ?_
  exact ⟨h₂, _, by rw [h₁.1]⟩

/-! ## Opening a message -/

theorem rcptTo_at (h : At .envelope w) (r : Recipient) (t : Tally) :
    (rcptTo k r t).wp (fun o w' _ =>
      (o = none → At .broken w') ∧ (o ≠ none → At .envelope w')) w := by
  unfold rcptTo
  simp only [Act.wp_ite, Act.wp_bind, Act.wp_pure]
  refine ⟨fun _ => by simpa using h, fun _ => ?_⟩
  refine Act.wp_mono (smtpOk_at h .rcpt) fun status w₁ tr₁ h₁ => ?_
  cases status with
  | unrecoverable => simpa using h₁ .broken rfl
  | ok => simpa using h₁ .envelope rfl
  | error =>
    have hnext : At .envelope w₁ := h₁ .envelope rfl
    simp only [Act.wp_bind, Act.wp_gets]
    split <;> simpa using hnext

theorem rcptLoop_at (h : At .envelope w) (rs : List Recipient) (t : Tally) :
    (rcptLoop k rs t).wp (fun o w' _ =>
      (o.1 = false → At .broken w') ∧ (o.1 = true → At .envelope w')) w := by
  induction rs generalizing t w with
  | nil => simpa [rcptLoop] using h
  | cons r rs ih =>
    unfold rcptLoop
    simp only [Act.wp_bind]
    refine Act.wp_mono (rcptTo_at h r t) fun o w₁ tr₁ h₁ => ?_
    cases o with
    | none => simpa using h₁.1 rfl
    | some p =>
      simp only [Act.wp_bind, Act.wp_pure]
      exact ih (h₁.2 (by simp)) p.2

/-- What a part of `open_smtp_sink` leaves behind: an open message on success, else no
transaction. -/
def Settled (err : Ps) (w : Listener ω) : Prop :=
  (err = .success → At .content w) ∧ (err ≠ .success → Ready w)

theorem Ready.settled {err : Ps} (h : Ready w) (herr : err ≠ .success) : Settled err w :=
  ⟨fun hs => absurd hs herr, fun _ => h⟩

theorem openData_at (h : At .envelope w) (good : Nat) :
    (openData k x good).wp (fun err w' _ => Settled err w') w := by
  unfold openData
  simp only [Act.wp_bind]
  refine Act.wp_mono (smtpOk_at h .data) fun status w₁ tr₁ h₁ => ?_
  cases status with
  | unrecoverable =>
    simp only [Act.wp_bind, Act.wp_pure]
    refine Act.wp_mono (smtpClose_at (h₁ .broken rfl) (by simp)) fun _ _ _ h₂ => ?_
    exact h₂.settled (by simp)
  | error =>
    refine Act.wp_mono (report_rset_at (h₁ .envelope rfl) id) fun err w₂ tr₂ h₂ => ?_
    obtain ⟨hready, text, rfl⟩ := h₂
    exact hready.settled (reportCode_ne_success text)
  | ok =>
    have hcontent : At .content w₁ := h₁ .content rfl
    simp only [Act.wp_bind, Act.wp_modify, Act.wp_pure]
    exact ⟨fun _ => ⟨hcontent.mode, hcontent.isOpen, hcontent.phase⟩, by simp⟩

theorem openMessage_at (h : At .envelope w) (good : Nat) :
    (openMessage k x good).wp (fun err w' _ => Settled err w') w := by
  unfold openMessage
  simp only [Act.wp_ite, Act.wp_bind]
  refine ⟨fun _ => ?_, fun _ => openData_at h good⟩
  unfold rcptPostmaster
  simp only [Act.wp_ite, Act.wp_bind, Act.wp_pure]
  refine ⟨fun _ => ?_, fun _ => ?_⟩
  · exact Act.wp_mono (smtpRset_at h) fun _ _ _ h₁ => h₁.settled (by simp)
  · refine Act.wp_mono (smtpOk_at h .postmaster) fun status w₁ tr₁ h₁ => ?_
    cases status with
    | unrecoverable =>
      simp only [Act.wp_bind, Act.wp_pure]
      refine Act.wp_mono (smtpClose_at (h₁ .broken rfl) (by simp)) fun _ _ _ h₂ => ?_
      exact h₂.settled (by simp)
    | error =>
      simp only [Act.wp_bind, Act.wp_pure]
      refine Act.wp_mono (smtpRset_at (h₁ .envelope rfl)) fun _ _ _ h₂ => ?_
      exact h₂.settled (by simp)
    | ok => exact openData_at (h₁ .envelope rfl) good

theorem openRecipients_at (h : At .envelope w) :
    (openRecipients k x).wp (fun o w' _ => Settled o.err w') w := by
  unfold openRecipients
  simp only [Act.wp_bind, Act.wp_gets, Act.wp_modify]
  refine Act.wp_mono (rcptLoop_at h _ _) fun o w₁ tr₁ h₁ => ?_
  simp only [Act.wp_ite, Act.wp_bind, Act.wp_pure]
  -- the marks are not the listener's concern
  have hmarked : ∀ {p : Phase}, At p w₁ →
      At p { w₁ with msg := { w₁.msg with recipients := o.2.2 } } :=
    fun h => ⟨h.mode, h.isOpen, h.phase⟩
  refine ⟨fun hlost => ?_, fun hlasted => ?_⟩
  · have hbroken := hmarked (h₁.1 (by simpa using hlost))
    exact Act.wp_mono (smtpClose_at hbroken (by simp)) fun _ _ _ h₂ => h₂.settled (by simp)
  · have henvelope := hmarked (h₁.2 (by simpa using hlasted))
    refine ⟨fun _ => ?_, fun _ => ?_⟩
    · exact Act.wp_mono (smtpRset_at henvelope) fun _ _ _ h₂ => h₂.settled (by simp)
    · refine Act.wp_mono (bounceRejected_undisturbed _) fun _ w₂ tr₂ h₂ => ?_
      exact openMessage_at (h₂.1.at henvelope) _

theorem openSmtpSink_at (h : At .idle w) :
    (openSmtpSink k x).wp (fun o w' _ => Settled o.err w') w := by
  unfold openSmtpSink
  simp only [Act.wp_bind]
  refine Act.wp_mono (smtpOk_at h .mailFrom) fun status w₁ tr₁ h₁ => ?_
  cases status with
  | unrecoverable =>
    simp only [Act.wp_bind, Act.wp_pure]
    refine Act.wp_mono (smtpClose_at (h₁ .broken rfl) (by simp)) fun _ _ _ h₂ => ?_
    exact h₂.settled (by simp)
  | error =>
    refine Act.wp_mono (report_rset_at (h₁ .envelope rfl) fun err => (⟨err, 0, 0⟩ : Opened))
      fun o w₂ tr₂ h₂ => ?_
    obtain ⟨hready, text, rfl⟩ := h₂
    exact hready.settled (reportCode_ne_success text)
  | ok => exact openRecipients_at (h₁ .envelope rfl)

/-! ## The connection -/

/-- The hunt finds SMTP listeners only. -/
def External.HuntsSmtp (x : External ω) : Prop := ∀ rest, (x.hunt rest).1.mode = .smtp

theorem closeStale_ready (h : Ready w) : (closeStale x).wp (fun _ w' _ => Ready w') w := by
  unfold closeStale
  simp only [Act.wp_bind, Act.wp_lift, Act.wp_ite, Act.wp_pure]
  have h' : Ready { w with rest := (x.stale w.rest).2 } := ⟨h.mode, h.phase⟩
  exact ⟨fun _ => smtpClose_ready h' true, fun _ => h'⟩

theorem closeBatch_ready (h : Ready w) :
    (closeBatch k : SmtpM ω Unit).wp (fun _ w' _ => Ready w') w := by
  unfold closeBatch
  simp only [Act.wp_bind, Act.wp_gets, Act.wp_ite, Act.wp_modify, Act.wp_pure]
  refine ⟨fun _ => ⟨fun _ => ?_, fun _ => ⟨h.mode, h.phase⟩⟩, fun _ => h⟩
  exact Act.wp_mono (smtpClose_ready h true) fun _ _ _ h₁ => ⟨h₁.mode, h₁.phase⟩

theorem smtpSetup_ready (hx : x.HuntsSmtp) (h : Ready w) :
    (smtpSetup k x).wp (fun c w' _ => Ready w' ∧ c = w'.isOpen) w := by
  unfold smtpSetup
  simp only [Act.wp_bind]
  refine Act.wp_mono (closeStale_ready h) fun _ w₁ tr₁ h₁ => ?_
  refine Act.wp_mono (closeBatch_ready h₁) fun _ w₂ tr₂ h₂ => ?_
  simp only [Act.wp_gets, Act.wp_ite, Act.wp_bind, raiseListener, Act.wp_modify, and_true]
  refine ⟨fun hclosed => ?_, fun _ => h₂⟩
  have hphase : phaseAfter anyPositive w₂.wire = some .closed := by
    have := h₂.phase
    simp_all
  refine ⟨hx w₂.rest, ?_⟩
  by_cases hfound : (x.hunt w₂.rest).1.found = true
  · simp [hfound, phaseAfter_snoc, hphase, Phase.next]
  · simp [hfound, hphase]

theorem openSink_ready (hx : x.HuntsSmtp) (h : Ready w) :
    (openSink k x).wp (fun o w' _ => Settled o.err w') w := by
  unfold openSink
  simp only [Act.wp_bind, Act.wp_ite, Act.wp_pure]
  refine Act.wp_mono (smtpSetup_ready hx h) fun c w₁ tr₁ h₁ => ⟨fun hc => ?_, fun _ => ?_⟩
  · exact openSmtpSink_at (h₁.1.at_idle (h₁.2 ▸ hc))
  · exact h₁.1.settled (by simp)

theorem closeSink_at (h : At .content w) :
    (closeSink k x true).wp (fun _ w' _ => Ready w') w := by
  simp only [closeSink, Bool.not_true, Bool.false_eq_true, if_false, Act.wp_bind, smtpEom,
    Act.wp_gets, h.mode]
  refine Act.wp_mono (smtpOk_at h (.eom .smtp)) fun status w₁ tr₁ h₁ => ?_
  cases status with
  | unrecoverable =>
    simp only [Act.wp_bind, Act.wp_pure]
    exact smtpClose_at (h₁ .broken rfl) (by simp)
  | error =>
    exact Act.wp_mono (report_rset_at (h₁ .envelope rfl) fun err => decide (err = .refused))
      fun _ _ _ h₂ => h₂.1
  | ok =>
    have hidle : At .idle w₁ := h₁ .idle rfl
    simp only [Act.wp_bind, Act.wp_gets, hidle.mode, Act.wp_pure]
    exact hidle.ready

/-! ## Many messages -/

/-- What the fetch loop and the end of a session do to the sink. -/
inductive Move where
  /-- a message is shipped, or, if `aborted`, given up after `open_sink` succeeded: then the
  session ends and its clean-up closes the connection -/
  | deliver (msg : Msgblk) (aborted : Bool)
  /-- `smtp_close` at the end of a session -/
  | leave (sayquit : Bool)

/-- One move. -/
def Move.make (k : SinkCtl) (x : External ω) : Move → SmtpM ω Unit
  | .leave sayquit => smtpClose sayquit
  | .deliver msg aborted => do
    Act.modify fun w => { w with msg := msg }
    let o ← openSink k x
    if o.err = .success then
      if aborted then smtpClose false
      else let _ ← closeSink k x true
    else let _ ← closeSink k x false

/-- A sequence of moves. -/
def makeAll (k : SinkCtl) (x : External ω) : List Move → SmtpM ω Unit
  | [] => return ()
  | m :: ms => do
    m.make k x
    makeAll k x ms

/-- **Step.** -/
theorem Move.make_ready (hx : x.HuntsSmtp) (h : Ready w) (m : Move) :
    (m.make k x).wp (fun _ w' _ => Ready w') w := by
  cases m with
  | leave sayquit => exact smtpClose_ready h sayquit
  | deliver msg aborted =>
    simp only [Move.make, Act.wp_bind, Act.wp_modify]
    have h' : Ready { w with msg := msg } := ⟨h.mode, h.phase⟩
    refine Act.wp_mono (openSink_ready hx h') fun o w₁ tr₁ h₁ => ?_
    simp only [Act.wp_ite, Act.wp_bind, Act.wp_pure]
    refine ⟨fun hsuccess => ⟨fun _ => ?_, fun _ => ?_⟩, fun herr => ?_⟩
    · exact smtpClose_at (h₁.1 hsuccess) (by simp)
    · exact closeSink_at (h₁.1 hsuccess)
    · simpa [closeSink] using h₁.2 herr

/-- **Run.** -/
theorem makeAll_ready (hx : x.HuntsSmtp) (h : Ready w) (ms : List Move) :
    (makeAll k x ms).wp (fun _ w' _ => Ready w') w := by
  induction ms generalizing w with
  | nil => exact h
  | cons m ms ih =>
    simp only [makeAll, Act.wp_bind]
    exact Act.wp_mono (m.make_ready hx h) fun _ _ _ h₁ => ih h₁

/-- Over any sequence of messages the commands come in order, all the way through the next
one: when `open_sink` returns, the message is open or nothing of it is left, and nothing is
left when `close_sink` returns. -/
def InOrder (admits : Bytes → Bool) (k : SinkCtl) (x : External ω) (w : Listener ω) : Prop :=
  ∀ (ms : List Move) (msg : Msgblk),
    let before := ((makeAll k x ms).run w).state
    let o := (openSink k x).run { before with msg := msg }
    phaseAfter admits before.wire = some (if before.isOpen then .idle else .closed) ∧
      (o.val.err ≠ .success →
        phaseAfter admits o.state.wire = some (if o.state.isOpen then .idle else .closed)) ∧
      (o.val.err = .success → phaseAfter admits o.state.wire = some .content ∧
        let closed := ((closeSink k x true).run o.state).state
        phaseAfter admits closed.wire = some (if closed.isOpen then .idle else .closed))

/-- With any positive reply to `DATA` admitting a message, the commands of every run come in
order. -/
theorem inOrder_anyPositive (k : SinkCtl) (x : External ω) (w : Listener ω)
    (hx : x.HuntsSmtp) (hw : Ready w) : InOrder anyPositive k x w := by
  intro ms msg
  have hbefore : Ready ((makeAll k x ms).run w).state := makeAll_ready hx hw ms
  have hmsg : Ready { ((makeAll k x ms).run w).state with msg := msg } :=
    ⟨hbefore.mode, hbefore.phase⟩
  have hopen : Settled _ _ := openSink_ready (k := k) hx hmsg
  refine ⟨hbefore.phase, fun herr => (hopen.2 herr).phase, fun hsuccess => ?_⟩
  have hcontent := hopen.1 hsuccess
  have hclosed : Ready _ := closeSink_at (k := k) (x := x) hcontent
  exact ⟨hcontent.phase, hclosed.phase⟩

end

/-! ## A listener that says 250 to `DATA` -/

/-- It has taken the envelope. -/
def hastyListener : Listener Unit :=
  { listenerSaying .smtp [Bytes.lit "250 ok\r\n", Bytes.lit "250 ok\r\n", Bytes.lit "250 ok\r\n",
      Bytes.lit "250 ok\r\n"] with
    wire := [.opened] }

theorem hastyListener_ready : Ready hastyListener := ⟨rfl, rfl⟩

theorem hastyListener_disorder : ¬ InOrder only354 quietCtl quietExternal hastyListener := by
  intro h
  have hopened := (h [] hastyListener.msg).2.2 (by decide)
  exact absurd hopened.1 (by decide)

theorem inOrder_hastyListener : InOrder anyPositive quietCtl quietExternal hastyListener :=
  inOrder_anyPositive quietCtl quietExternal hastyListener (fun _ => rfl) hastyListener_ready

end Fetchmail.Sink
