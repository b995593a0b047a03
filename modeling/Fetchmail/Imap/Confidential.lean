import Fetchmail.Imap.Mechanisms

/-!
# Credentials in an IMAP Session

What the parts of `imap.c` up to the end of `imap_getauth` send, and under which protection.
Where TLS is mandatory, nothing secret is sent without it.
-/

namespace Fetchmail.Imap

open Fetchmail.Lib Fetchmail.Transact Fetchmail.Auth

/-- Commands that carry credentials. -/
def Command.credential : Command → Bool
  | .sasl _ | .login _ _ => true
  | _ => false

section

variable {ω : Type} {P : Command → Prop}

/-! ## What the response parser sends -/

/-- Variables are not sent. -/
theorem sends_assign (f : Statics → Statics) : Sends P (assign f : Session ω Unit) :=
  sends_modify (by intro d; rfl)

/-- Neither is the stage. -/
theorem sends_setStage (stage : Stage) : Sends P (setStage stage : Session ω Unit) :=
  sends_modify (by intro d; rfl)

/-- The end of `IDLE` is a `DONE`. -/
theorem sends_endIdle (hdone : P .done) : Sends P (endIdle : Session ω Unit) := by
  have hsend : Sends P (sendDone : Session ω Unit) := by
    refine (sends_gets _).bind fun hasIdle => ?_
    exact Sends.ite (sends_sockWrite hdone) (sends_pure _)
  refine (sends_gets _).bind fun stage => ?_
  apply Sends.ite _ (sends_pure _)
  exact hsend.bind fun _ => sends_setStage _

/-- `imap_untagged_response` may end `IDLE`, and sends nothing else. -/
theorem sends_imapUntaggedResponse (hdone : P .done) (checkOnly : Bool) (buf : Bytes) :
    Sends P (imapUntaggedResponse checkOnly buf : Session ω Ps) := by
  refine (sends_gets _).bind fun stage => ?_
  cases classify checkOnly stage buf with
  | capability rest => exact (sends_assign _).bind fun _ => sends_pure _
  | preauth => exact (sends_assign _).bind fun _ => sends_pure _
  | «exists» u =>
    exact (sends_assign _).bind fun _ => (sends_endIdle hdone).bind fun _ => sends_pure _
  | expunge u =>
    apply Sends.ite _ (sends_pure _)
    exact (sends_assign _).bind fun _ => sends_pure _
  | bye => exact sends_pure _
  | bogusCount => exact sends_pure _
  | readOnly => exact sends_pure _
  | other => exact sends_pure _

/-- The part of the loop for lines without a tag. -/
theorem sends_untaggedPart (hdone : P .done) (checkOnly : Bool) (buf : Bytes) :
    Sends P (untaggedPart checkOnly buf : Session ω Ps) :=
  Sends.ite (sends_imapUntaggedResponse hdone checkOnly buf) (sends_pure _)

/-- By induction on the fuel of the loop. -/
theorem sends_responseLoop (hdone : P .done) (checkOnly argbuf : Bool)
    {again : Session ω (Ps × Bytes)} (hagain : Sends P again) (lines : List Recv) :
    Sends P (responseLoop checkOnly argbuf again lines) := by
  induction lines with
  | nil => exact sends_pure _
  | cons r rest ih =>
    refine (sends_gets _).bind fun stage => (sends_accept r rest).bind fun received => ?_
    cases received with
    | error err => exact sends_pure _
    | ok text =>
      refine (sends_untaggedPart hdone _ _).bind fun ok => (sends_gets _).bind fun d => ?_
      cases returnEarly argbuf d.stage d.tag (text.map Bytes.toUpper) r.late ok with
      | some result => exact sends_pure _
      | none =>
        apply Sends.ite (sends_pure _)
        exact Sends.ite hagain ih

/-- `imap_response` -/
theorem sends_imapResponse (hdone : P .done) (checkOnly argbuf : Bool) :
    Sends P (imapResponse checkOnly argbuf : Session ω (Ps × Bytes)) := by
  refine (sends_gets _).bind fun lines => sends_responseLoop hdone _ _ ?_ _
  exact (sends_gets _).bind fun lines => sends_responseLoop hdone _ _ (sends_pure _) _

/-- `imap_ok` -/
theorem sends_imapOk (hdone : P .done) (checkOnly : Bool) :
    Sends P (imapOk checkOnly : Session ω Ps) :=
  (sends_imapResponse hdone _ _).bind fun _ => sends_pure _

/-- A command, and the response to it. -/
theorem sends_transact (hdone : P .done) {c : Command} (hc : P c) (checkOnly : Bool) :
    Sends P (transact checkOnly c : Session ω Ps) :=
  sends_genTransact hc (sends_imapOk hdone checkOnly)

/-- `capa_probe` -/
theorem sends_capaProbe (hdone : P .done) (hcapability : P .capability) (ctl : AuthCtl) :
    Sends P (capaProbe ctl : Session ω Ps) := by
  refine (sends_assign _).bind fun _ => (sends_transact hdone hcapability _).bind fun ok => ?_
  refine (sends_gets _).bind fun capabilities => ?_
  cases probedVersion capabilities ok with
  | none => exact sends_pure _
  | some version => exact (sends_assign _).bind fun _ => sends_pure _

end

/-! ## The mechanisms send what they send under the protection at hand -/

section

variable {ω : Type} (b : Build) (ctl : AuthCtl)

/-- Any line. -/
abbrev Anything : Command → Prop := fun _ => True

/-- `EXTERNAL`, whatever it sends. -/
theorem sends_tryExternal (ok : Ps) : Sends Anything (tryExternal b ctl ok : Session ω Ps) := by
  have hexchange : Exchange Command.sasl (fun {α} (x : Session ω α) => Sends Anything x) :=
    exchange_sends fun _ => trivial
  apply holds_tryExternal hexchange
  · exact sends_imapOk trivial _
  · exact fun name => sends_gets _
  · exact fun remotename password => sends_genSend trivial

/-- `ID`, the Yahoo hack. -/
theorem sends_yahooId : Sends Anything (yahooId ctl : Session ω Unit) := by
  refine (sends_gets _).bind fun capabilities => ?_
  apply Sends.ite _ (sends_pure _)
  exact (sends_transact trivial trivial _).bind fun _ => sends_pure _

/-! ## The upgrade -/

variable {b ctl}

/-- A public command, and the reading of its response. -/
theorem sends_public {c : Command} (hc : c.credential = false) :
    Sends (fun c => c.credential = false) (transact ctl.checkOnly c : Session ω Ps) := by
  apply sends_transact _ hc
  rfl

/-- The upgrade lets `imap_getauth` go on, or succeed. -/
def Proceeds (r : Except (Ps × AuthCtl) AuthCtl) : Prop :=
  ∀ result, r = .error result → result.1 = .success

/-- Without TLS, a client that demands it stops. -/
theorem tlsSafe_withoutTls (hmust : ctl.tls.mustStarttls = true)
    (d : Dialogue Statics ω Command) :
    TlsSafe Command.credential Proceeds ((withoutTls ctl : Session ω _).exec d) := by
  unfold withoutTls
  rw [if_pos hmust]
  apply Sends.tlsSafe (sends_pure _)
  intro r hr hgood
  have hval : r = .error (.socket, ctl) := by simpa using hr.symm
  cases hgood _ hval

/-- Where TLS is mandatory, `imap_getauth` gets beyond the upgrade only with it. -/
theorem tlsSafe_upgradeToTls (hmust : ctl.tls.mustStarttls = true) (handshake : Handshake)
    (d : Dialogue Statics ω Command) :
    TlsSafe Command.credential Proceeds ((upgradeToTls ctl handshake : Session ω _).exec d) := by
  have hmaybe := TlsCtl.maybe_of_must hmust
  unfold upgradeToTls
  rw [if_neg (by simp [hmaybe])]
  apply TlsSafe.bind_public (sends_gets _)
  intro offered _
  rw [if_neg (by simp [hmust])]
  apply TlsSafe.bind_public (sends_public rfl)
  intro ok _
  generalize (Talk.exec _ _).state = d'
  rw [Talk.exec_ite]
  split
  · exact tlsSafe_withoutTls hmust d'
  cases handshake with
  | fails =>
    apply TlsSafe.bind_public (sends_pure _)
    intro remotename hr
    have hnone : remotename = none := by simpa [sslOpen] using hr.symm
    subst hnone
    exact tlsSafe_withoutTls hmust _
  | hangs =>
    apply TlsSafe.bind_public (sends_throw _)
    intro remotename hr
    cases hr
  | succeeds commonname =>
    -- from here on the connection is protected
    have hopen : TlsSafe Command.credential (fun _ => True)
        ((sslOpen (.succeeds commonname) ctl.remotename : Session ω _).exec d') := by
      refine ⟨fun tls tag c hmem => ?_, fun _ _ _ => rfl⟩
      simp [sslOpen] at hmem
    apply hopen.bind
    intro remotename _ htls
    cases remotename with
    | none => exact tlsSafe_withoutTls hmust _
    | some remotename =>
      apply Sends.tlsSafe_of_tls _ (htls trivial)
      exact (sends_capaProbe trivial trivial _).bind fun ok => sends_pure _

/-- Where TLS is mandatory, nothing secret leaves `imap_getauth` without it once the question
of preauthentication is settled. -/
theorem tlsSafe_authorize (hmust : ctl.tls.mustStarttls = true) (handshake : Handshake)
    (d : Dialogue Statics ω Command) :
    TlsSafe Command.credential (fun r => r.1 = .success)
      ((authorize b ctl handshake : Session ω _).exec d) := by
  apply (tlsSafe_upgradeToTls hmust handshake d).bind
  intro r _ htls
  cases r with
  | error result =>
    apply Sends.tlsSafe (sends_pure _)
    intro a ha hsuccess
    have hval : result = a := by simpa using ha
    subst hval
    apply htls
    intro result' hr
    cases hr
    exact hsuccess
  | ok ctl =>
    apply Sends.tlsSafe_of_tls _ (htls fun result hr => by cases hr)
    refine (sends_yahooId ctl).bind fun _ => ?_
    exact (sends_tryExternal b ctl _).bind fun _ => sends_pure _

end

end Fetchmail.Imap
