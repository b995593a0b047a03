import Fetchmail.Imap.Getauth
import Fetchmail.Auth.Exchanges

/-!
# What Holds of the Mechanisms

The part of `imap_getauth` behind the upgrade to TLS tries one mechanism after another. What
holds of every exchange, of the questions to the capabilities and of reading a response, holds
of all of it.
-/

namespace Fetchmail.Imap

open Fetchmail.Lib Fetchmail.Transact Fetchmail.Auth

variable {ω : Type} {Q : ∀ {α : Type}, Session ω α → Prop} (h : Exchange Command.sasl Q)
  (b : Build) (ctl : AuthCtl)

include h

theorem holds_tryMechanism {wanted : Session ω Bool} {mechanism : Session ω Ps}
    {next : Ps → Session ω Ps} (hwanted : Q wanted) (hmechanism : Q mechanism)
    (hnext : ∀ ok, Q (next ok)) (ok : Ps) : Q (tryMechanism ctl wanted mechanism next ok) := by
  refine h.bind hwanted fun wants => ?_
  apply holds_ite _ (hnext ok)
  refine h.bind hmechanism fun ok => ?_
  exact holds_ite (h.pure _) (hnext ok)

/-- SASL cancellation of an authentication that failed. -/
theorem holds_cancelling {x : Session ω Ps} (hx : Q x) : Q (cancelling x) := by
  refine h.bind hx fun ok => ?_
  have hcancel : Q (do genSend (.sasl .cancel); return ok : Session ω Ps) :=
    h.bind (h.send .cancel) fun _ => h.pure _
  exact holds_ite hcancel (h.pure _)

theorem holds_doImapNtlm (hok : Q (imapOk ctl.checkOnly)) (lib : NtlmLib) :
    Q (doImapNtlm ctl lib : Session ω Ps) := by
  refine h.bind (h.send _) fun _ => h.bind (h.ntlm lib) fun result => ?_
  apply holds_ite (h.pure _)
  exact h.bind hok fun _ => h.pure _

/-- **All mechanisms.** -/
theorem holds_tryExternal (hok : Q (imapOk ctl.checkOnly)) (hcapable : ∀ name, Q (capable name))
    (hsend : ∀ remotename password, Q (genSend (.login remotename password))) (ok : Ps) :
    Q (tryExternal b ctl ok : Session ω Ps) := by
  have hwanted : ∀ (name : String) (f : Bool → Bool),
      Q (do return f (← capable name) : Session ω Bool) :=
    fun name f => h.bind (hcapable name) fun _ => h.pure _
  -- from the last mechanism to the first, each with the ones after it
  have hlogin : ∀ ok, Q (tryLogin ctl ok : Session ω Ps) := by
    apply holds_tryMechanism h
    · exact h.bind (hcapable _) fun _ => h.pure _
    · exact h.bind (hsend _ _) fun _ => hok
    · exact fun ok => h.pure ok
  have hntlm : ∀ ok, Q (tryNtlm b ctl ok : Session ω Ps) := by
    unfold tryNtlm
    cases b.ntlm with
    | none => exact hlogin
    | some lib => exact holds_tryMechanism h _ (hwanted _ _) (holds_doImapNtlm h ctl hok lib) hlogin
  have hotp : ∀ ok, Q (tryOtp b ctl ok : Session ω Ps) := by
    unfold tryOtp
    cases b.opie with
    | none => exact hntlm
    | some lib =>
      apply holds_tryMechanism h _ _ (holds_cancelling h (h.otp _ _ _ _)) hntlm
      exact hwanted _ _
  have hcram : ∀ ok, Q (tryCramMd5 b ctl ok : Session ω Ps) := by
    apply holds_tryMechanism h _ _ (h.cramMd5 hok _ _ _ _) hotp
    exact h.bind (hcapable _) fun _ => h.pure _
  have hkerberos : ∀ ok, Q (tryKerberosV4 b ctl ok : Session ω Ps) := by
    unfold tryKerberosV4
    cases b.kerberosV4 with
    | none => exact hcram
    | some lib =>
      apply holds_tryMechanism h _ _ (holds_cancelling h (h.rfc1731 hok _ _)) hcram
      exact hwanted _ _
  have hgssapi : ∀ ok, Q (tryGssapi b ctl ok : Session ω Ps) := by
    unfold tryGssapi
    cases b.gssapi with
    | none => exact hkerberos
    | some lib =>
      apply holds_tryMechanism h _ _ (h.gssauth hok _ _ _) hkerberos
      exact hwanted _ _
  apply holds_tryMechanism h _ _ (holds_cancelling h (h.authcert hok _ _)) hgssapi
  exact hwanted _ _

end Fetchmail.Imap
