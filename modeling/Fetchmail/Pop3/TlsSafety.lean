import Fetchmail.Pop3.Getauth

/-!
# Mandatory TLS and POP3

With mandatory TLS, `pop3_getauth` is safe where it comes to the upgrade to TLS. That stands inside
the case of plain POP3, behind RPA; the other protocols log in without it.
-/

namespace Fetchmail.Pop3

open Fetchmail.Lib Fetchmail.Transact Fetchmail.Auth

/-- Commands that carry credentials. -/
def AuthCommand.credential : AuthCommand → Bool
  | .capa | .stls => false
  | _ => true

/-! ## What the parts send -/

section

variable {ω : Type} {P : AuthCommand → Prop} {b : PopBuild ω} {ctl : AuthCtl}

theorem sends_setAuth (f : AuthStatics → AuthStatics) : Sends P (setAuth f : AuthSession ω Unit) :=
  sends_modify (by intro d; rfl)

theorem sends_getAuth {α : Type} (f : AuthStatics → α) : Sends P (getAuth f : AuthSession ω α) :=
  sends_gets _

theorem sends_authOk : Sends P (authOk b) := by
  refine sends_genRecv.bind fun received => ?_
  cases received with
  | error err => exact sends_pure _
  | ok buf =>
    refine (sends_gets _).bind fun stage => ?_
    dsimp only
    split
    · exact (sends_setAuth _).bind fun _ => sends_pure _
    · exact sends_pure _

theorem sends_authTransact {c : AuthCommand} (hc : P c) : Sends P (authTransact b c) :=
  sends_genTransact hc sends_authOk

theorem sends_listLines {α : Type} {note : Bytes → α → AuthSession ω α}
    (hnote : ∀ buf a, Sends P (note buf a)) (lines : List Recv) (a : α) :
    Sends P (listLines note lines a) := by
  induction lines generalizing a with
  | nil => exact sends_pure _
  | cons r rest ih =>
    refine (sends_accept r rest).bind fun received => ?_
    cases received with
    | error err => exact sends_pure _
    | ok buf =>
      apply Sends.ite (sends_pure _)
      exact (hnote buf a).bind fun a => ih a

theorem sends_popCapaProbe (hcapa : P .capa) : Sends P (popCapaProbe b) := by
  refine (sends_getAuth _).bind fun done => ?_
  apply Sends.ite (sends_pure _)
  refine (sends_setAuth _).bind fun _ => (sends_authTransact hcapa).bind fun ok => ?_
  have hlines : Sends P (capaLines b ok) := by
    apply Sends.ite _ (sends_pure _)
    refine (sends_gets _).bind fun lines => Sends.bind ?_ fun _ => sends_pure _
    exact sends_listLines (fun _ _ => sends_setAuth _) lines ()
  exact hlines.bind fun ok => (sends_setAuth _).bind fun _ => sends_pure _

theorem sends_probeFirst (hcapa : P .capa) : Sends P (probeFirst b ctl) := by
  apply Sends.ite _ (sends_pure _)
  refine (sends_popCapaProbe hcapa).bind fun ok => ?_
  exact Sends.ite (sends_pure _) (sends_pure _)

/-! ## The mechanisms -/

/-- Any command. -/
abbrev AnyCommand : AuthCommand → Prop := fun _ => True

theorem sends_tryNext {wanted : AuthSession ω Bool} {mechanism next : AuthSession ω Ps}
    (hwanted : Sends P wanted) (hmechanism : Sends P mechanism) (hnext : Sends P next) :
    Sends P (tryNext ctl wanted mechanism next) := by
  refine hwanted.bind fun wants => ?_
  apply Sends.ite _ hnext
  exact hmechanism.bind fun ok => Sends.ite (sends_pure _) hnext

theorem sends_userPass : Sends AnyCommand (userPass b ctl) := by
  refine (sends_authTransact trivial).bind fun ok => ?_
  apply Sends.ite (sends_pure _)
  refine (sends_getAuth _).bind fun lastok => ?_
  split
  · dsimp only
    split
    · exact sends_pure _
    · exact sends_authTransact trivial
  · apply Sends.ite (sends_authTransact trivial)
    exact Sends.ite (sends_authTransact trivial) (sends_pure _)

/-- What is sent, from the last mechanism to the first. -/
theorem sends_tryPopKerberos : Sends AnyCommand (tryPopKerberos b ctl) := by
  have hexchange : Exchange AuthCommand.sasl
      (fun {α} (x : AuthSession ω α) => Sends AnyCommand x) := exchange_sends fun _ => trivial
  have hok : Sends AnyCommand (authOk b) := sends_authOk
  have hwanted : ∀ (f : AuthStatics → Bool) (g : Bool → Bool),
      Sends AnyCommand (do return g (← getAuth f) : AuthSession ω Bool) :=
    fun f g => (sends_getAuth f).bind fun _ => sends_pure _
  -- each mechanism falls back on the ones proved before it
  have hcram : Sends AnyCommand (tryCram b ctl) :=
    sends_tryNext (hwanted _ _) (hexchange.cramMd5 hok _ _ _ _) sends_userPass
  have hntlm : Sends AnyCommand (tryPopNtlm b ctl) := by
    unfold tryPopNtlm
    cases b.shared.ntlm with
    | none => exact hcram
    | some lib =>
      have hmech : ∀ mech, Sends AnyCommand (doPop3Ntlm lib mech : AuthSession ω Ps) := by
        intro mech
        refine (sends_genSend trivial).bind fun _ => (hexchange.ntlm lib).bind fun result => ?_
        apply Sends.ite (sends_pure _)
        refine sends_genRecv.bind fun received => ?_
        cases received with
        | error err => exact sends_pure _
        | ok msgbuf => exact sends_pure _
      apply Sends.ite
      · exact (hmech _).bind fun _ => sends_pure _
      · exact sends_tryNext (hwanted _ _) (hmech _) hcram
  have hotp : Sends AnyCommand (tryPopOtp b ctl) := by
    unfold tryPopOtp
    cases b.shared.opie with
    | none => exact hntlm
    | some lib => exact sends_tryNext (hwanted _ _) (hexchange.otp _ _ _ _) hntlm
  have hgssapi : Sends AnyCommand (tryPopGssapi b ctl) := by
    unfold tryPopGssapi
    cases b.shared.gssapi with
    | none => exact hotp
    | some lib => exact sends_tryNext (hwanted _ _) (hexchange.gssauth hok _ _ _) hotp
  unfold tryPopKerberos
  cases b.shared.kerberosV4 with
  | none => exact hgssapi
  | some lib => exact sends_tryNext (hwanted _ _) (hexchange.rfc1731 hok _ _) hgssapi

/-! ## The upgrade -/

/-- The upgrade lets `pop3_getauth` go on, or succeed. -/
def GoesOn {α : Type} (r : Except (Ps × AuthCtl) α) : Prop :=
  ∀ result, r = .error result → result.1 = .success

/-- `SSLOpen` says whether the connection is protected. -/
theorem tlsSafe_sslOpen (handshake : Handshake) (remotename : Bytes)
    (d : Dialogue AuthStatics ω AuthCommand) :
    TlsSafe AuthCommand.credential (fun r => r.isSome = true)
      ((sslOpen handshake remotename : AuthSession ω _).exec d) := by
  cases handshake with
  | fails =>
    apply Sends.tlsSafe (sends_pure _)
    intro r hr hsome
    have hnone : r = none := by simpa [sslOpen] using hr.symm
    rw [hnone] at hsome
    cases hsome
  | hangs =>
    apply Sends.tlsSafe (sends_throw _)
    intro r hr
    cases hr
  | succeeds commonname =>
    refine ⟨fun tls tag c hmem => ?_, fun _ _ _ => rfl⟩
    simp [sslOpen] at hmem

/-- Where TLS is mandatory, `pop3_getauth` gets beyond the upgrade only with it. -/
theorem tlsSafe_stls (hmust : ctl.tls.mustStarttls = true) (handshake : Handshake)
    (d : Dialogue AuthStatics ω AuthCommand) :
    TlsSafe AuthCommand.credential GoesOn ((stls b ctl handshake).exec d) := by
  have hmaybe := TlsCtl.maybe_of_must hmust
  -- a refused or failed upgrade ends the session
  have hstop : ∀ d : Dialogue AuthStatics ω AuthCommand,
      TlsSafe AuthCommand.credential GoesOn
        ((return if ctl.tls.mustStarttls then .error (.socket, ctl) else .ok (ctl, true) :
          AuthSession ω (Except (Ps × AuthCtl) (AuthCtl × Bool))).exec d) := by
    intro d
    rw [if_pos hmust]
    apply Sends.tlsSafe (sends_pure _)
    intro r hr hgood
    have hval : r = .error (.socket, ctl) := by simpa using hr.symm
    cases hgood _ hval
  unfold stls
  rw [if_neg (by simp [hmaybe])]
  apply TlsSafe.bind_public (sends_getAuth _)
  intro offered _
  rw [if_neg (by simp [hmust])]
  apply TlsSafe.bind_public (sends_authTransact rfl)
  intro ok _
  generalize (Talk.exec _ _).state = d'
  have hopened : TlsSafe AuthCommand.credential (fun r => r.isSome = true)
      ((openIfReady ctl handshake ok : AuthSession ω _).exec d') := by
    unfold openIfReady
    split
    · exact tlsSafe_sslOpen handshake ctl.remotename d'
    · apply Sends.tlsSafe (sends_pure _)
      intro r hr hsome
      obtain rfl : none = r := Except.ok.inj hr
      cases hsome
  -- from here on, the connection is protected or the session ends
  apply hopened.bind
  intro opened _ htls
  cases opened with
  | none => exact hstop _
  | some remotename =>
    apply Sends.tlsSafe_of_tls _ (htls rfl)
    refine (sends_setAuth _).bind fun _ => ?_
    exact (sends_popCapaProbe trivial).bind fun ok => sends_pure _

/-- When the probe ends `pop3_getauth`, it fails. -/
theorem probeFirst_fails {d : Dialogue AuthStatics ω AuthCommand} {result : Ps × AuthCtl}
    (h : ((probeFirst b ctl).exec d).val = .ok (some result)) : result.1 ≠ .success := by
  have hwithout : ∀ ok, ok ≠ .success → (withoutCapa ctl ok).1 ≠ .success := by
    intro ok hok
    unfold withoutCapa
    split
    · exact hok
    · dsimp only
      split <;> exact fun hno => nomatch hno
  unfold probeFirst at h
  rw [Talk.exec_ite] at h
  split at h
  · rw [Talk.exec_bind] at h
    split at h
    · next ok hok =>
      rw [Talk.exec_ite] at h
      split at h
      · next hfails =>
        cases h
        exact hwithout ok hfails.1
      · cases h
    · cases h
  · cases h

/-- `case P_POP3`, where it does not ask for RPA. -/
theorem tlsSafe_pop3Login (hmust : ctl.tls.mustStarttls = true) (handshake : Handshake)
    (d : Dialogue AuthStatics ω AuthCommand) :
    TlsSafe AuthCommand.credential (fun r => r.1 = .success)
      ((pop3Login b ctl handshake).exec d) := by
  unfold pop3Login
  apply TlsSafe.bind_public (sends_probeFirst rfl)
  intro result hresult
  cases result with
  | some result =>
    apply Sends.tlsSafe (sends_pure _)
    intro a ha hsuccess
    obtain rfl : result = a := Except.ok.inj ha
    exact absurd hsuccess (probeFirst_fails hresult)
  | none =>
    -- the mechanisms are tried under TLS only, so what they send does not matter
    apply (tlsSafe_stls hmust handshake _).bind
    intro r _ htls
    cases r with
    | error result =>
      apply Sends.tlsSafe (sends_pure _)
      intro a ha hsuccess
      obtain rfl : result = a := Except.ok.inj ha
      apply htls
      intro result' hr
      cases hr
      exact hsuccess
    | ok next =>
      apply Sends.tlsSafe_of_tls _ (htls fun result hr => by cases hr)
      exact sends_tryPopKerberos.bind fun ok => sends_pure _

/-! ## The protocols -/

/-- A line that is sent leaves its mark. -/
theorem sent_genSend (c : AuthCommand) (d : Dialogue AuthStatics ω AuthCommand) :
    ∃ tag, .sent d.tls tag c ∈ ((genSend c : AuthSession ω Unit).exec d).trace := by
  cases htags : d.tags with
  | true => exact ⟨d.gensym.tag, by simp [genSend, htags, Dialogue.gensym]⟩
  | false => exact ⟨[], by simp [genSend, sockWrite, htags]⟩

theorem mem_trace_bind {α β : Type} {x : AuthSession ω α} {f : α → AuthSession ω β}
    {d : Dialogue AuthStatics ω AuthCommand} {e : Event AuthCommand} (h : e ∈ (x.exec d).trace) :
    e ∈ ((x >>= f).exec d).trace := by
  rw [Talk.exec_bind]
  split
  · exact List.mem_append_left _ h
  · exact h

/-- Credentials in the first command. -/
theorem not_tlsSafe_of_command {α : Type} {c : AuthCommand} (hc : c.credential = true)
    {f : Ps → AuthSession ω α} {good : α → Prop} {d : Dialogue AuthStatics ω AuthCommand}
    (htls : d.tls = false) :
    ¬ TlsSafe AuthCommand.credential good ((authTransact b c >>= f).exec d) := by
  intro hsafe
  obtain ⟨tag, hsent⟩ := sent_genSend c d
  have hall : .sent d.tls tag c ∈ ((authTransact b c >>= f).exec d).trace :=
    mem_trace_bind (mem_trace_bind hsent)
  have htrue := hsafe.secret _ _ _ hall hc
  rw [htls] at htrue
  cases htrue

/-- The protocol logs in behind the upgrade to TLS, or not at all. -/
def LogsInSafely (b : PopBuild ω) (ctl : AuthCtl) (greeting : Bytes) : Prop :=
  match ctl.protocol with
  | .pop3 => (b.rpaFor ctl).isNone
  | .apop => (apopTimestamp greeting).isNone
  | .rpop => False
  | _ => True

theorem tlsSafe_popAuthorize (hmust : ctl.tls.mustStarttls = true) (greeting : Bytes)
    (handshake : Handshake) {d : Dialogue AuthStatics ω AuthCommand} (htls : d.tls = false) :
    TlsSafe AuthCommand.credential (fun r => r.1 = .success)
        ((popAuthorize b ctl greeting handshake).exec d) ↔
      LogsInSafely b ctl greeting := by
  have hfails : ∀ ok : Ps, ok ≠ .success →
      TlsSafe AuthCommand.credential (fun r : Ps × AuthCtl => r.1 = .success)
        ((return (ok, ctl) : AuthSession ω (Ps × AuthCtl)).exec d) := by
    intro ok hok
    apply Sends.tlsSafe (sends_pure _)
    intro a ha hsuccess
    obtain rfl : (ok, ctl) = a := Except.ok.inj ha
    exact absurd hsuccess hok
  unfold popAuthorize LogsInSafely
  cases ctl.protocol with
  | pop3 =>
    cases b.rpaFor ctl with
    | none => exact iff_of_true (tlsSafe_pop3Login hmust handshake d) rfl
    | some rpa =>
      -- the first command is sent at once
      apply iff_of_false _ Bool.false_ne_true
      intro hsafe
      obtain ⟨tag, hsent⟩ := sent_genSend .auth d
      have hall : .sent d.tls tag .auth ∈ (((rpaAuth b ctl rpa) >>= fun ok =>
          (return (ok, ctl) : AuthSession ω (Ps × AuthCtl))).exec d).trace :=
        mem_trace_bind (mem_trace_bind (mem_trace_bind hsent))
      have htrue := hsafe.secret _ _ _ hall rfl
      rw [htls] at htrue
      cases htrue
  | apop =>
    cases apopTimestamp greeting with
    | none => exact iff_of_true (hfails _ (by decide)) rfl
    -- what is sent depends on the greeting only, not on TLS
    | some timestamp => exact iff_of_false (not_tlsSafe_of_command rfl htls) Bool.false_ne_true
  | rpop => exact iff_of_false (not_tlsSafe_of_command rfl htls) id
  | _ => exact iff_of_true (hfails _ (by decide)) trivial

/-- **Mandatory TLS.** With any server, `pop3_getauth` keeps its credentials off an unprotected
connection and reports success only under TLS, if and only if the protocol comes to the upgrade
before it logs in. -/
theorem pop3Getauth_tlsSafe_iff (b : PopBuild ω) (ctl : AuthCtl) (greeting : Bytes)
    (handshake : Handshake) (d : Dialogue AuthStatics ω AuthCommand)
    (hmust : ctl.tls.mustStarttls = true) (hssh : ctl.authenticate ≠ .ssh)
    (htls : d.tls = false) :
    TlsSafe AuthCommand.credential (fun r => r.1 = .success)
        ((pop3Getauth b ctl greeting handshake).exec d) ↔
      LogsInSafely b ctl greeting := by
  have hrun : (pop3Getauth b ctl greeting handshake).exec d =
      (popAuthorize b ctl greeting handshake).exec { d with statics := { d.statics with
        doneCapa := false, hasGssapi := false, hasKerberos := false, hasCram := false,
        hasOtp := false, hasStls := false } } := by
    unfold pop3Getauth
    rw [Talk.exec_bind]
    simp only [setAuth, Talk.exec_modify, if_neg hssh, List.nil_append]
  rw [hrun]
  apply tlsSafe_popAuthorize hmust
  exact htls

end

/-! ## APOP -/

/-- A build without optional mechanisms. The digest is that of the timestamp and the password
below. -/
def plainPopBuild : PopBuild Unit where
  shared := ⟨fun _ _ => [], none, none, none, none⟩
  rpa := none
  md5Digest := fun _ => Bytes.lit "ceae9b1968dfaf58f90a56e8f3c65a2d"

/-- An account with `sslcertck` set. -/
def certckAccount (protocol : Protocol) : AuthCtl where
  protocol := protocol
  tls := ⟨false, none, false, true⟩
  authenticate := .any
  remotename := Bytes.lit "user"
  password := Bytes.lit "secret"
  pollname := Bytes.lit "mail"
  service := none
  wehaveauthed := false

/-- A connection whose greeting has been read, to a server that has these lines to say. -/
def greeted (lines : List Bytes) : Dialogue AuthStatics Unit AuthCommand where
  stage := .getauth
  statics := ⟨false, false, false, false, false, false, false, []⟩
  tagged := false
  suppressTags := false
  tagnum := 0
  tag := []
  lines := lines.map fun text => .line text false
  peer := ()
  answer := fun _ _ _ => ([], ())
  tls := false

def apopGreeting : Bytes := Bytes.lit "+OK <1.2@mail>"

/-- APOP answers the greeting at once, and takes `+OK` for an authorization. -/
theorem apop_not_tlsSafe :
    (certckAccount .apop).tls.mustStarttls = true ∧ (certckAccount .apop).authenticate ≠ .ssh ∧
      ¬ TlsSafe AuthCommand.credential (fun r => r.1 = .success)
        ((pop3Getauth plainPopBuild (certckAccount .apop) apopGreeting .fails).exec
          (greeted [Bytes.lit "+OK"])) := by
  refine ⟨by decide, by decide, fun hsafe => ?_⟩
  have htls := hsafe.protect (.success, certckAccount .apop) rfl rfl
  revert htls
  decide +kernel

/-- The same account with plain POP3, and a server that refuses `STLS`. -/
theorem pop3Getauth_tlsSafe_iff_pop3 :
    TlsSafe AuthCommand.credential (fun r => r.1 = .success)
        ((pop3Getauth plainPopBuild (certckAccount .pop3) apopGreeting .fails).exec
          (greeted [Bytes.lit "+OK", Bytes.lit ".", Bytes.lit "-ERR"])) ↔
      LogsInSafely plainPopBuild (certckAccount .pop3) apopGreeting :=
  pop3Getauth_tlsSafe_iff plainPopBuild (certckAccount .pop3) apopGreeting .fails _
    (by decide) (by decide) rfl

end Fetchmail.Pop3
