import Fetchmail.Imap.Session
import Fetchmail.Starttls
import Fetchmail.Transact.Confidential

/-!
# IMAP Authorization

`capa_probe` and `imap_getauth` of `imap.c`, in a build with `SSL_ENABLE`, and the part of
`do_session` that leads to it. `imap_getauth` is cut into the parts that its comments name:
the probe, the upgrade to TLS, and the mechanisms.
-/

namespace Fetchmail.Imap

open Fetchmail.Lib Fetchmail.Transact Fetchmail.Auth

/-- What `imap_getauth` reads of `struct query`. -/
structure AuthCtl where
  tls : TlsCtl
  authenticate : Authenticate
  remotename : Bytes
  password : Bytes
  pollname : Bytes
  /-- `none` is a null pointer -/
  via : Option Bytes
  expunge : Int
  idle : Bool
  /-- the global `check_only` -/
  checkOnly : Bool
  deriving Repr

/-- `NUM_SPECIFIED(ctl->expunge) ? NUM_VALUE_OUT(ctl->expunge) : 1` -/
def AuthCtl.expungePeriod (ctl : AuthCtl) : Nat :=
  if ctl.expunge = 0 then 1 else ctl.expunge.toNat

section

variable {ω : Type} (b : Build) (ctl : AuthCtl)

/-- `strstr(capabilities, name)` -/
def capable (name : String) : Session ω Bool :=
  statics fun v => v.capabilities.contains (Bytes.lit name)

/-! ## The capability probe -/

/-- What `capa_probe` derives from the result of `CAPABILITY`; `none` where it returns. -/
def probedVersion (capabilities : Bytes) : Ps → Option Version
  | .success =>
    some (if capabilities.contains (Bytes.lit "IMAP4REV1") then .imap4rev1 else .imap4)
  | .error => some .imap2
  | _ => none

/-- The settings that `capa_probe` leaves behind. -/
def Statics.probed (ctl : AuthCtl) (version : Version) (v : Statics) : Statics :=
  { v with
    imapVersion := version
    doIdle := ctl.idle
    hasIdle := if ctl.idle then v.capabilities.contains (Bytes.lit "IDLE") else v.hasIdle
    peekCapable := version ≠ .imap2 }

/-- `capa_probe` -/
def capaProbe : Session ω Ps := do
  assign fun v => { v with capabilities := [] }
  let ok ← transact ctl.checkOnly .capability
  match probedVersion (← statics Statics.capabilities) ok with
  | none => return ok
  | some version =>
    assign (Statics.probed ctl version)
    return .success

/-! ## The upgrade to TLS -/

/-- The upgrade failed, but may have been optional. -/
def withoutTls : Session ω (Except (Ps × AuthCtl) AuthCtl) := do
  if ctl.tls.mustStarttls then return .error (.socket, ctl)
  -- test whether the connection is in a working state
  else if (← transact ctl.checkOnly .noop) = .success then return .ok ctl
  else return .error (.repoll, { ctl with tls := { ctl.tls with sslproto := some [] } })

/-- The `STARTTLS` part of `imap_getauth`: the return code, or the query to go on with. -/
def upgradeToTls (handshake : Handshake) : Session ω (Except (Ps × AuthCtl) AuthCtl) := do
  if !ctl.tls.maybeStarttls then return .ok ctl
  let offered ← capable "STARTTLS"
  -- if TLS is mandatory, ignore capabilities
  if !(offered || ctl.tls.mustStarttls) then return .ok ctl
  let ok ← transact ctl.checkOnly .starttls
  if ok ≠ .success then withoutTls ctl
  else
    match ← sslOpen handshake ctl.remotename with
    | none => withoutTls ctl
    | some remotename =>
      let ctl := { ctl with remotename := remotename }
      let ok ← capaProbe ctl
      return if ok = .success then .ok ctl else .error (ok, ctl)

/-! ## The mechanisms -/

/-- `imap_canonicalize`, with room enough -/
def imapCanonicalize (raw : Bytes) : Bytes :=
  raw.flatMap fun b => if b = 92 ∨ b = 34 then [92, b] else [b]

/-- SASL cancellation of an authentication that failed. -/
def cancelling (x : Session ω Ps) : Session ω Ps := do
  let ok ← x
  if ok ≠ .success then genSend (.sasl .cancel)
  return ok

/-- Try a mechanism; where it fails, only `A_ANY` goes on to the next. -/
def tryMechanism (wanted : Session ω Bool) (mechanism : Session ω Ps)
    (next : Ps → Session ω Ps) (ok : Ps) : Session ω Ps := do
  if ← wanted then
    let ok ← mechanism
    if ok = .success ∨ ctl.authenticate ≠ .any then return ok else next ok
  else next ok

/-- `"AUTHENTICATE"` -/
def authenticateCommand : Bytes := Bytes.lit "AUTHENTICATE"

/-- `do_imap_ntlm` -/
def doImapNtlm (lib : NtlmLib) : Session ω Ps := do
  genSend (.sasl (.start authenticateCommand (Bytes.lit "NTLM") none))
  let result ← ntlmHelper .sasl lib
  if result ≠ .success then return result
  let result ← imapOk ctl.checkOnly
  return if result = .success then .success else .authfail

/-- The last resort, sending the password en clair. -/
def tryLogin : Ps → Session ω Ps :=
  tryMechanism ctl
    (do return (ctl.authenticate = .any && !(← capable "LOGINDISABLED")) ||
      ctl.authenticate = .password)
    (transact ctl.checkOnly
      (.login (imapCanonicalize ctl.remotename) (imapCanonicalize ctl.password)))
    pure

def tryNtlm : Ps → Session ω Ps :=
  match b.ntlm with
  | none => tryLogin ctl
  | some lib =>
    tryMechanism ctl
      (do return (ctl.authenticate = .any || ctl.authenticate = .ntlm) && (← capable "AUTH=NTLM"))
      (doImapNtlm ctl lib) (tryLogin ctl)

def tryOtp : Ps → Session ω Ps :=
  match b.opie with
  | none => tryNtlm b ctl
  | some lib =>
    tryMechanism ctl
      (do return (ctl.authenticate = .any || ctl.authenticate = .otp) && (← capable "AUTH=X-OTP"))
      (cancelling (doOtp .sasl authenticateCommand lib ctl.remotename ctl.password))
      (tryNtlm b ctl)

def tryCramMd5 : Ps → Session ω Ps :=
  tryMechanism ctl
    (do return (ctl.authenticate = .any && (← capable "AUTH=CRAM-MD5")) ||
      ctl.authenticate = .cramMd5)
    (doCramMd5 .sasl (imapOk ctl.checkOnly) authenticateCommand b.hmacMd5 ctl.remotename
      ctl.password)
    (tryOtp b ctl)

def tryKerberosV4 : Ps → Session ω Ps :=
  match b.kerberosV4 with
  | none => tryCramMd5 b ctl
  | some lib =>
    tryMechanism ctl
      (do return (ctl.authenticate = .any || ctl.authenticate = .kerberosV4 ||
        ctl.authenticate = .kerberosV5) && (← capable "AUTH=KERBEROS_V4"))
      (cancelling (doRfc1731 .sasl (imapOk ctl.checkOnly) authenticateCommand lib))
      (tryCramMd5 b ctl)

def tryGssapi : Ps → Session ω Ps :=
  match b.gssapi with
  | none => tryKerberosV4 b ctl
  | some lib =>
    tryMechanism ctl
      (do return ((ctl.authenticate = .any && lib.hasCreds) || ctl.authenticate = .gssapi) &&
        (← capable "AUTH=GSSAPI"))
      (doGssauth .sasl (imapOk ctl.checkOnly) authenticateCommand lib ctl.remotename)
      (tryKerberosV4 b ctl)

def tryExternal : Ps → Session ω Ps :=
  tryMechanism ctl
    (do return (ctl.authenticate = .any || ctl.authenticate = .external) &&
      (← capable "AUTH=EXTERNAL"))
    (cancelling (doAuthcert .sasl (imapOk ctl.checkOnly) authenticateCommand ctl.remotename))
    (tryGssapi b ctl)

/-- `ID` stands in the capabilities, first occurrence, as a word. -/
def offersId (capabilities : Bytes) : Bool :=
  match Bytes.findSub (Bytes.lit " ID") capabilities with
  | none => false
  | some i => !Bytes.isalnum (Bytes.charAt capabilities (i + 3))

/-- The Yahoo hack, whose errors are ignored. -/
def yahooId : Session ω Unit := do
  if offersId (← statics Statics.capabilities) &&
      (ctl.via.getD ctl.pollname).contains (Bytes.lit "yahoo.com") then
    discard (transact ctl.checkOnly .id)

/-! ## `imap_getauth` -/

/-- `imap_getauth` from the upgrade to TLS on. -/
def authorize (handshake : Handshake) : Session ω (Ps × AuthCtl) := do
  match ← upgradeToTls ctl handshake with
  | .error result => return result
  | .ok ctl =>
    yahooId ctl
    return (← tryExternal b ctl .authfail, ctl)

/-- `imap_getauth`: the return code, and the query as it leaves it. -/
def imapGetauth (handshake : Handshake) : Session ω (Ps × AuthCtl) := do
  assign fun v => { v with expungePeriod := ctl.expungePeriod }
  let ok ← capaProbe ctl
  if ok ≠ .success then return (ok, ctl)
  else if (← statics Statics.preauth) ∨ ctl.authenticate = .ssh then
    -- reset for the next session
    assign fun v => { v with preauth := false }
    return (.success, ctl)
  else authorize b ctl handshake

/-- The part of `do_session` from the greeting to the end of authorization. -/
def openSession (handshake : Handshake) : Session ω (Ps × AuthCtl) := do
  let err ← imapOk ctl.checkOnly
  if err ≠ .success then return (err, ctl)
  setStage .getauth
  imapGetauth b ctl handshake

end

end Fetchmail.Imap
