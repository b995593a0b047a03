import Fetchmail.Auth.Exchanges
import Fetchmail.Pop3.Session
import Fetchmail.Starttls

/-!
# POP3 Authorization

`pop3_getauth` and `capa_probe` of `pop3.c`, in a build with `SSL_ENABLE`, and the check of
`rfc822valid.c` on the timestamp of the greeting. Which way messages will be fetched, and the
host name of the maildrop, are settled here too, and left out.
-/

namespace Fetchmail.Pop3

open Fetchmail.Lib Fetchmail.Transact Fetchmail.Auth

/-! ## Commands and variables -/

/-- What `pop3_getauth` sends. -/
inductive AuthCommand where
  | capa
  | stls
  /-- `AUTH` without a mechanism -/
  | auth
  | sasl (line : SaslLine)
  | user (name : Bytes)
  | pass (password : Bytes)
  | apop (name digest : Bytes)
  | rpop (password : Bytes)
  deriving DecidableEq, Repr

/-- The static variables. -/
structure AuthStatics where
  doneCapa : Bool
  hasGssapi : Bool
  hasKerberos : Bool
  hasCram : Bool
  hasOtp : Bool
  hasNtlm : Bool
  hasStls : Bool
  lastok : Bytes
  deriving DecidableEq, Repr

abbrev AuthSession (ω : Type) := Talk AuthStatics ω AuthCommand

/-- What `pop3_getauth` reads of `struct query`. -/
structure AuthCtl where
  protocol : Protocol
  tls : TlsCtl
  authenticate : Authenticate
  remotename : Bytes
  password : Bytes
  pollname : Bytes
  /-- `none` is a null pointer -/
  service : Option Bytes
  wehaveauthed : Bool
  deriving Repr

/-- The parts that only POP3 has, and `MD5Digest`. -/
structure PopBuild (ω : Type) where
  shared : Build
  /-- `POP3_auth_rpa`, where it is compiled in -/
  rpa : Option (AuthCtl → AuthSession ω Ps)
  md5Digest : Bytes → Bytes

section

variable {ω : Type} (b : PopBuild ω) (ctl : AuthCtl)

/-- Update the variables. -/
def setAuth (f : AuthStatics → AuthStatics) : AuthSession ω Unit :=
  Talk.modify fun d => { d with statics := f d.statics }

/-- Read the variables. -/
def getAuth {α : Type} (f : AuthStatics → α) : AuthSession ω α := Talk.gets fun d => f d.statics

/-- `pop3_ok`, which keeps the text behind `+OK` for OPIE. -/
def authOk : AuthSession ω Ps := do
  match ← genRecv with
  | .error err => return err
  | .ok buf =>
    let stage ← Talk.gets Dialogue.stage
    let (ok, text) := parseOk stage buf
    if ok = .success ∧ b.shared.opie.isSome then setAuth fun v => { v with lastok := text }
    return ok

/-- `gen_transact` -/
def authTransact (c : AuthCommand) : AuthSession ω Ps := genTransact (authOk b) c

/-! ## The capability probe -/

/-- What `capa_probe` notes of a line. -/
def AuthStatics.note (buf : Bytes) (v : AuthStatics) : AuthStatics :=
  { v with
    hasStls := v.hasStls || buf.contains (Bytes.lit "STLS")
    hasGssapi := v.hasGssapi || (b.shared.gssapi.isSome && buf.contains (Bytes.lit "GSSAPI"))
    hasKerberos :=
      v.hasKerberos || (b.shared.kerberosV4.isSome && buf.contains (Bytes.lit "KERBEROS_V4"))
    hasOtp := v.hasOtp || (b.shared.opie.isSome && buf.contains (Bytes.lit "X-OTP"))
    hasNtlm := v.hasNtlm || (b.shared.ntlm.isSome && buf.contains (Bytes.lit "NTLM"))
    hasCram := v.hasCram || buf.contains (Bytes.lit "CRAM-MD5") }

/-- The lines up to the dot, with what is made of them. -/
def listLines {α : Type} (note : Bytes → α → AuthSession ω α) :
    List Recv → α → AuthSession ω (Ps × α)
  | [], a => return (.socket, a)
  | r :: rest, a => do
    match ← accept r rest with
    | .error err => return (err, a)
    | .ok buf =>
      if dotLine buf then return (.success, a)
      else
        let a ← note buf a
        listLines note rest a

/-- The list that answers `CAPA`. -/
def capaLines (ok : Ps) : AuthSession ω Ps := do
  if ok = .success then
    let lines ← Talk.gets Dialogue.lines
    let (ok, _) ← listLines (fun buf _ => setAuth (AuthStatics.note b buf)) lines ()
    return ok
  else return ok

/-- `capa_probe`. What it knows of `STLS` is not forgotten. -/
def popCapaProbe : AuthSession ω Ps := do
  if ← getAuth AuthStatics.doneCapa then return .success
  else
    setAuth fun v =>
      { v with hasGssapi := false, hasKerberos := false, hasCram := false, hasOtp := false,
               hasNtlm := false }
    let ok ← authTransact b .capa
    let ok ← capaLines b ok
    setAuth fun v => { v with doneCapa := true }
    return ok

/-! ## RPA -/

/-- CompuServe servers want `AUTH` first, and list the mechanisms. -/
def rpaAuth (rpa : AuthCtl → AuthSession ω Ps) : AuthSession ω Ps := do
  let ok ← authTransact b .auth
  if ok = .success then
    let lines ← Talk.gets Dialogue.lines
    let (_, hasRpa) ← listLines
      (fun buf hasRpa => pure (hasRpa || Bytes.startsWithCI buf (Bytes.lit "rpa"))) lines false
    if hasRpa then
      let result ← rpa ctl
      return if result = .success then .success else .authfail
    else return .authfail
  else return .authfail

/-! ## The upgrade to TLS -/

/-- The methods that need the capabilities. -/
def needsCapa : Authenticate → Bool
  | .any | .gssapi | .kerberosV4 | .kerberosV5 | .otp | .cramMd5 => true
  | _ => false

/-- The probe failed in a way that says that there is no `CAPA`. -/
def withoutCapa (ok : Ps) : Ps × AuthCtl :=
  -- TLS is mandatory for this session, but server refused CAPA command
  if ctl.tls.mustStarttls then (ok, ctl)
  else
    let ctl := if ctl.tls.maybeStarttls then
      { ctl with tls := { ctl.tls with sslproto := some [] } } else ctl
    match ctl.authenticate with
    | .any => (.repoll, { ctl with authenticate := .password })
    | .password => (.repoll, ctl)
    | _ => (.authfail, ctl)

/-- The probe of `pop3_getauth`: the return code, where it returns. -/
def probeFirst : AuthSession ω (Option (Ps × AuthCtl)) := do
  if needsCapa ctl.authenticate || ctl.tls.maybeStarttls then
    let ok ← popCapaProbe b
    if ok ≠ .success ∧ (ok = .authfail ∨ (ok = .socket ∧ ctl.wehaveauthed = false)) then
      return some (withoutCapa ctl ok)
    else return none
  else return none

/-- `SSLOpen`, if `STLS` was accepted; `none` is a failure. -/
def openIfReady (handshake : Handshake) (ok : Ps) : AuthSession ω (Option Bytes) :=
  if ok = .success then sslOpen handshake ctl.remotename else pure none

/-- The `STLS` part of `pop3_getauth`: the return code, or the query to go on with, and whether
the connection may have TLS errors. -/
def stls (handshake : Handshake) : AuthSession ω (Except (Ps × AuthCtl) (AuthCtl × Bool)) := do
  if !ctl.tls.maybeStarttls then return .ok (ctl, false)
  let offered ← getAuth AuthStatics.hasStls
  -- if TLS is mandatory, ignore capabilities
  if !(offered || ctl.tls.mustStarttls) then return .ok (ctl, false)
  let ok ← authTransact b .stls
  match ← openIfReady ctl handshake ok with
  | some remotename =>
    let ctl := { ctl with remotename := remotename }
    setAuth fun v => { v with doneCapa := false }
    let ok ← popCapaProbe b
    return if ok = .success then .ok (ctl, false) else .error (ok, ctl)
  | none =>
    return if ctl.tls.mustStarttls then .error (.socket, ctl) else .ok (ctl, true)

/-! ## The mechanisms -/

/-- `"AUTH"` -/
def authWord : Bytes := Bytes.lit "AUTH"

/-- `KPOP_PORT` -/
def kpopPort : Bytes := Bytes.lit "kpop"

/-- Try a mechanism; where it fails, only `A_ANY` goes on to the next. -/
def tryNext (wanted : AuthSession ω Bool) (mechanism next : AuthSession ω Ps) :
    AuthSession ω Ps := do
  if ← wanted then
    let ok ← mechanism
    if ok = .success ∨ ctl.authenticate ≠ .any then return ok else next
  else next

/-- `do_pop3_ntlm` -/
def doPop3Ntlm (lib : NtlmLib) (mech : String) : AuthSession ω Ps := do
  genSend (.sasl (.start authWord (Bytes.lit mech) none))
  let result ← ntlmHelper .sasl lib
  if result ≠ .success then return result
  match ← genRecv with
  | .error err => return err
  | .ok msgbuf => return if msgbuf.contains (Bytes.lit "OK") then .success else .authfail

/-- Ordinary validation. -/
def userPass : AuthSession ω Ps := do
  let ok ← authTransact b (.user ctl.remotename)
  if ok ≠ .success then return ok
  let lastok ← getAuth AuthStatics.lastok
  match b.shared.opie, Bytes.findSub (Bytes.lit "otp-") lastok with
  | some lib, some i =>
    let passphrase := if ctl.password = Bytes.lit "opie" then [] else ctl.password
    match lib.generator (lastok.drop i) passphrase with
    | none => return .error
    | some response => authTransact b (.pass response)
  | _, _ =>
    -- KPOP does not check the password
    if (ctl.authenticate = .any ∨ ctl.authenticate = .kerberosV4 ∨
        ctl.authenticate = .kerberosV5) ∧ ctl.service = some kpopPort then
      authTransact b (.pass (Bytes.lit "krb_ticket"))
    else if ctl.authenticate = .any ∨ ctl.authenticate = .password then
      authTransact b (.pass ctl.password)
    else return .authfail

def tryCram : AuthSession ω Ps :=
  tryNext ctl
    (do return ctl.authenticate = .cramMd5 ||
      ((← getAuth AuthStatics.hasCram) && ctl.authenticate = .any))
    (doCramMd5 .sasl (authOk b) authWord b.shared.hmacMd5 ctl.remotename ctl.password)
    (userPass b ctl)

/-- The servers of MSN, and other NTLM. -/
def tryPopNtlm : AuthSession ω Ps :=
  match b.shared.ntlm with
  | none => tryCram b ctl
  | some lib => do
    if Bytes.equalsCI ctl.pollname (Bytes.lit "pop3.email.msn.com") ∨ ctl.authenticate = .msn then
      let result ← doPop3Ntlm lib "MSN"
      return if result = .success then .success else .authfail
    else
      tryNext ctl
        (do return ctl.authenticate = .ntlm ||
          ((← getAuth AuthStatics.hasNtlm) && ctl.authenticate = .any))
        (doPop3Ntlm lib "NTLM") (tryCram b ctl)

def tryPopOtp : AuthSession ω Ps :=
  match b.shared.opie with
  | none => tryPopNtlm b ctl
  | some lib =>
    tryNext ctl
      (do return (← getAuth AuthStatics.hasOtp) &&
        (ctl.authenticate = .otp || ctl.authenticate = .any))
      (doOtp .sasl authWord lib ctl.remotename ctl.password) (tryPopNtlm b ctl)

def tryPopGssapi : AuthSession ω Ps :=
  match b.shared.gssapi with
  | none => tryPopOtp b ctl
  | some lib =>
    tryNext ctl
      (do return (← getAuth AuthStatics.hasGssapi) &&
        (ctl.authenticate = .gssapi || (ctl.authenticate = .any && lib.hasCreds)))
      (doGssauth .sasl (authOk b) authWord lib ctl.remotename) (tryPopOtp b ctl)

/-- The mechanisms, from the first one on. -/
def tryPopKerberos : AuthSession ω Ps :=
  match b.shared.kerberosV4 with
  | none => tryPopGssapi b ctl
  | some lib =>
    tryNext ctl
      (do return (← getAuth AuthStatics.hasKerberos) &&
        (ctl.service.any fun service => service ≠ kpopPort) &&
        (ctl.authenticate = .kerberosV4 || ctl.authenticate = .kerberosV5 ||
          ctl.authenticate = .any))
      (doRfc1731 .sasl (authOk b) authWord lib) (tryPopGssapi b ctl)

/-! ## The timestamp of the greeting -/

/-- `atomchar` -/
def msgidAtomChar : Bytes :=
  Bytes.lit "!#$%&'*+-/0123456789=?ABCDEFGHIJKLMNOPQRSTUVWXYZ^_`abcdefghijklmnopqrstuvwxyz\x7b|\x7d~"

/-- `atom`: what follows it. The end of the string passes for one. -/
def msgidAtom : Bytes → Option Bytes
  | [] => some []
  | b :: s => if b ∈ msgidAtomChar then some (s.dropWhile (· ∈ msgidAtomChar)) else none

/-- `quotedstring` and `domain_literal`, after the first character, up to the last one. -/
def msgidQuoted (last : UInt8) (bad : Bytes) : Bytes → Option Bytes
  | [] => none
  | b :: s =>
    if b = last then some s
    else if b ∈ bad then none
    else if b = 92 then
      match s with
      | [] => none
      | c :: s => if 127 < c then none else msgidQuoted last bad s
    else if 127 < b then none
    else msgidQuoted last bad s

/-- `word` -/
def msgidWord (s : Bytes) : Option Bytes :=
  if s.head? = some 34 then msgidQuoted 34 [Bytes.cr] s.tail else msgidAtom s

/-- `subdomain` -/
def msgidSubdomain (s : Bytes) : Option Bytes :=
  if s.head? = some 91 then msgidQuoted 93 [Bytes.cr, 91] s.tail else msgidAtom s

/-- Parts with dots between them, and the character that ends them: what follows it. -/
def msgidParts (part : Bytes → Option Bytes) (last : UInt8) : (fuel : Nat) → Bytes → Option Bytes
  | 0, _ => none
  | fuel + 1, s =>
    match part s with
    | none => none
    | some [] => none
    | some (b :: s) =>
      if b = Bytes.dot then msgidParts part last fuel s
      else if b = last then some s
      else none

/-- `rfc822_valid_msgid`. Every round takes a dot, so the length is enough fuel. -/
def rfc822ValidMsgid : Bytes → Bool
  | 60 :: s =>
    match msgidParts msgidWord 64 s.length s with
    | none => false
    | some domain => (msgidParts msgidSubdomain 62 domain.length domain).isSome
  | _ => false

/-- The timestamp of the greeting, if it is valid. -/
def apopTimestamp (greeting : Bytes) : Option Bytes :=
  let start := greeting.dropWhile (· ≠ 60)
  let body := start.takeWhile (· ≠ 62)
  -- no `<`, no `>` behind it, or nothing between them
  if start = [] ∨ body.length = start.length ∨ body.length = 1 then none
  else if rfc822ValidMsgid (body ++ [62]) then some (body ++ [62])
  else none

/-! ## `pop3_getauth` -/

/-- `connection_may_have_tls_errors`: a server that claims to support TLS, but does not. -/
def afterErrors (mayHaveTlsErrors : Bool) (ok : Ps) : Ps × AuthCtl :=
  if mayHaveTlsErrors ∧ (ok = .socket ∨ ok = .protocol) then
    (.repoll, { ctl with tls := { ctl.tls with sslproto := some [] } })
  else (ok, ctl)

/-- `case P_POP3`, after RPA. -/
def pop3Login (handshake : Handshake) : AuthSession ω (Ps × AuthCtl) := do
  match ← probeFirst b ctl with
  | some result => return result
  | none =>
    match ← stls b ctl handshake with
    | .error result => return result
    | .ok (ctl, mayHaveTlsErrors) =>
      let ok ← tryPopKerberos b ctl
      return afterErrors ctl mayHaveTlsErrors ok

/-- The account is one of CompuServe's, and RPA is compiled in. -/
def PopBuild.rpaFor (b : PopBuild ω) (ctl : AuthCtl) : Option (AuthCtl → AuthSession ω Ps) :=
  if ctl.remotename.contains (Bytes.lit "@compuserve.com") then b.rpa else none

/-- The `switch` of `pop3_getauth`. -/
def popAuthorize (greeting : Bytes) (handshake : Handshake) : AuthSession ω (Ps × AuthCtl) :=
  match ctl.protocol with
  | .pop3 =>
    match b.rpaFor ctl with
    | some rpa => do
      let ok ← rpaAuth b ctl rpa
      return (ok, ctl)
    | none => pop3Login b ctl handshake
  | .apop =>
    match apopTimestamp greeting with
    | none => return (.authfail, ctl)
    | some timestamp => do
      let ok ← authTransact b (.apop ctl.remotename (b.md5Digest (timestamp ++ ctl.password)))
      return (ok, ctl)
  | .rpop => do
    let ok ← authTransact b (.user ctl.remotename)
    if ok = .success then
      let ok ← authTransact b (.rpop ctl.password)
      return (ok, ctl)
    else return (ok, ctl)
  -- undefined protocol request
  | _ => return (.error, ctl)

/-- `pop3_getauth`: the return code, and the query as it leaves it. -/
def pop3Getauth (greeting : Bytes) (handshake : Handshake) : AuthSession ω (Ps × AuthCtl) := do
  setAuth fun v =>
    { v with doneCapa := false, hasGssapi := false, hasKerberos := false, hasCram := false,
             hasOtp := false, hasStls := false }
  if ctl.authenticate = .ssh then return (.success, ctl)
  else popAuthorize b ctl greeting handshake

end

end Fetchmail.Pop3
