import Fetchmail.Auth.Base64
import Fetchmail.Transact.Dialogue

/-!
# Authentication Exchanges

The exchanges that IMAP and POP3 share: `do_authcert` of `imap.c`, `do_cram_md5`,
`do_gssauth`, `do_rfc1731`, `do_otp` and `ntlm_helper`. The cryptographic libraries that
they call are parameters. What an exchange sends is a `SaslLine`, which the protocol wraps
into its own commands.
-/

namespace Fetchmail.Auth

open Fetchmail.Lib Fetchmail.Transact

/-- A line of an authentication exchange. -/
inductive SaslLine where
  /-- `"%s MECH"` or `"%s MECH %s"` -/
  | start (command mech : Bytes) (initial : Option Bytes)
  /-- a continuation line -/
  | response (text : Bytes)
  /-- `"*"`, the cancellation -/
  | cancel
  deriving DecidableEq, Repr

/-! ## Libraries -/

/-- What `gss_init_sec_context` does, call after call; the argument of `next` is the token
of the server. -/
inductive GssContext where
  | fail
  | complete (token : Bytes)
  | continueNeeded (token : Bytes) (next : Bytes → GssContext)

/-- The GSSAPI library, for one service name. -/
structure GssLib where
  /-- `check_gss_creds` finds credentials -/
  hasCreds : Bool
  /-- the context of an imported name; `none` where `gss_import_name` fails -/
  importName : Option GssContext
  unwrap : Bytes → Option Bytes
  wrap : Bytes → Option Bytes
  /-- `gss_delete_sec_context` completes -/
  deleteContext : Bool

/-- The Kerberos IV library: ticket and authenticator for the challenge, and the encrypted
answer to the second ready response; `none` where a call fails or the check does. -/
structure KrbLib where
  ticket : Bytes → Option Bytes
  reply : Bytes → Bytes → Option Bytes

/-- The message builders of `smbutil.c`; `none` is a challenge with invalid data. -/
structure NtlmLib where
  authRequest : Bytes
  authResponse : Bytes → Option Bytes

/-- The one-time password library. -/
structure OpieLib where
  /-- the size of the challenge buffer -/
  challengeMax : Nat
  /-- `opiegenerator(challenge, password)`, the user being asked where that is needed -/
  generator : Bytes → Bytes → Option Bytes

/-- The parts that are compiled in or not, with their libraries. -/
structure Build where
  hmacMd5 : Bytes → Bytes → Bytes
  gssapi : Option GssLib
  kerberosV4 : Option KrbLib
  opie : Option OpieLib
  ntlm : Option NtlmLib

section

variable {σ ω C : Type} (sasl : SaslLine → C) (parseResponse : Talk σ ω C Ps) (command : Bytes)

/-! ## Exchanges -/

/-- `do_authcert` -/
def doAuthcert (name : Bytes) : Talk σ ω C Ps :=
  let len := name.length
  -- the source's own idea of the size of the encoded name
  if name ≠ [] ∧ 256 ≤ len / 3 + (if len % 3 = 0 then 0 else 4) then return .authfail
  else
    genTransact parseResponse
      (sasl (.start command (Bytes.lit "EXTERNAL") (some (to64frombits name))))

/-- `"%02x"` -/
def hexByte (b : UInt8) : Bytes :=
  let digits := Bytes.lit "0123456789abcdef"
  [Bytes.charAt digits (b.toNat / 16), Bytes.charAt digits (b.toNat % 16)]

/-- `do_cram_md5`, without a prefix to strip. -/
def doCramMd5 (hmacMd5 : Bytes → Bytes → Bytes) (remotename password : Bytes) :
    Talk σ ω C Ps := do
  genSend (sasl (.start command (Bytes.lit "CRAM-MD5") none))
  match ← genRecv with
  | .error err => return err
  | .ok buf =>
    match from64tobits buf 768 with
    | none => return .authfail
    | some msgId =>
      let response := (hmacMd5 password (Bytes.cstr msgId)).flatMap hexByte
      let reply := (remotename ++ [Bytes.space] ++ response).take 1023
      suppressingTags (genTransact parseResponse (sasl (.response (to64frombits reply))))

/-- The label `cancelfail` of `do_gssauth`. -/
def gssCancel : Talk σ ω C Ps := do
  suppressingTags (genSend (sasl .cancel))
  match ← genRecv with
  | .error err => return err
  | .ok _ => return .authfail

/-- The security context initialisation loop. -/
def gssInitSecContext : GssContext → Talk σ ω C Ps
  | .fail => gssCancel sasl
  | .complete token => do
    suppressingTags (genSend (sasl (.response (to64frombits token))))
    return .success
  | .continueNeeded token next => do
    suppressingTags (genSend (sasl (.response (to64frombits token))))
    match ← genRecv with
    | .error err => return err
    -- bad data counts as an empty token
    | .ok buf => gssInitSecContext (next ((from64tobits (buf.drop 2) 8192).getD []))

/-- The security level negotiation that ends `do_gssauth`. -/
def gssNegotiate (lib : GssLib) (username : Bytes) : Talk σ ω C Ps := do
  match ← genRecv with
  | .error err => return err
  | .ok buf =>
    match lib.unwrap ((from64tobits (buf.drop 2) 8192).getD []) with
    | none => return .authfail
    | some level =>
      if Bytes.charAt level 0 &&& 1 = 0 then return .authfail
      else
        match lib.wrap (1 :: (level.drop 1).take 3 ++ username ++ [Bytes.nul]) with
        | none => return .authfail
        | some token =>
          let result ← suppressingTags
            (genTransact parseResponse (sasl (.response (to64frombits token))))
          return if lib.deleteContext then result else .authfail

/-- `do_gssauth` -/
def doGssauth (lib : GssLib) (username : Bytes) : Talk σ ω C Ps := do
  match lib.importName with
  | none => return .authfail
  | some context =>
    genSend (sasl (.start command (Bytes.lit "GSSAPI") none))
    match ← genRecv with
    | .error err => return err
    | .ok buf =>
      -- the server's first challenge has to be empty
      if Bytes.charAt buf 0 ≠ 43 ∨ (buf.drop 1).any fun b => b ≠ Bytes.space ∧ b ≠ Bytes.tab then
        gssCancel sasl
      else
        let result ← gssInitSecContext sasl context
        if result = .success then gssNegotiate sasl parseResponse lib username
        else return result

/-- `do_rfc1731` -/
def doRfc1731 (lib : KrbLib) : Talk σ ω C Ps := do
  genSend (sasl (.start command (Bytes.lit "KERBEROS_V4") none))
  match ← genRecv with
  | .error err => return err
  | .ok buf =>
    match (from64tobits buf 4).bind fun challenge => (lib.ticket challenge).map (challenge, ·) with
    | none => return .authfail
    | some (challenge, authenticator) =>
      sockWrite (sasl (.response (to64frombits authenticator)))
      match ← genRecv with
      | .error err => return err
      | .ok buf =>
        match (from64tobits buf 4096).bind (lib.reply challenge) with
        | none => return .authfail
        | some reply =>
          suppressingTags (genTransact parseResponse (sasl (.response (to64frombits reply))))

/-- `do_otp` -/
def doOtp (lib : OpieLib) (remotename password : Bytes) : Talk σ ω C Ps := do
  genSend (sasl (.start command (Bytes.lit "X-OTP") none))
  match ← genRecv with
  | .error err => return err
  | .ok buf =>
    if Bytes.charAt buf 0 ≠ 43 then return .authfail
    else
      suppressingTags (genSend (sasl (.response (to64frombits remotename))))
      match ← genRecv with
      | .error err => return err
      | .ok buf =>
        match (from64tobits (buf.drop 2) lib.challengeMax).bind fun challenge =>
            lib.generator (Bytes.cstr challenge) password with
        | none => return .authfail
        | some response =>
          suppressingTags (genSend (sasl (.response (to64frombits response))))
          match ← genRecv with
          | .error err => return err
          | .ok _ => return .success

/-- `ntlm_helper`: the exchange after the command, without the server's verdict. -/
def ntlmHelper (lib : NtlmLib) : Talk σ ω C Ps := do
  match ← genRecv with
  | .error err => return err
  | .ok buf =>
    if Bytes.charAt buf 0 ≠ 43 ∧ (buf.drop 1).any fun b => b ≠ Bytes.space ∧ b ≠ Bytes.tab then
      sockWrite (sasl .cancel)
      return .authfail
    else
      sockWrite (sasl (.response (to64frombits lib.authRequest)))
      match ← genRecv with
      | .error err =>
        sockWrite (sasl .cancel)
        return err
      | .ok buf =>
        match (from64tobits buf 1076).filter fun challenge => 32 ≤ challenge.length with
        | none => return .authfail
        | some challenge =>
          match lib.authResponse challenge with
          | none =>
            sockWrite (sasl .cancel)
            return .authfail
          | some response =>
            sockWrite (sasl (.response (to64frombits response)))
            return .success

end

end Fetchmail.Auth
