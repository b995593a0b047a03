import Fetchmail.Auth.Sasl
import Fetchmail.Transact.Confidential

/-!
# What Holds of an Exchange

An authentication exchange is put together from a few operations: lines of its protocol are
sent, and lines of the server are read. What holds of these, and passes to a sequence of parts,
holds of every exchange.
-/

namespace Fetchmail.Auth

open Fetchmail.Lib Fetchmail.Transact

/-- A property of code that the operations of an exchange have, and that passes to sequences. -/
structure Exchange {σ ω C : Type} (sasl : SaslLine → C)
    (Q : ∀ {α : Type}, Talk σ ω C α → Prop) : Prop where
  pure : ∀ {α : Type} (a : α), Q (pure a : Talk σ ω C α)
  bind : ∀ {α β : Type} {x : Talk σ ω C α} {f : α → Talk σ ω C β},
    Q x → (∀ a, Q (f a)) → Q (x >>= f)
  recv : Q (genRecv : Talk σ ω C _)
  write : ∀ line, Q (sockWrite (sasl line) : Talk σ ω C _)
  send : ∀ line, Q (genSend (sasl line) : Talk σ ω C _)
  untagged : ∀ {α : Type} {x : Talk σ ω C α}, Q x → Q (suppressingTags x)

variable {σ ω C : Type} {sasl : SaslLine → C} {Q : ∀ {α : Type}, Talk σ ω C α → Prop}
  {parseResponse : Talk σ ω C Ps} (h : Exchange sasl Q) (hparse : Q parseResponse)
  (command : Bytes)

/-- Both branches. -/
theorem holds_ite {α : Type} {c : Prop} [Decidable c] {x y : Talk σ ω C α} (hx : Q x)
    (hy : Q y) : Q (if c then x else y) := by
  split
  · exact hx
  · exact hy

include h

/-- An exchange goes on only where a line was received. -/
theorem Exchange.afterRecv {α : Type} {f : Except Ps Bytes → Talk σ ω C α}
    (herr : ∀ err, Q (f (.error err))) (hline : ∀ buf, Q (f (.ok buf))) : Q (genRecv >>= f) := by
  apply h.bind h.recv
  intro received
  cases received with
  | error err => exact herr err
  | ok buf => exact hline buf

/-- A continuation line, sent without a tag. -/
theorem Exchange.response (line : SaslLine) :
    Q (suppressingTags (genSend (sasl line)) : Talk σ ω C Unit) :=
  h.untagged (h.send line)

/-- A line, and the reading of the response to it. -/
theorem Exchange.transact (hparse : Q parseResponse) (line : SaslLine) :
    Q (genTransact parseResponse (sasl line)) := h.bind (h.send line) fun _ => hparse

/-- `gss_cancel`: a line with an asterisk, and the response. -/
theorem Exchange.cancelled : Q (gssCancel sasl : Talk σ ω C Ps) := by
  refine h.bind (h.response .cancel) fun _ => ?_
  apply h.afterRecv
  · exact fun err => h.pure _
  · exact fun buf => h.pure _

/-- The context is built up by tokens. By induction on what the library wants. -/
theorem Exchange.context (context : GssContext) :
    Q (gssInitSecContext sasl context : Talk σ ω C Ps) := by
  induction context with
  | fail => exact h.cancelled
  | complete token => exact h.bind (h.response _) fun _ => h.pure _
  | continueNeeded token next ih =>
    unfold gssInitSecContext
    refine h.bind (h.response _) fun _ => ?_
    apply h.afterRecv
    · exact fun err => h.pure _
    · exact fun buf => ih _

/-- `do_authntlm` -/
theorem Exchange.ntlm (lib : NtlmLib) : Q (ntlmHelper sasl lib : Talk σ ω C Ps) := by
  have hcancel : ∀ err, Q (do sockWrite (sasl .cancel); return err : Talk σ ω C Ps) :=
    fun err => h.bind (h.write _) fun _ => h.pure _
  apply h.afterRecv
  · exact fun err => h.pure _
  intro buf
  dsimp only
  apply holds_ite (hcancel _)
  refine h.bind (h.write _) fun _ => ?_
  apply h.afterRecv
  · exact hcancel
  intro buf
  dsimp only
  split
  · exact h.pure _
  · split
    · exact hcancel _
    · exact h.bind (h.write _) fun _ => h.pure _

/-- `do_otp` -/
theorem Exchange.otp (lib : OpieLib) (remotename password : Bytes) :
    Q (doOtp sasl command lib remotename password : Talk σ ω C Ps) := by
  refine h.bind (h.send _) fun _ => ?_
  apply h.afterRecv
  · exact fun err => h.pure _
  intro buf
  dsimp only
  apply holds_ite (h.pure _)
  refine h.bind (h.response _) fun _ => ?_
  apply h.afterRecv
  · exact fun err => h.pure _
  intro buf
  dsimp only
  split
  · exact h.pure _
  · refine h.bind (h.response _) fun _ => ?_
    apply h.afterRecv
    · exact fun err => h.pure _
    · exact fun buf => h.pure _

/-! ## Exchanges with a verdict -/

include hparse

/-- The last line of an exchange, with the verdict of the server. -/
theorem Exchange.verdict (line : SaslLine) :
    Q (suppressingTags (genTransact parseResponse (sasl line)) : Talk σ ω C Ps) :=
  h.untagged (h.transact hparse line)

/-- `do_authcert` -/
theorem Exchange.authcert (name : Bytes) :
    Q (doAuthcert sasl parseResponse command name : Talk σ ω C Ps) :=
  holds_ite (h.pure _) (h.transact hparse _)

/-- `do_cram_md5` -/
theorem Exchange.cramMd5 (hmacMd5 : Bytes → Bytes → Bytes) (remotename password : Bytes) :
    Q (doCramMd5 sasl parseResponse command hmacMd5 remotename password :
      Talk σ ω C Ps) := by
  refine h.bind (h.send _) fun _ => ?_
  apply h.afterRecv
  · exact fun err => h.pure _
  intro buf
  dsimp only
  split
  · exact h.pure _
  · exact h.verdict hparse _

/-- The security layers are negotiated. -/
theorem Exchange.negotiation (lib : GssLib) (username : Bytes) :
    Q (gssNegotiate sasl parseResponse lib username : Talk σ ω C Ps) := by
  apply h.afterRecv
  · exact fun err => h.pure _
  intro buf
  dsimp only
  split
  · exact h.pure _
  · apply holds_ite (h.pure _)
    split
    · exact h.pure _
    · exact h.bind (h.verdict hparse _) fun _ => h.pure _

/-- `do_gssauth`, from the context to the end of the negotiation. -/
theorem Exchange.gssauth (lib : GssLib) (username : Bytes) :
    Q (doGssauth sasl parseResponse command lib username : Talk σ ω C Ps) := by
  unfold doGssauth
  cases lib.importName with
  | none => exact h.pure _
  | some context =>
    refine h.bind (h.send _) fun _ => ?_
    apply h.afterRecv
    · exact fun err => h.pure _
    intro buf
    dsimp only
    apply holds_ite (h.cancelled)
    refine h.bind (h.context context) fun result => ?_
    exact holds_ite (h.negotiation hparse lib username) (h.pure _)

/-- `do_rfc1731` -/
theorem Exchange.rfc1731 (lib : KrbLib) :
    Q (doRfc1731 sasl parseResponse command lib : Talk σ ω C Ps) := by
  refine h.bind (h.send _) fun _ => ?_
  apply h.afterRecv
  · exact fun err => h.pure _
  intro buf
  dsimp only
  split
  · exact h.pure _
  · refine h.bind (h.write _) fun _ => ?_
    apply h.afterRecv
    · exact fun err => h.pure _
    intro buf
    dsimp only
    split
    · exact h.pure _
    · exact h.verdict hparse _

omit h hparse in
/-- An exchange sends nothing but the lines of its protocol, and leaves the connection as secure
as it found it. -/
theorem exchange_sends {P : C → Prop} (hsasl : ∀ line, P (sasl line)) :
    Exchange sasl (fun {α} (x : Talk σ ω C α) => Sends P x) where
  pure := sends_pure
  bind := Sends.bind
  recv := sends_genRecv
  write := fun line => sends_sockWrite (hsasl line)
  send := fun line => sends_genSend (hsasl line)
  untagged := Sends.suppressingTags

end Fetchmail.Auth
