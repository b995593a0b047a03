import Fetchmail.Basic
import Fetchmail.Lib.Bytes

/-!
# Opportunistic and Mandatory TLS

`starttls.c`, in a build with `SSL_ENABLE`.
-/

namespace Fetchmail

open Fetchmail.Lib

/-- The TLS settings of `struct query`. -/
structure TlsCtl where
  useSsl : Bool
  /-- `none` is a null pointer -/
  sslproto : Option Bytes
  /-- `sslfingerprint` is given -/
  sslfingerprint : Bool
  sslcertck : Bool
  deriving DecidableEq, Repr

namespace TlsCtl

/-- `maybe_starttls`: opportunistic or forced TLS. -/
def maybeStarttls (ctl : TlsCtl) : Bool :=
  (match ctl.sslproto with
    | none => true
    | some sslproto => sslproto ≠ []) && !ctl.useSsl

/-- `must_starttls`: the user requires TLS. -/
def mustStarttls (ctl : TlsCtl) : Bool :=
  ctl.maybeStarttls &&
    (ctl.sslfingerprint || ctl.sslcertck ||
      match ctl.sslproto with
      | none => false
      | some sslproto => Bytes.equalsCI sslproto (Bytes.lit "tls1"))

theorem maybe_of_must {ctl : TlsCtl} (h : ctl.mustStarttls = true) : ctl.maybeStarttls = true := by
  simp only [mustStarttls, Bool.and_eq_true] at h
  exact h.1

end TlsCtl

end Fetchmail
