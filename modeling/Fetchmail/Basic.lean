import Mathlib.Algebra.Ring.Int.Defs
import Mathlib.Algebra.Ring.Nat
import Mathlib.Tactic.Common

/-!
# Status Codes and Per-Account Settings

The vocabulary that the drivers, the sinks and the protocol methods share: the `PS_`
return codes of `fetchmail.h`, the protocols, and the part of `struct query` and
`struct runctl` that the modelled functions read.
-/

namespace Fetchmail

/-- The `PS_` codes. `success` is the zero on which the code's `if (err)` tests rely. -/
inductive Ps where
  | success
  | nomail
  | socket
  | authfail
  | protocol
  | syntaxError
  | ioerr
  | error
  | exclude
  | lockbusy
  | smtp
  | dns
  | bsmtp
  | maxfetch
  | servbusy
  | undefined
  | transient
  | refused
  | retained
  | repoll
  | idletimeout
  | untagged
  deriving DecidableEq, Repr

/-- The `P_` protocol identifiers. -/
inductive Protocol where
  | auto
  | pop2
  | pop3
  | apop
  | rpop
  | imap
  | etrn
  | odmr
  deriving DecidableEq, Repr

/-- The `A_` authentication types. -/
inductive Authenticate where
  | any
  | password
  | ntlm
  | cramMd5
  | otp
  | kerberosV4
  | kerberosV5
  | gssapi
  | ssh
  | msn
  | external
  deriving DecidableEq, Repr

/-- `NUM_NONZERO(n)`: a numeric option given with a nonzero value (zero is stored as `-1`,
an option not given as `0`). -/
def numNonzero (n : Int) : Bool := 0 < n

@[simp]
theorem numNonzero_iff {n : Int} : numNonzero n = true ↔ 0 < n := by
  simp [numNonzero]

end Fetchmail
