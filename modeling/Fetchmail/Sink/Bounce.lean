import Fetchmail.Lib.Bytes

/-!
# Bounce Messages

The message that `send_bouncemail` composes: which recipients it lists, with which error
under each, and the text around them. The recipients listed are those of the message that
bear a given mark; the errors are paired with them by position.
-/

namespace Fetchmail.Sink

open Fetchmail.Lib

/-! ## Messages and their recipients -/

/-- `XMIT_ACCEPT`, `XMIT_REJECT`, `XMIT_RCPTBAD`: the mark of a recipient. -/
inductive Xmit where
  | accept
  | reject
  | rcptbad
  deriving DecidableEq, Repr

/-- A member of the list `recipients`. -/
structure Recipient where
  id : Bytes
  mark : Xmit
  deriving DecidableEq, Repr

/-- `struct msgblk`, as far as the sink reads it. -/
structure Msgblk where
  /-- `headers`, absent in warnings -/
  headers : Option Bytes
  recipients : List Recipient
  returnPath : Bytes
  deriving DecidableEq, Repr

/-- The recipients that `RCPT TO` will be sent for. -/
def Msgblk.accepted (msg : Msgblk) : List Recipient :=
  msg.recipients.filter fun r => r.mark = .accept

/-- `rcpt_address(ctl, id, 1)`, cut to the size of its buffer. -/
def rcptAddress (smtpname : Option Bytes) (destaddr id : Bytes) : Bytes :=
  let address :=
    if 64 ∈ id then id
    else match smtpname with
      | some name => name
      | none => id ++ Bytes.lit "@" ++ destaddr
  address.take (635 + 128)

/-! ## The recipients listed -/

/-- The loop over the recipients, the same in both parts of the bounce: each of the class
with its error; `none` stands for the internal error that ends the loop. -/
def listing (address : Bytes → Bytes) (userclass : Xmit) (errors : List Bytes) :
    List Recipient → (nusers : Nat) → List (Bytes × Option Bytes)
  | [], _ => []
  | r :: rs, nusers =>
    if r.mark ≠ userclass then listing address userclass errors rs nusers
    else if errors.length = 1 then
      -- one error applies to all users
      (address r.id, errors.head?) :: listing address userclass errors rs nusers
    else if errors.length ≤ nusers then [(address r.id, none)]
    else
      -- errors correspond 1-1 to selected users
      (address r.id, errors[nusers]?) :: listing address userclass errors rs (nusers + 1)

/-! ## The text -/

/-- What `send_bouncemail` puts in besides: `fqdn_of_host`, the boundary with its numbers,
the time. -/
structure BounceHost where
  fqdn : Bytes
  boundary : Bytes
  timestamp : Bytes

/-- The line of the internal error. -/
def internalError : Bytes :=
  Bytes.lit "Internal error: SMTP error count doesn't match number of recipients.\r\n"

/-- One recipient in the part for people. -/
def failedAddress (entry : Bytes × Option Bytes) : Bytes :=
  entry.1 ++ Bytes.crlf ++
    match entry.2 with
    | some error => Bytes.lit "   SMTP error: " ++ error ++ Bytes.lit "\r\n\r\n"
    | none => internalError

/-- The field `Status`: an enhanced status code where the reply has one. -/
def statusField (error : Bytes) : Bytes :=
  if 9 < error.length ∧ Bytes.isdigit (Bytes.charAt error 4) ∧ Bytes.charAt error 5 = Bytes.dot ∧
      Bytes.isdigit (Bytes.charAt error 6) ∧ Bytes.charAt error 7 = Bytes.dot ∧
      Bytes.isdigit (Bytes.charAt error 8) then
    (error.drop 4).take 5
  else [Bytes.charAt error 0] ++ Bytes.lit ".0.0"

/-- One recipient in the part for programs. -/
def deliveryStatus (host : BounceHost) (entry : Bytes × Option Bytes) : Bytes :=
  Bytes.lit "\r\nFinal-Recipient: rfc822; " ++ entry.1 ++ Bytes.lit "\r\nLast-Attempt-Date: " ++
    host.timestamp ++ Bytes.lit "\r\nAction: failed\r\n" ++
    match entry.2 with
    | some error => Bytes.lit "Status: " ++ statusField error ++
        Bytes.lit "\r\nDiagnostic-Code: " ++ error ++ Bytes.crlf
    | none => internalError

/-- `Subject` to `Content-Type`, and the first part up to the recipients. -/
def bounceHead (host : BounceHost) (bounceTo message : Bytes) : Bytes :=
  Bytes.lit "Subject: Mail delivery failed: returning message to sender\r\n" ++
    Bytes.lit "From: Mail Delivery System <" ++
    (Bytes.lit "MAILER-DAEMON@" ++ host.fqdn).take (15 + 635 - 1) ++ Bytes.lit ">\r\n" ++
    Bytes.lit "To: " ++ bounceTo ++ Bytes.lit "\r\nMIME-Version: 1.0\r\n" ++
    Bytes.lit "Content-Type: multipart/report; report-type=delivery-status;\r\n\tboundary=\"" ++
    host.boundary ++ Bytes.lit "\"\r\n\r\n--" ++ host.boundary ++
    Bytes.lit "\r\nContent-Type: text/plain\r\n\r\n" ++
    Bytes.lit "This message was created automatically by mail delivery software.\r\n\r\n" ++
    Bytes.lit "A message that you sent could not be delivered to one or more of its\r\n" ++
    Bytes.lit "recipients. This is a permanent error.\r\n\r\nReason: " ++ message ++
    Bytes.lit "\r\nThe following address(es) failed:\r\n"

/-- The headers of the message that could not be delivered, and the end. -/
def bounceTail (host : BounceHost) (headers : Option Bytes) : Bytes :=
  Bytes.lit "--" ++ host.boundary ++ Bytes.lit "\r\nContent-Type: text/rfc822-headers\r\n\r\n" ++
    (match headers with
      | some text => text ++ Bytes.crlf
      | none => []) ++
    Bytes.lit "--" ++ host.boundary ++ Bytes.lit "--\r\n"

/-- The bounce with the recipients `listed` in it. -/
def bounceText (host : BounceHost) (bounceTo message : Bytes)
    (listed : List (Bytes × Option Bytes)) (nerrors : Nat) (headers : Option Bytes) : Bytes :=
  bounceHead host bounceTo message ++
    (if nerrors = 0 then [] else
      listed.flatMap failedAddress ++ Bytes.lit "--" ++ host.boundary ++
        Bytes.lit "\r\nContent-Type: message/delivery-status\r\n\r\nReporting-MTA: dns; " ++
        host.fqdn ++ Bytes.crlf ++ listed.flatMap (deliveryStatus host) ++ Bytes.crlf) ++
    bounceTail host headers

/-- A bounce: whom it goes to, whom it lists, what it says. -/
structure Bounce where
  bounceTo : Bytes
  listed : List (Bytes × Option Bytes)
  text : Bytes

/-- No bounces in reply to bounces. -/
def Msgblk.bounceable (msg : Msgblk) : Bool :=
  !(msg.returnPath = [] || msg.returnPath = Bytes.lit "<>" ||
    Bytes.equalsCI msg.returnPath (Bytes.lit "MAILER-DAEMON") ||
    Bytes.startsWithCI msg.returnPath (Bytes.lit "MAILER-DAEMON@"))

/-! ## Whom a bounce lists -/

section

variable {address : Bytes → Bytes} {userclass : Xmit} {errors : List Bytes}

/-- With one error, everybody of the class is listed with it. -/
theorem listing_one (error : Bytes) (rs : List Recipient) (nusers : Nat) :
    listing address userclass [error] rs nusers =
      (rs.filter fun r => r.mark = userclass).map fun r => (address r.id, some error) := by
  induction rs with
  | nil => rfl
  | cons r rs ih =>
    by_cases hmark : r.mark = userclass
    · simp [listing, hmark, ih]
    · simp [listing, hmark, ih]

/-- With more, the errors are dealt out from the front; if they run short, one more
recipient is listed without. -/
theorem listing_many (hone : errors.length ≠ 1) (rs : List Recipient) (nusers : Nat) :
    (listing address userclass errors rs nusers).length =
      min (rs.countP fun r => r.mark = userclass) (errors.length - nusers + 1) := by
  induction rs generalizing nusers with
  | nil => simp [listing]
  | cons r rs ih =>
    by_cases hmark : r.mark = userclass
    · by_cases hshort : errors.length ≤ nusers
      · simp [listing, hmark, hone, hshort]
      · simp only [listing, hmark, hone, hshort, ne_eq, not_true_eq_false, if_false,
          List.length_cons, ih, decide_true, List.countP_cons_of_pos]
        omega
    · simp [listing, hmark, ih]

/-- Where there are as many errors as recipients of the class, they are paired in order. -/
theorem listing_paired (hone : errors.length ≠ 1) (rs : List Recipient) (nusers : Nat)
    (hlen : nusers + (rs.countP fun r => r.mark = userclass) ≤ errors.length) :
    listing address userclass errors rs nusers =
      List.zipWith (fun r error => (address r.id, some error))
        (rs.filter fun r => r.mark = userclass) (errors.drop nusers) := by
  induction rs generalizing nusers with
  | nil => simp [listing]
  | cons r rs ih =>
    by_cases hmark : r.mark = userclass
    · simp only [hmark, decide_true, List.countP_cons_of_pos] at hlen
      have hlt : nusers < errors.length := by omega
      have hshort : ¬ errors.length ≤ nusers := by omega
      rw [List.drop_eq_getElem_cons hlt]
      simp only [listing, hmark, hone, hshort, ne_eq, not_true_eq_false, if_false, decide_true,
        List.filter_cons_of_pos, List.zipWith_cons_cons, List.getElem?_eq_getElem hlt]
      rw [ih (nusers + 1) (by omega)]
    · simp only [hmark, decide_false, Bool.false_eq_true, not_false_eq_true,
        List.countP_cons_of_neg] at hlen
      simp only [listing, hmark, ne_eq, not_false_eq_true, if_true, decide_false,
        Bool.false_eq_true, List.filter_cons_of_neg]
      exact ih nusers hlen

end

end Fetchmail.Sink
