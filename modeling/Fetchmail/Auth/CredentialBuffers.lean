import Fetchmail.Auth.Base64Bounds
import Fetchmail.Auth.Sasl
import Fetchmail.Lib.Storage

/-!
# Credentials in Arrays

`do_authcert`, `do_cram_md5` and `SMTP_auth` with the arrays that they encode user names and
passwords into. A write that does not lie within its array has no result, and neither has reading
through a pointer that a search has left null.
-/

namespace Fetchmail.Auth

open Fetchmail.Lib Fetchmail.Transact

/-! ## Encoding into an array -/

/-- `to64frombits(mem, data, len)`, with the terminator. -/
def encodeInto (mem data : Bytes) : Option Bytes :=
  Storage.write mem 0 (to64frombits data ++ [Bytes.nul])

/-- `p = strchr(s, ' '); p++;`, where `p` is read afterwards. -/
def behindBlank (s : Bytes) : Option Bytes :=
  match s.dropWhile (· ≠ Bytes.space) with
  | [] => none
  | _ :: p => some p

/-- What `hmac_md5` computes. -/
abbrev Digest : Type := { d : Bytes // d.length = 16 }

/-- `"%s %02x..."` with a user name and a digest, cut to an array of a size. -/
def digestReply (size : Nat) (username : Bytes) (digest : Digest) : Bytes :=
  (username ++ [Bytes.space] ++ digest.val.flatMap hexByte).take (size - 1)

/-! ## `do_authcert` and `do_cram_md5` -/

/-- `do_authcert`: what it sends behind `EXTERNAL`, or its return code. -/
def authcertReply (buf : Storage.Block 256) (name : Bytes) : Option (Except Ps Bytes) :=
  if name ≠ [] then
    if name.length / 3 + (if name.length % 3 = 0 then 0 else 4) < 256 then
      (encodeInto buf.val name).map fun buf => .ok (Bytes.cstr buf)
    else some (.error .authfail)
  else some (.ok [])

/-- The challenge, without the prefix `strip` if there is one. -/
def challengeText (strip : Option Bytes) (line : Bytes) : Bytes :=
  match strip with
  | none => line
  | some pre => if pre <+: line then line.drop pre.length else line

/-- `do_cram_md5`: what it answers to the line that it has received in `buf1`, or its return
code. -/
def cramMd5Reply (hmacMd5 : Bytes → Bytes → Digest) (buf1 : Storage.Block 1024)
    (strip : Option Bytes) (remotename password : Bytes) : Option (Except Ps Bytes) :=
  match from64tobits (challengeText strip (Bytes.cstr buf1.val)) 768 with
  | none => some (.error .authfail)
  | some msgId =>
    -- a challenge that fills its array loses its last byte to the terminator
    let digest := hmacMd5 password (Bytes.cstr (msgId.take 767))
    (encodeInto buf1.val (digestReply 1024 remotename digest)).map fun buf1 =>
      .ok (Bytes.cstr buf1)

/-! ## `SMTP_auth` -/

/-- What `SMTP_auth` is called with, and what it reads: `smtp_response` after the first and the
second `SockRead`. -/
structure SmtpCredentials where
  username : Bytes
  password : Bytes
  /-- the line of the `EHLO` reply that offers `AUTH` -/
  buf : Bytes
  first : Bytes
  second : Bytes
  deriving DecidableEq, Repr

/-- `SMTP_auth_error`, behind the lines that were sent before. -/
def smtpAuthError (sent : List Bytes) : List Bytes := sent ++ [Bytes.lit "*"]

/-- `strlcpy(tmp, smtp_response, sizeof(tmp))` -/
def tmpOf (response : Bytes) : Bytes := response.take 511

/-- `strncmp(tmp, "334", 3) == 0` -/
def serverReady (tmp : Bytes) : Bool := tmp.take 3 = Bytes.lit "334"

/-- `from64tobits(b64buf, p, sizeof(b64buf) - 1)`: `none` if the result is not positive. -/
def smtpChallenge (p : Bytes) : Option Bytes := (from64tobits p 511).filter fun text => text ≠ []

section

variable (hmacMd5 : Bytes → Bytes → Digest) (b64buf : Storage.Block 512) (c : SmtpCredentials)

/-- `CRAM-MD5`: the lines that are sent. -/
def smtpCramMd5 : Option (List Bytes) :=
  let sent := [Bytes.lit "AUTH CRAM-MD5"]
  let tmp := tmpOf c.first
  if serverReady tmp = false then some (smtpAuthError sent)
  else
    (behindBlank tmp).bind fun p =>
      match smtpChallenge p with
      | none => some (smtpAuthError sent)
      | some challenge =>
        let digest := hmacMd5 c.password (Bytes.cstr challenge)
        (encodeInto b64buf.val (digestReply 512 c.username digest)).map fun b64buf =>
          sent ++ [Bytes.cstr b64buf]

/-- `^user^password`, with the placeholders replaced. -/
def plainMessage (username password : Bytes) : Bytes :=
  ((94 :: username ++ 94 :: password).take 511).map fun b => if b = 94 then Bytes.nul else b

/-- `PLAIN` -/
def smtpPlain : Option (List Bytes) :=
  (encodeInto b64buf.val (plainMessage c.username c.password)).map fun b64buf =>
    [Bytes.lit "AUTH PLAIN " ++ Bytes.cstr b64buf]

/-- `LOGIN` -/
def smtpLogin : Option (List Bytes) :=
  let sent := [Bytes.lit "AUTH LOGIN"]
  let tmp := tmpOf c.first
  if serverReady tmp = false then some (smtpAuthError sent)
  else
    (behindBlank tmp).bind fun p =>
      match smtpChallenge p with
      | none => some (smtpAuthError sent)
      | some _ =>
        (encodeInto b64buf.val c.username).bind fun b64buf =>
          let sent := sent ++ [Bytes.cstr b64buf]
          -- here the search is checked
          match behindBlank (tmpOf c.second) with
          | none => some (smtpAuthError sent)
          | some p =>
            match smtpChallenge p with
            | none => some (smtpAuthError sent)
            | some _ =>
              (encodeInto b64buf c.password).map fun b64buf => sent ++ [Bytes.cstr b64buf]

/-- `SMTP_auth`, where neither the user name nor the password is null: the lines that are sent. -/
def smtpAuth : Option (List Bytes) :=
  if c.buf.contains (Bytes.lit "CRAM-MD5") then smtpCramMd5 hmacMd5 b64buf c
  else if c.buf.contains (Bytes.lit "PLAIN") then smtpPlain b64buf c
  else if c.buf.contains (Bytes.lit "LOGIN") then smtpLogin b64buf c
  else some []

end

/-! ## What fits -/

theorem length_to64frombits (x : Bytes) : (to64frombits x).length = 4 * ((x.length + 2) / 3) := by
  induction x using to64frombits.induct with
  | case1 a b c rest ih =>
    simp only [to64frombits, List.length_cons, ih]
    omega
  | case2 a b => simp [to64frombits]
  | case3 a => simp [to64frombits]
  | case4 => rfl

variable {mem mem' data : Bytes}

theorem encodeInto_isSome :
    (encodeInto mem data).isSome = true ↔ 4 * ((data.length + 2) / 3) < mem.length := by
  have hlen : (to64frombits data ++ [Bytes.nul]).length = 4 * ((data.length + 2) / 3) + 1 := by
    rw [List.length_append, length_to64frombits, List.length_singleton]
  unfold encodeInto Storage.write
  split
  · next hfit => exact iff_of_true rfl (by omega)
  · next hfit => exact iff_of_false Bool.false_ne_true (by omega)

/-- The array holds the encoded text. -/
theorem cstr_encodeInto (h : encodeInto mem data = some mem') :
    Bytes.cstr mem' = to64frombits data ∧ mem'.length = mem.length := by
  refine ⟨?_, Storage.length_write h⟩
  rw [encodeInto, Storage.write] at h
  split at h
  · rw [← Option.some.inj h, List.take_zero, List.nil_append, List.append_assoc, Bytes.cstr,
      List.takeWhile_append_of_pos]
    · simp
    · intro b hb
      exact decide_eq_true fun heq => nul_notMem_to64frombits data (heq ▸ hb)
  · cases h

theorem behindBlank_isSome {s : Bytes} : (behindBlank s).isSome = true ↔ Bytes.space ∈ s := by
  induction s with
  | nil => simp [behindBlank]
  | cons b s ih =>
    unfold behindBlank at ih ⊢
    by_cases hb : b = Bytes.space
    · simp [hb]
    · rw [List.dropWhile_cons_of_pos (by simpa using hb), ih]
      simp [Ne.symm hb]

@[simp]
theorem length_digestReply (size : Nat) (username : Bytes) (digest : Digest) :
    (digestReply size username digest).length = min (size - 1) (username.length + 33) := by
  have hhex : ∀ d : Bytes, (d.flatMap hexByte).length = 2 * d.length := by
    intro d
    induction d with
    | nil => rfl
    | cons b d ih =>
      rw [List.flatMap_cons, List.length_append, ih, List.length_cons, hexByte]
      simp only [List.length_cons, List.length_nil]
      omega
  rw [digestReply, List.length_take, List.length_append, List.length_append, hhex, digest.property]
  rfl

/-- `do_authcert` checks for too small a size. -/
theorem authcertReply_isSome (buf : Storage.Block 256) (name : Bytes) :
    (authcertReply buf name).isSome = true ↔
      name.length ≤ 189 ∨ 768 ≤ name.length ∨ (757 ≤ name.length ∧ name.length % 3 ≠ 0) := by
  unfold authcertReply
  by_cases hname : name = []
  · simp [hname]
  rw [if_pos hname]
  by_cases hguard : name.length / 3 + (if name.length % 3 = 0 then 0 else 4) < 256
  · rw [if_pos hguard, Option.isSome_map, encodeInto_isSome, buf.property]
    split at hguard <;> omega
  · rw [if_neg hguard]
    simp only [Option.isSome_some, true_iff]
    split at hguard <;> omega

/-- `do_cram_md5` checks nothing. -/
theorem cramMd5Reply_isSome (hmacMd5 : Bytes → Bytes → Digest) (buf1 : Storage.Block 1024)
    (strip : Option Bytes) (remotename password : Bytes) :
    (cramMd5Reply hmacMd5 buf1 strip remotename password).isSome = true ↔
      from64tobits (challengeText strip (Bytes.cstr buf1.val)) 768 = none ∨
        remotename.length ≤ 732 := by
  unfold cramMd5Reply
  cases from64tobits (challengeText strip (Bytes.cstr buf1.val)) 768 with
  | none => simp
  | some msgId =>
    simp only [Option.isSome_map, encodeInto_isSome, buf1.property, length_digestReply,
      reduceCtorEq, false_or]
    omega

/-! ### The exchanges -/

section

variable {σ ω C : Type} (sasl : SaslLine → C) (parseResponse : Talk σ ω C Ps) (command : Bytes)

end

/-! ### The listener -/

/-- The text behind the blank of a reply can be decoded. -/
def Challenging (response : Bytes) : Prop :=
  ∃ p, behindBlank (tmpOf response) = some p ∧ smtpChallenge p ≠ none

/-- A reply that lets the exchange go on has a blank, and if it has a challenge then the rest of
the exchange is safe. -/
def AnsweredSafely (response : Bytes) (rest : Prop) : Prop :=
  serverReady (tmpOf response) = true →
    Bytes.space ∈ tmpOf response ∧ (Challenging response → rest)

/-- The credentials fit for the mechanism that is chosen. -/
def SmtpFits (c : SmtpCredentials) : Prop :=
  if c.buf.contains (Bytes.lit "CRAM-MD5") then AnsweredSafely c.first (c.username.length ≤ 348)
  else if c.buf.contains (Bytes.lit "PLAIN") then c.username.length + c.password.length ≤ 379
  else if c.buf.contains (Bytes.lit "LOGIN") then
    AnsweredSafely c.first
      (c.username.length ≤ 381 ∧ (Challenging c.second → c.password.length ≤ 381))
  else True

variable (hmacMd5 : Bytes → Bytes → Digest) (b64buf : Storage.Block 512) (c : SmtpCredentials)

/-- The first reply of an exchange, and what follows it. -/
theorem answered_isSome {response : Bytes} {refused : List Bytes} {P : Prop}
    {next : Bytes → Option (List Bytes)} (hnext : ∀ text, (next text).isSome = true ↔ P) :
    (if serverReady (tmpOf response) = false then some refused
      else (behindBlank (tmpOf response)).bind fun p =>
        match smtpChallenge p with
        | none => some refused
        | some text => next text).isSome = true ↔ AnsweredSafely response P := by
  unfold AnsweredSafely Challenging
  cases hready : serverReady (tmpOf response) with
  | false => simp
  | true =>
    rw [← behindBlank_isSome]
    cases hp : behindBlank (tmpOf response) with
    | none => simp
    | some p =>
      cases hc : smtpChallenge p with
      | none => simp [hc]
      | some text => simp [hc, hnext]

/-- The second reply, where the search for the blank is checked. -/
theorem second_isSome {sent : List Bytes} (hmem : mem.length = 512) :
    (match behindBlank (tmpOf c.second) with
      | none => some (smtpAuthError sent)
      | some p =>
        match smtpChallenge p with
        | none => some (smtpAuthError sent)
        | some _ => (encodeInto mem c.password).map fun b64buf =>
          sent ++ [Bytes.cstr b64buf]).isSome = true ↔
      (Challenging c.second → c.password.length ≤ 381) := by
  unfold Challenging
  cases hp : behindBlank (tmpOf c.second) with
  | none => simp
  | some p =>
    cases hc : smtpChallenge p with
    | none => simp [hc]
    | some text =>
      simp only [Option.isSome_map, encodeInto_isSome, hmem, Option.some.injEq, ne_eq,
        exists_eq_left', hc, reduceCtorEq, not_false_eq_true, forall_const]
      omega

theorem smtpAuth_isSome : (smtpAuth hmacMd5 b64buf c).isSome = true ↔ SmtpFits c := by
  unfold smtpAuth SmtpFits
  split
  · refine answered_isSome fun challenge => ?_
    rw [Option.isSome_map, encodeInto_isSome, b64buf.property, length_digestReply]
    omega
  split
  -- `snprintf` cuts the plain message to the 511 bytes of its buffer
  · have hlen : (plainMessage c.username c.password).length =
        min 511 (c.username.length + c.password.length + 2) := by
      simp only [plainMessage, List.length_map, List.length_take, List.length_append,
        List.length_cons]
      omega
    rw [smtpPlain, Option.isSome_map, encodeInto_isSome, b64buf.property, hlen]
    omega
  split
  · refine answered_isSome fun _ => ?_
    -- for `LOGIN` the name is written first, and the password after it over the same buffer
    have huser := @encodeInto_isSome b64buf.val c.username
    rw [b64buf.property] at huser
    cases hwrite : encodeInto b64buf.val c.username with
    | none =>
      rw [hwrite] at huser
      simp only [Option.isSome_none, Bool.false_eq_true, false_iff] at huser
      simp only [Option.bind_none, Option.isSome_none, Bool.false_eq_true, false_iff, not_and]
      omega
    | some mem' =>
      have hfits : c.username.length ≤ 381 := by
        rw [hwrite] at huser
        have hlt := huser.mp rfl
        omega
      rw [Option.bind_some, and_iff_right hfits]
      exact second_isSome c ((cstr_encodeInto hwrite).2.trans b64buf.property)
  · simp

/-- **The credentials fit their arrays just as long as they are short enough**, whatever the server
and the listener answer. -/
theorem credentials_fit (hmacMd5 : Bytes → Bytes → Digest) (buf : Storage.Block 256)
    (buf1 : Storage.Block 1024) (b64buf : Storage.Block 512) (strip : Option Bytes)
    (name remotename password : Bytes) (c : SmtpCredentials) :
    ((authcertReply buf name).isSome = true ↔
      name.length ≤ 189 ∨ 768 ≤ name.length ∨ (757 ≤ name.length ∧ name.length % 3 ≠ 0)) ∧
    ((cramMd5Reply hmacMd5 buf1 strip remotename password).isSome = true ↔
      from64tobits (challengeText strip (Bytes.cstr buf1.val)) 768 = none ∨
        remotename.length ≤ 732) ∧
    ((smtpAuth hmacMd5 b64buf c).isSome = true ↔ SmtpFits c) :=
  ⟨authcertReply_isSome buf name, cramMd5Reply_isSome hmacMd5 buf1 strip remotename password,
    smtpAuth_isSome hmacMd5 b64buf c⟩

/-- An array that is full of zeros. -/
def zeroed (size : Nat) : Storage.Block size := ⟨List.replicate size 0, List.length_replicate⟩

/-- A digest of zeros. -/
def zeroDigest : Bytes → Bytes → Digest := fun _ _ => zeroed 16

/-- A name of 190 letters, and a listener that answers `334` without a blank. -/
theorem authcert_overflows :
    authcertReply (zeroed 256) (List.replicate 190 97) = none ∧
      smtpAuth zeroDigest (zeroed 512)
        ⟨Bytes.lit "me", Bytes.lit "secret", Bytes.lit "250 AUTH LOGIN", Bytes.lit "334", []⟩ =
          none := by
  constructor
  · rw [← Option.not_isSome_iff_eq_none, authcertReply_isSome, List.length_replicate]
    decide
  · rfl

/-! ## `AUTH PLAIN` -/

theorem replaced_eq_self {s : Bytes} (hnul : Bytes.nul ∉ s) :
    (s.map fun b => if b = 94 then Bytes.nul else b) = s ↔ 94 ∉ s := by
  induction s with
  | nil => simp
  | cons b s ih =>
    rw [List.mem_cons, not_or] at hnul
    rw [List.map_cons, List.cons.injEq, ih hnul.2, List.mem_cons, not_or]
    refine and_congr_left' ?_
    split
    · next hb => exact iff_of_false hnul.1 fun hne => hne hb.symm
    · next hb => exact iff_of_true rfl (Ne.symm hb)

theorem plainMessage_eq {username password : Bytes} (hu : Bytes.nul ∉ username)
    (hp : Bytes.nul ∉ password) (hfit : username.length + password.length + 2 ≤ 511) :
    plainMessage username password = Bytes.nul :: username ++ Bytes.nul :: password ↔
      94 ∉ username ∧ 94 ∉ password := by
  have hlen : (94 :: username ++ 94 :: password : Bytes).length ≤ 511 := by
    simp only [List.length_append, List.length_cons]
    omega
  rw [plainMessage, List.take_of_length_le hlen, ← replaced_eq_self hu, ← replaced_eq_self hp,
    List.map_append, List.map_cons, List.map_cons, if_pos rfl, List.cons_append, List.cons_append,
    List.cons.injEq, and_iff_right rfl]
  constructor
  · intro heq
    have hparts := List.append_inj heq (List.length_map _)
    exact ⟨hparts.1, (List.cons.inj hparts.2).2⟩
  · rintro ⟨huser, hpass⟩
    rw [huser, hpass]

/-- **`AUTH PLAIN` sends the credentials** just if they have no placeholder in them and the encoded
text fits its array. -/
theorem smtpAuth_plain (hcram : c.buf.contains (Bytes.lit "CRAM-MD5") = false)
    (hplain : c.buf.contains (Bytes.lit "PLAIN") = true) (hu : Bytes.nul ∉ c.username)
    (hp : Bytes.nul ∉ c.password) (hfit : c.username.length + c.password.length + 2 ≤ 511) :
    (∃ argument, smtpAuth hmacMd5 b64buf c = some [Bytes.lit "AUTH PLAIN " ++ argument] ∧
      from64tobits argument 0 = some (Bytes.nul :: c.username ++ Bytes.nul :: c.password)) ↔
      94 ∉ c.username ∧ 94 ∉ c.password ∧ c.username.length + c.password.length ≤ 379 := by
  have hsafe := smtpAuth_isSome hmacMd5 b64buf c
  rw [SmtpFits, hcram, if_neg Bool.false_ne_true, if_pos hplain] at hsafe
  have hrun : smtpAuth hmacMd5 b64buf c = smtpPlain b64buf c := by
    rw [smtpAuth, hcram, if_neg Bool.false_ne_true, if_pos hplain]
  rw [hrun] at hsafe ⊢
  have hne : plainMessage c.username c.password ≠ [] := by
    simp [plainMessage]
  rw [← and_assoc, ← plainMessage_eq hu hp hfit, ← hsafe, smtpPlain]
  cases hwrite : encodeInto b64buf.val (plainMessage c.username c.password) with
  | none => simp
  | some mem =>
    have hround := @from64tobits_to64frombits _ hne 0 (.inl rfl)
    rw [Option.map_some, (cstr_encodeInto hwrite).1]
    simp only [Option.some.injEq, List.cons.injEq, and_true, List.append_cancel_left_eq,
      exists_eq_left', hround, Option.isSome_some]

/-- An ordinary user and password. -/
theorem smtpAuth_plain_joe :
    ∃ argument, smtpAuth zeroDigest (zeroed 512)
        ⟨Bytes.lit "joe", Bytes.lit "secret", Bytes.lit "250 AUTH PLAIN", [], []⟩ =
          some [Bytes.lit "AUTH PLAIN " ++ argument] ∧
      from64tobits argument 0 =
        some (Bytes.nul :: Bytes.lit "joe" ++ Bytes.nul :: Bytes.lit "secret") :=
  (smtpAuth_plain zeroDigest (zeroed 512)
    ⟨Bytes.lit "joe", Bytes.lit "secret", Bytes.lit "250 AUTH PLAIN", [], []⟩ (by decide) (by decide)
    (by decide) (by decide) (by decide)).mpr ⟨by decide, by decide, by decide⟩

/-- A password with a caret. -/
theorem smtpAuth_plain_caret :
    ¬ ∃ argument, smtpAuth zeroDigest (zeroed 512)
        ⟨Bytes.lit "joe", Bytes.lit "se^cret", Bytes.lit "250 AUTH PLAIN", [], []⟩ =
          some [Bytes.lit "AUTH PLAIN " ++ argument] ∧
      from64tobits argument 0 =
        some (Bytes.nul :: Bytes.lit "joe" ++ Bytes.nul :: Bytes.lit "se^cret") := by
  have hrun : smtpAuth zeroDigest (zeroed 512)
      ⟨Bytes.lit "joe", Bytes.lit "se^cret", Bytes.lit "250 AUTH PLAIN", [], []⟩ =
        some [Bytes.lit "AUTH PLAIN " ++ Bytes.lit "AGpvZQBzZQBjcmV0"] := by
    decide +kernel
  rw [hrun]
  rintro ⟨argument, heq, hdecode⟩
  obtain rfl : Bytes.lit "AGpvZQBzZQBjcmV0" = argument := by
    simpa using heq
  revert hdecode
  decide +kernel

end Fetchmail.Auth
