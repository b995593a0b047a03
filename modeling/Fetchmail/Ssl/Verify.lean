import Fetchmail.Lib.Storage
import Fetchmail.Mime.Rfc2047
import Fetchmail.Ssl.NameMatch

/-!
# Certificate Verification

`SSL_verify_callback` of `socket.c`, and `SSLOpen` from the handshake on. The library calls back
for certificates of the chain in an order that it chooses, several times for one of them if it
finds several errors, and ends the handshake when a call returns zero. The statics of the file
carry what has been seen from one call to the next. What is only reported is left out, and so are
the contexts and the certificate of the client.
-/

namespace Fetchmail.Ssl

open Fetchmail.Lib

/-! ## Certificates and calls -/

/-- `GENERAL_NAME` -/
inductive GeneralName where
  | dns (ia5 : Bytes)
  | other
  deriving DecidableEq, Repr

/-- What is read of a certificate. -/
structure Certificate where
  /-- the common name of the subject -/
  commonName : Option Bytes
  /-- the alternative names; empty if there is no such extension -/
  altNames : List GeneralName
  /-- what `X509_digest` computes with MD5, unless it fails -/
  digest : Option (Storage.Block 16)

/-- One call of the callback. -/
structure Call where
  okReturn : Bool
  depth : Nat
  cert : Certificate

/-- The statics that decide something. -/
structure Statics where
  depth0ck : Bool
  checkFp : Bool
  verifyOk : Bool
  deriving DecidableEq, Repr

/-! ## The callback -/

/-- `sizeof(buf)` -/
def nameSize : Nat := 257

/-- `X509_NAME_get_text_by_NID(subj, NID_commonName, buf, sizeof(buf))`: what is in `buf` -/
def getText (name : Option Bytes) : Option Bytes := name.map fun text => text.take (nameSize - 1)

/-- The common name does not fit, or a zero hides a part of it. -/
def badCommonName (cert : Certificate) : Bool :=
  (getText cert.commonName).any fun text =>
    nameSize - 1 ≤ text.length || (Bytes.cstr text).length < text.length

/-- The loop over the alternative names; no result for a name with a zero in it. -/
def altLoop (host : Bytes) : List GeneralName → (matched : Bool) → Option Bool
  | [], matched => some matched
  | .other :: rest, matched => altLoop host rest matched
  | .dns ia5 :: rest, matched =>
    if ia5.length ≠ (Bytes.cstr ia5).length then none
    else altLoop host rest (matched || nameMatch ia5 host)

/-- What is done about the names of the peer: `ok_return` afterwards, unless zero is returned. -/
def checkNames (strict : Bool) (host : Option Bytes) (okReturn : Bool) (cert : Certificate) :
    Option Bool :=
  match getText cert.commonName, host with
  | some text, some host =>
    (altLoop host cert.altNames false).map fun matched =>
      okReturn && (matched || nameMatch text host)
  | some _, none => if okReturn && strict then none else some okReturn
  | none, _ => if okReturn && strict then none else some okReturn

/-- `"%02X"` -/
def upperHexByte (b : UInt8) : Bytes := [Mime.upperHex (b.toNat / 16), Mime.upperHex (b.toNat % 16)]

/-- `':'` -/
def colon : UInt8 := 58

/-- The loop that writes the digest into `text`, of which there are `room` bytes left; no result
if they are too few. -/
def digestLoop : (room : Nat) → (first : Bool) → Bytes → Option Bytes
  | _, _, [] => some []
  | room, first, b :: rest =>
    let s := (if first then [] else [colon]) ++ upperHexByte b
    if room ≤ s.length then none
    else (digestLoop (room - s.length) false rest).map (s ++ ·)

/-- `sizeof(text)`, which is `EVP_MAX_MD_SIZE * 3 + 1` -/
def textSize : Nat := 193

/-- The digest can be made, and it is the one that is asked for, if any. -/
def fingerprintOk (checkDigest : Option Bytes) (cert : Certificate) : Bool :=
  match cert.digest with
  | none => false
  | some digest =>
    match digestLoop textSize true digest.val with
    | none => false
    | some text => checkDigest.all fun d => Bytes.equalsCI text d

/-- The end of the callback. -/
def finish (strict ok : Bool) (st : Statics) : Bool × Statics :=
  (ok || !strict, { st with verifyOk := st.verifyOk && ok })

/-- `SSL_verify_callback` -/
def sslVerifyCallback (strict : Bool) (host checkDigest : Option Bytes) (c : Call) (st : Statics) :
    Bool × Statics :=
  if badCommonName c.cert then (false, st)
  else if c.depth ≠ 0 then finish strict c.okReturn st
  else
    let st := { st with depth0ck := true }
    match checkNames strict host c.okReturn c.cert with
    | none => (false, st)
    | some ok =>
      if st.checkFp then
        let st := { st with checkFp := false }
        if fingerprintOk checkDigest c.cert then finish strict ok st else (false, st)
      else finish strict ok st

/-! ## The connection -/

/-- `SSL_connect`: the calls that would be made, whether the handshake is all right otherwise, and
whether `SSL_get_verify_result` gives `X509_V_OK` afterwards. -/
structure Connect where
  calls : List Call
  completes : Bool
  verifyResult : Bool

/-- The calls until one returns zero. -/
def callbacks (strict : Bool) (host checkDigest : Option Bytes) :
    List Call → Statics → Bool × Statics
  | [], st => (true, st)
  | c :: rest, st =>
    let called := sslVerifyCallback strict host checkDigest c st
    if called.1 then callbacks strict host checkDigest rest called.2 else called

/-- What `SSLOpen` comes to: `-1`, or `0` with or without the warning that the connection is
insecure. -/
inductive Opened where
  | refused
  | connected (warned : Bool)
  deriving DecidableEq, Repr

/-- `SSLOpen`, from the handshake on. -/
def sslOpen (certck : Bool) (fingerprint servercname : Option Bytes) (h : Connect) : Opened :=
  let (ok, st) := callbacks certck servercname fingerprint h.calls ⟨false, true, true⟩
  if !ok || !h.completes then .refused
  else if !st.depth0ck && (fingerprint.isSome || certck) then .refused
  else .connected (!certck && fingerprint.isNone && (!h.verifyResult || !st.verifyOk))

/-! ## What the names come to -/

/-- Nothing is hidden in the names that are looked at. -/
structure Call.Clean (host : Option Bytes) (c : Call) : Prop where
  subject : ∀ text, c.cert.commonName = some text →
    text.length < nameSize - 1 ∧ Bytes.nul ∉ text
  alternatives : c.depth = 0 → c.cert.commonName.isSome → host.isSome →
    ∀ ia5, .dns ia5 ∈ c.cert.altNames → Bytes.nul ∉ ia5

/-- One of the names is that of the host. -/
def Certificate.IsFor (cert : Certificate) (host : Bytes) : Prop :=
  (∃ text, cert.commonName = some text ∧ nameMatch text host = true) ∨
    ∃ ia5, .dns ia5 ∈ cert.altNames ∧ nameMatch ia5 host = true

/-- The library has found nothing wrong, and the certificate of the peer is for the host. -/
def Call.Verified (host : Option Bytes) (c : Call) : Prop :=
  c.okReturn = true ∧ (c.depth = 0 → ∃ h, host = some h ∧ c.cert.IsFor h)

/-- The names of the peer are compared with nothing: there is no common name, whatever the
alternative names are, or no name of the host. -/
def Call.Nameless (host : Option Bytes) (c : Call) : Prop :=
  c.depth = 0 ∧ (host = none ∨ c.cert.commonName = none)

/-- What a call has to be for the handshake to go on. Where certificates are required, that of
the peer must have a common name beside the one that matches. -/
def Call.Passes (strict : Bool) (host : Option Bytes) (c : Call) : Prop :=
  c.Clean host ∧
    (strict = true → c.Verified host ∧ (c.depth = 0 → c.cert.commonName.isSome))

/-- What the callback looks at: the library has found nothing wrong, and neither has a comparison
of names, where there is one. -/
def Call.Unobjected (host : Option Bytes) (c : Call) : Prop :=
  c.okReturn = true ∧
    (c.depth = 0 → ∀ h, host = some h → c.cert.commonName.isSome → c.cert.IsFor h)

/-- The peer has a name, and so has the host. -/
def Call.Named (host : Option Bytes) (c : Call) : Prop :=
  c.depth = 0 → host.isSome ∧ c.cert.commonName.isSome

theorem length_cstr_eq_iff (s : Bytes) : s.length = (Bytes.cstr s).length ↔ Bytes.nul ∉ s := by
  rw [Bytes.cstr]
  constructor
  · intro hlen hmem
    have hall := (List.takeWhile_prefix (l := s) (· ≠ Bytes.nul)).eq_of_length hlen.symm
    rw [← hall] at hmem
    simpa using List.mem_takeWhile_imp hmem
  · intro hnot
    rw [List.takeWhile_eq_self_iff.mpr]
    intro b hb
    exact decide_eq_true fun heq => hnot (heq ▸ hb)

theorem length_cstr_lt_iff (s : Bytes) : (Bytes.cstr s).length < s.length ↔ Bytes.nul ∈ s := by
  have hle : (Bytes.cstr s).length ≤ s.length := (List.takeWhile_prefix _).length_le
  have heq := length_cstr_eq_iff s
  by_cases h : Bytes.nul ∈ s
  · have hne : s.length ≠ (Bytes.cstr s).length := fun hlen => heq.mp hlen h
    exact iff_of_true (by omega) h
  · have hlen := heq.mpr h
    exact iff_of_false (by omega) h

variable {strict ok r : Bool} {host checkDigest : Option Bytes} {cert : Certificate} {c : Call}
  {st : Statics} {calls : List Call}

theorem unobjected_iff :
    c.Unobjected host ↔ c.Verified host ∨ c.okReturn = true ∧ c.Nameless host := by
  unfold Call.Unobjected Call.Verified Call.Nameless
  by_cases hdepth : c.depth = 0
  · cases host with
    | none => simp [hdepth]
    | some h =>
      cases hname : c.cert.commonName with
      | none => simpa [hdepth, hname] using fun hok _ => hok
      | some text => simp [hdepth]
  · simp [hdepth]

theorem passes_iff : c.Passes strict host ↔
    c.Clean host ∧ (strict = true → c.Unobjected host ∧ c.Named host) := by
  unfold Call.Passes Call.Unobjected Call.Verified Call.Named
  by_cases hdepth : c.depth = 0
  · cases host with
    | none => simp [hdepth]
    | some h => cases hname : c.cert.commonName <;> simp [hdepth]
  · simp [hdepth]

theorem badCommonName_iff : badCommonName cert = false ↔
    ∀ text, cert.commonName = some text → text.length < nameSize - 1 ∧ Bytes.nul ∉ text := by
  cases hname : cert.commonName with
  | none => simp [badCommonName, getText, hname]
  | some text =>
    have hbad : badCommonName cert = (nameSize - 1 ≤ (text.take (nameSize - 1)).length ||
        (Bytes.cstr (text.take (nameSize - 1))).length < (text.take (nameSize - 1)).length) := by
      rw [badCommonName, hname]
      rfl
    rw [hbad, Bool.or_eq_false_iff, decide_eq_false_iff_not, decide_eq_false_iff_not,
      length_cstr_lt_iff, List.length_take]
    by_cases hfit : text.length < nameSize - 1
    · rw [List.take_of_length_le (by omega)]
      constructor
      · rintro ⟨-, hnul⟩ t ht
        cases ht
        exact ⟨hfit, hnul⟩
      · intro h
        exact ⟨by omega, (h text rfl).2⟩
    · constructor
      · rintro ⟨hlen, -⟩
        exact absurd (by omega) hlen
      · intro h
        exact absurd (h text rfl).1 hfit

theorem getText_eq (h : badCommonName cert = false) :
    getText cert.commonName = cert.commonName := by
  cases hname : cert.commonName with
  | none => rfl
  | some text =>
    have hfit := (badCommonName_iff.mp h text hname).1
    rw [getText, Option.map_some, List.take_of_length_le (by omega)]

/-- The alternative names: one with a zero ends the check, and otherwise one that matches is
enough. -/
theorem altLoop_eq_some_iff {host : Bytes} {names : List GeneralName} {matched : Bool} :
    altLoop host names matched = some r ↔
      (∀ ia5, .dns ia5 ∈ names → Bytes.nul ∉ ia5) ∧
      (r = true ↔ matched = true ∨ ∃ ia5, .dns ia5 ∈ names ∧ nameMatch ia5 host = true) := by
  induction names generalizing matched with
  | nil =>
    cases matched <;> cases r <;> simp [altLoop]
  | cons name rest ih =>
    cases name with
    | other => simp [altLoop, ih]
    | dns ia5 =>
      rw [altLoop]
      by_cases hnul : Bytes.nul ∈ ia5
      · rw [if_pos fun hlen => (length_cstr_eq_iff ia5).mp hlen hnul]
        refine iff_of_false (by simp) fun h => ?_
        exact h.1 ia5 (List.mem_cons_self ..) hnul
      · rw [if_neg (not_not_intro ((length_cstr_eq_iff ia5).mpr hnul)), ih]
        simp [hnul, or_assoc]

theorem checkNames_eq_some_iff (hbad : badCommonName cert = false) :
    checkNames strict host ok cert = some r ↔
      (cert.commonName.isSome → host.isSome → ∀ ia5, .dns ia5 ∈ cert.altNames → Bytes.nul ∉ ia5) ∧
      (strict = true → ok = true → host.isSome ∧ cert.commonName.isSome) ∧
      (r = true ↔ ok = true ∧ ∀ h, host = some h → cert.commonName.isSome → cert.IsFor h) := by
  unfold checkNames
  rw [getText_eq hbad]
  -- without a common name or a host nothing is compared
  cases hname : cert.commonName with
  | none => cases ok <;> cases strict <;> cases r <;> simp
  | some text =>
    cases host with
    | none => cases ok <;> cases strict <;> cases r <;> simp
    | some h =>
      have hfor : cert.IsFor h ↔ nameMatch text h = true ∨
          ∃ ia5, .dns ia5 ∈ cert.altNames ∧ nameMatch ia5 h = true := by
        simp [Certificate.IsFor, hname]
      simp only [Option.map_eq_some_iff, altLoop_eq_some_iff, Option.isSome_some, and_self,
        implies_true, true_and, forall_const, Option.some.injEq, forall_eq', hfor]
      constructor
      · rintro ⟨matched, ⟨hclean, hmatched⟩, rfl⟩
        refine ⟨hclean, ?_⟩
        rw [Bool.and_eq_true, Bool.or_eq_true, hmatched, or_iff_right Bool.false_ne_true, or_comm]
      · rintro ⟨hclean, hr⟩
        by_cases hany : ∃ ia5, .dns ia5 ∈ cert.altNames ∧ nameMatch ia5 h = true
        · refine ⟨true, ⟨hclean, by simp [hany]⟩, ?_⟩
          cases ok <;> cases r <;> simp_all
        · refine ⟨false, ⟨hclean, by simp [hany]⟩, ?_⟩
          rw [Bool.eq_iff_iff, hr, Bool.and_eq_true, Bool.false_or, or_iff_left hany]

/-- `ok_return` at the end of a call, unless it returns zero because of the names. -/
def outcome (strict : Bool) (host : Option Bytes) (c : Call) : Option Bool :=
  if badCommonName c.cert then none
  else if c.depth ≠ 0 then some c.okReturn
  else checkNames strict host c.okReturn c.cert

theorem outcome_eq_some_iff : outcome strict host c = some r ↔
    c.Clean host ∧ (strict = true → c.okReturn = true → c.Named host) ∧
      (r = true ↔ c.Unobjected host) := by
  rw [outcome]
  cases hbad : badCommonName c.cert with
  | true =>
    refine iff_of_false (by simp) fun h => ?_
    rw [badCommonName_iff.mpr h.1.subject] at hbad
    cases hbad
  | false =>
    have hsubject := badCommonName_iff.mp hbad
    rw [if_neg (by decide)]
    -- above the peer only the subject is looked at
    by_cases hdepth : c.depth = 0
    · rw [if_neg (not_not_intro hdepth), checkNames_eq_some_iff hbad]
      constructor
      · rintro ⟨hclean, hnamed, hr⟩
        exact ⟨⟨hsubject, fun _ => hclean⟩, fun hs hok _ => hnamed hs hok,
          by rw [hr, Call.Unobjected]; simp [hdepth]⟩
      · rintro ⟨hclean, hnamed, hr⟩
        exact ⟨hclean.alternatives hdepth, fun hs hok => hnamed hs hok hdepth,
          by rw [hr, Call.Unobjected]; simp [hdepth]⟩
    · rw [if_pos hdepth]
      have hsound : c.Unobjected host ↔ c.okReturn = true := by simp [Call.Unobjected, hdepth]
      rw [hsound, Option.some.injEq]
      constructor
      · rintro rfl
        exact ⟨⟨hsubject, fun h => absurd h hdepth⟩, fun _ _ h => absurd h hdepth, Iff.rfl⟩
      · rintro ⟨-, -, hr⟩
        exact (Bool.eq_iff_iff.mpr hr).symm

/-- The names let a call pass, strictly or not. -/
theorem exists_outcome_iff :
    (∃ ok, outcome strict host c = some ok ∧ (ok || !strict) = true) ↔ c.Passes strict host := by
  rw [passes_iff]
  constructor
  · rintro ⟨ok, hok, hgo⟩
    obtain ⟨hclean, hnamed, hsound⟩ := outcome_eq_some_iff.mp hok
    refine ⟨hclean, fun hs => ?_⟩
    have htrue : ok = true := by simpa [hs] using hgo
    have hv := hsound.mp htrue
    exact ⟨hv, hnamed hs hv.1⟩
  · rintro ⟨hclean, hstrict⟩
    by_cases hv : c.Unobjected host
    · exact ⟨true, outcome_eq_some_iff.mpr
        ⟨hclean, fun hs _ => (hstrict hs).2, iff_of_true rfl hv⟩, rfl⟩
    · have hs : strict = false := by
        cases strict with
        | false => rfl
        | true => exact absurd (hstrict rfl).1 hv
      refine ⟨false, outcome_eq_some_iff.mpr ⟨hclean, ?_, iff_of_false (by decide) hv⟩, ?_⟩
      · intro h
        rw [hs] at h
        cases h
      · rw [hs]
        rfl

/-! ## The fingerprint -/

/-- A digest as it is written in a fingerprint. -/
def fingerprintText (digest : Bytes) : Bytes := [colon].intercalate (digest.map upperHexByte)

/-- The certificate has a digest, and it is the one that is asked for, ignoring case. -/
def Certificate.HasFingerprint (cert : Certificate) (fingerprint : Option Bytes) : Prop :=
  ∃ digest, cert.digest = some digest ∧
    ∀ d, fingerprint = some d → Bytes.equalsCI (fingerprintText digest.val) d = true

theorem digestLoop_later {digest : Bytes} {room : Nat} (h : 3 * digest.length < room) :
    digestLoop room false digest = some (digest.flatMap fun b => colon :: upperHexByte b) := by
  induction digest generalizing room with
  | nil => rfl
  | cons b rest ih =>
    rw [List.length_cons] at h
    have hroom : ¬ room ≤ (([colon] : Bytes) ++ upperHexByte b).length := by
      simp only [upperHexByte, List.length_append, List.length_cons, List.length_nil]
      omega
    have hrest : digestLoop (room - 3) false rest = some (rest.flatMap fun b => _) :=
      ih (by omega)
    rw [digestLoop]
    simp only [Bool.false_eq_true, if_false, if_neg hroom]
    have hlen : (([colon] : Bytes) ++ upperHexByte b).length = 3 := rfl
    rw [hlen, hrest]
    rfl

/-- The text of a digest always fits. -/
theorem digestLoop_eq (digest : Storage.Block 16) :
    digestLoop textSize true digest.val = some (fingerprintText digest.val) := by
  have hlength := digest.property
  cases hval : digest.val with
  | nil =>
    rw [hval] at hlength
    cases hlength
  | cons b rest =>
    rw [hval, List.length_cons] at hlength
    have hrest : digestLoop (textSize - 2) false rest = some (rest.flatMap fun b => _) :=
      digestLoop_later (by rw [textSize]; omega)
    have hroom : ¬ textSize ≤ (([] : Bytes) ++ upperHexByte b).length := by
      rw [textSize]
      exact (by decide : ¬ 193 ≤ 2)
    have hlen : (([] : Bytes) ++ upperHexByte b).length = 2 := rfl
    have htext : ∀ (first : Bytes) (l : Bytes), [colon].intercalate (first :: l.map upperHexByte) =
        first ++ l.flatMap fun b => colon :: upperHexByte b := by
      intro first l
      induction l generalizing first with
      | nil => simp
      | cons x l ih =>
        rw [List.map_cons, List.intercalate_cons_cons, ih, List.flatMap_cons]
        simp
    rw [digestLoop]
    simp only [if_true, if_neg hroom]
    rw [hlen, hrest, fingerprintText, List.map_cons, htext]
    rfl

theorem fingerprintOk_iff {checkDigest : Option Bytes} {cert : Certificate} :
    fingerprintOk checkDigest cert = true ↔ cert.HasFingerprint checkDigest := by
  rw [fingerprintOk, Certificate.HasFingerprint]
  cases cert.digest with
  | none => simp
  | some digest =>
    have htext := digestLoop_eq digest
    cases checkDigest <;> simp [htext]

/-! ## The calls of a handshake -/

/-- A call lets the handshake go on if the names do, and, for the first call for the peer, if the
fingerprint does; it notes what it has seen. -/
theorem sslVerifyCallback_spec :
    ((sslVerifyCallback strict host checkDigest c st).1 = true ↔
      c.Passes strict host ∧
        (c.depth = 0 → st.checkFp = true → fingerprintOk checkDigest c.cert = true)) ∧
    ((sslVerifyCallback strict host checkDigest c st).1 = true →
      let st' := (sslVerifyCallback strict host checkDigest c st).2
      (st'.depth0ck = true ↔ st.depth0ck = true ∨ c.depth = 0) ∧
      (st'.checkFp = true ↔ st.checkFp = true ∧ c.depth ≠ 0) ∧
      (st'.verifyOk = true ↔ st.verifyOk = true ∧ c.Unobjected host)) := by
  rw [← exists_outcome_iff]
  have hend : ∀ r, outcome strict host c = some r → (r = true ↔ c.Unobjected host) :=
    fun r h => (outcome_eq_some_iff.mp h).2.2
  unfold outcome at hend ⊢
  unfold sslVerifyCallback
  cases hbad : badCommonName c.cert with
  | true => simp
  | false =>
    -- only the call for the peer looks at names, at the fingerprint and at `check_fp`
    by_cases hdepth : c.depth = 0
    · simp only [hbad, hdepth, Bool.false_eq_true, if_false, ne_eq, not_true_eq_false] at hend ⊢
      cases hnames : checkNames strict host c.okReturn c.cert with
      | none => simp
      | some ok =>
        have hsound := hend ok hnames
        by_cases hfirst : st.checkFp = true
        · by_cases hfp : fingerprintOk checkDigest c.cert = true
          · simp [hfirst, hfp, finish, hsound]
          · simp [hfirst, hfp]
        · simp [hfirst, finish, hsound]
    · simp only [hbad, hdepth, Bool.false_eq_true, if_false, if_true, ne_eq, not_false_eq_true]
        at hend ⊢
      have hsound := hend c.okReturn rfl
      simp [finish, hsound]

/-- All calls of a handshake that goes through. -/
theorem callbacks_spec :
    ((callbacks strict host checkDigest calls st).1 = true ↔
      (∀ c ∈ calls, c.Passes strict host) ∧
        (st.checkFp = true → ∀ c, calls.find? (·.depth = 0) = some c →
          fingerprintOk checkDigest c.cert = true)) ∧
    ((callbacks strict host checkDigest calls st).1 = true →
      let st' := (callbacks strict host checkDigest calls st).2
      (st'.depth0ck = true ↔ st.depth0ck = true ∨ ∃ c ∈ calls, c.depth = 0) ∧
      (st'.verifyOk = true ↔ st.verifyOk = true ∧ ∀ c ∈ calls, c.Unobjected host)) := by
  induction calls generalizing st with
  | nil => simp [callbacks]
  | cons c rest ih =>
    obtain ⟨hgo, hstate⟩ := @sslVerifyCallback_spec strict host checkDigest c st
    unfold callbacks
    by_cases hone : (sslVerifyCallback strict host checkDigest c st).1 = true
    · obtain ⟨hdepth0, hfp, hverify⟩ := hstate hone
      obtain ⟨hpasses, hprint⟩ := hgo.mp hone
      obtain ⟨hrest, hafter⟩ := @ih (sslVerifyCallback strict host checkDigest c st).2
      simp only [hone, if_true]
      constructor
      · rw [hrest, hfp, List.forall_mem_cons]
        by_cases hdepth : c.depth = 0
        · -- the fingerprint has just been checked
          simpa [hpasses, hdepth] using fun _ => hprint hdepth
        · simp [hpasses, hdepth]
      · intro hall
        obtain ⟨hd, hv⟩ := hafter hall
        refine ⟨?_, ?_⟩
        · simp [hd, hdepth0, or_assoc]
        · rw [hv, hverify, List.forall_mem_cons, and_assoc]
    · simp only [hone]
      refine ⟨iff_of_false hone fun h => hone (hgo.mpr ⟨?_, ?_⟩), fun h => absurd h hone⟩
      · exact h.1 c (List.mem_cons_self ..)
      · intro hdepth hcheck
        exact h.2 hcheck c (by simp [hdepth])

/-! ## The connection is a verified one -/

section

variable {certck warned : Bool} {fingerprint servercname : Option Bytes} {h : Connect}

/-- What `SSLOpen` goes by after the calls. -/
theorem sslOpen_eq_connected_iff {called : Bool × Statics}
    (hcalled : callbacks certck servercname fingerprint h.calls ⟨false, true, true⟩ = called) :
    sslOpen certck fingerprint servercname h = .connected warned ↔
      (called.1 = true ∧ h.completes = true ∧
        (certck = true ∨ fingerprint.isSome → called.2.depth0ck = true)) ∧
      (warned = true ↔ certck = false ∧ fingerprint = none ∧
        (h.verifyResult = false ∨ called.2.verifyOk = false)) := by
  obtain ⟨ok, st⟩ := called
  rw [sslOpen, hcalled]
  cases ok with
  | false => simp
  | true =>
    cases h.completes with
    | false => simp
    | true =>
      dsimp only
      -- a handshake that never came to the peer does not count where it had to be checked
      by_cases hskip : (!st.depth0ck && (fingerprint.isSome || certck)) = true
      · rw [if_neg (by decide), if_pos hskip]
        simp only [Bool.and_eq_true, Bool.not_eq_true', Bool.or_eq_true] at hskip
        refine iff_of_false (by simp) fun hconn => ?_
        rw [hconn.1.2.2 hskip.2.symm] at hskip
        cases hskip.1
      · rw [if_neg (by decide), if_neg hskip]
        simp only [Bool.and_eq_true, Bool.not_eq_true', Bool.or_eq_true, not_and] at hskip
        have hseen : certck = true ∨ fingerprint.isSome = true → st.depth0ck = true := by
          intro hneed
          by_contra hnot
          exact hskip (by simpa using hnot) hneed.symm
        rw [Opened.connected.injEq, eq_comm, Bool.eq_iff_iff, and_iff_right ⟨rfl, rfl, hseen⟩]
        simp [and_assoc]

/-- `SSLOpen` succeeds exactly if the handshake completes, every call passes, the fingerprint of
the first certificate for the peer is the one that is asked for, and there was such a call where
it matters. -/
theorem sslOpen_connected_iff (certck : Bool) (fingerprint servercname : Option Bytes)
    (h : Connect) :
    (∃ warned, sslOpen certck fingerprint servercname h = .connected warned) ↔
      h.completes = true ∧ (∀ c ∈ h.calls, c.Passes certck servercname) ∧
      (∀ c, h.calls.find? (·.depth = 0) = some c → c.cert.HasFingerprint fingerprint) ∧
      (certck = true ∨ fingerprint.isSome → ∃ c ∈ h.calls, c.depth = 0) := by
  obtain ⟨hgo, hafter⟩ :=
    @callbacks_spec certck servercname fingerprint ⟨false, true, true⟩ h.calls
  simp only [fingerprintOk_iff] at hgo
  constructor
  · rintro ⟨warned, hopen⟩
    obtain ⟨⟨hok, hcompletes, hdepth⟩, -⟩ := (sslOpen_eq_connected_iff rfl).mp hopen
    obtain ⟨hpasses, hprint⟩ := hgo.mp hok
    refine ⟨hcompletes, hpasses, hprint trivial, fun hneed => ?_⟩
    simpa using (hafter hok).1.mp (hdepth hneed)
  · rintro ⟨hcompletes, hpasses, hprint, hdepth⟩
    have hok := hgo.mpr ⟨hpasses, fun _ => hprint⟩
    by_cases hwarn : certck = false ∧ fingerprint = none ∧ (h.verifyResult = false ∨
        (callbacks certck servercname fingerprint h.calls
          ⟨false, true, true⟩).2.verifyOk = false)
    · exact ⟨true, (sslOpen_eq_connected_iff rfl).mpr
        ⟨⟨hok, hcompletes, fun hneed => (hafter hok).1.mpr (Or.inr (hdepth hneed))⟩,
          iff_of_true rfl hwarn⟩⟩
    · exact ⟨false, (sslOpen_eq_connected_iff rfl).mpr
        ⟨⟨hok, hcompletes, fun hneed => (hafter hok).1.mpr (Or.inr (hdepth hneed))⟩,
          iff_of_false (by decide) hwarn⟩⟩

/-- A certificate with alternative names, and a common name or none, which the library finds
nothing wrong with. -/
def sampleConnect (commonName : Option Bytes) : Connect where
  calls := [⟨true, 1, ⟨some (Bytes.lit "CA"), [], none⟩⟩,
    ⟨true, 0, ⟨commonName, [.dns (Bytes.lit "www.a.org"), .other],
      some ⟨List.replicate 16 0, List.length_replicate⟩⟩⟩]
  completes := true
  verifyResult := true

-- without a common name the connection to the wrong host is silent
example : sslOpen false none (some (Bytes.lit "b.org")) (sampleConnect none) =
    .connected false := by
  decide

end

end Fetchmail.Ssl
