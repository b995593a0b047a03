import Fetchmail.Lib.Buffer
import Fetchmail.Lib.Storage

/-!
# NTLM Messages

The message builders of `smbutil.c`, and the checks of `ntlm_helper` on the challenge. A message
has headers and a buffer of a fixed size that the headers point into. The host is little-endian;
the encryption of the password gives `lmRespData` and `ntRespData`.
-/

namespace Fetchmail.Auth

open Fetchmail.Lib

/-! ## Messages -/

/-- `tSmbStrHeader` -/
structure SmbStrHeader where
  len : Nat
  maxlen : Nat
  offset : Nat
  deriving DecidableEq, Repr

/-- The buffer of a message, and how much of it is filled. -/
structure SmbBuffer where
  buffer : Bytes
  bufIndex : Nat

/-- The size of `buffer`. -/
def smbBufferSize : Nat := 1024

/-- `AddBytes`, in a message whose buffer starts at `start`; no result if the buffer is too
small. -/
def addBytes (start : Nat) (p : SmbBuffer) (buf : Bytes) : Option (SmbStrHeader × SmbBuffer) :=
  if buf = [] then some (⟨0, 0, p.bufIndex⟩, p)
  else
    (Storage.write p.buffer p.bufIndex buf).map fun buffer =>
      (⟨buf.length % 2 ^ 16, buf.length % 2 ^ 16, start + p.bufIndex⟩,
        ⟨buffer, p.bufIndex + buf.length⟩)

/-- `AddBytes` for one header after the other. -/
def addAll (start : Nat) : List Bytes → SmbBuffer → Option (List SmbStrHeader × SmbBuffer)
  | [], p => some ([], p)
  | buf :: rest, p =>
    (addBytes start p buf).bind fun added =>
      (addAll start rest added.2).map fun later => (added.1 :: later.1, later.2)

/-- `strToUnicode` -/
def strToUnicode (s : Bytes) : Bytes := s.flatMap fun b => [b, 0]

/-- `'@'` -/
def atSign : UInt8 := 64

/-- The user name up to the `@`, and what comes after it. -/
def userPart (user : Bytes) : Bytes := user.takeWhile (· ≠ atSign)

def domainPart (user : Bytes) : Option Bytes :=
  if atSign ∈ user then some ((user.dropWhile (· ≠ atSign)).drop 1) else none

/-- `buildSmbNtlmAuthRequest` -/
def buildSmbNtlmAuthRequest (buffer : Storage.Block smbBufferSize) (user : Bytes)
    (domain : Option Bytes) : Option (List SmbStrHeader × SmbBuffer) :=
  addAll 32 [userPart user, (domain.or (domainPart user)).getD []] ⟨buffer.val, 0⟩

/-- `buildSmbNtlmAuthResponse`, for the domain of the challenge -/
def buildSmbNtlmAuthResponse (buffer : Storage.Block smbBufferSize)
    (lmRespData ntRespData : Storage.Block 24) (uDomain user : Bytes) :
    Option (List SmbStrHeader × SmbBuffer) :=
  let domain := (domainPart user).getD uDomain
  addAll 64 [lmRespData.val, ntRespData.val, strToUnicode domain, strToUnicode (userPart user),
    strToUnicode (userPart user), []] ⟨buffer.val, 0⟩

/-! ## The challenge -/

/-- `sizeof(tSmbNtlmAuthChallenge)` -/
def challengeSize : Nat := 1076

/-- `SVAL(mem, i)` -/
def sval (mem : Bytes) (i : Nat) : Nat := (mem.getD i 0).toNat + 256 * (mem.getD (i + 1) 0).toNat

/-- `IVAL(mem, i)` -/
def ival (mem : Bytes) (i : Nat) : Nat := sval mem i + 65536 * sval mem (i + 2)

/-- `challenge.uDomain.len` -/
def uDomainLen (challenge : Bytes) : Nat := sval challenge 12

/-- `challenge.uDomain.offset` -/
def uDomainOffset (challenge : Bytes) : Nat := ival challenge 16

/-- The checks on a challenge of which `result` bytes were received. -/
def challengeValid (challenge : Bytes) (result : Nat) : Bool :=
  let offset := uDomainOffset challenge
  let last := (offset + uDomainLen challenge) % 2 ^ 32
  challenge.take 8 = Bytes.lit "NTLMSSP" ++ [0] && ival challenge 8 = 2 && offset ≤ result &&
    !(last < offset) && last ≤ result

/-- The loop of `unicodeToString`; no result for a read beyond the challenge. -/
def unicodeToString (mem : Bytes) : (p len : Nat) → Option Bytes
  | _, 0 => some []
  | p, len + 1 =>
    mem[p]?.bind fun c => (unicodeToString mem (p + 2) len).map fun s => (c &&& 0x7f) :: s

/-- `xstrdup(GetUnicodeString(challenge, uDomain))` -/
def challengeDomain (challenge : Bytes) : Option Bytes :=
  (unicodeToString challenge (uDomainOffset challenge) (uDomainLen challenge / 2)).map Bytes.cstr

/-- What comes of a challenge. -/
inductive NtlmAnswer where
  | invalid
  /-- an access beyond the challenge or the buffer of the response -/
  | overflow
  | response (headers : List SmbStrHeader) (filled : SmbBuffer)

/-- The part of `ntlm_helper` between the two messages. -/
def answerChallenge (buffer : Storage.Block smbBufferSize)
    (lmRespData ntRespData : Storage.Block 24) (user : Bytes)
    (challenge : Storage.Block challengeSize) (result : Nat) : NtlmAnswer :=
  if result < 32 || !challengeValid challenge.val result then .invalid
  else
    match challengeDomain challenge.val with
    | none => .overflow
    | some uDomain =>
      match buildSmbNtlmAuthResponse buffer lmRespData ntRespData uDomain user with
      | none => .overflow
      | some r => .response r.1 r.2

/-! ## What is in a message -/

/-- What a header points to, in a message whose buffer starts at `start`. -/
def field (start : Nat) (buffer : Bytes) (h : SmbStrHeader) : Bytes :=
  (buffer.drop (h.offset - start)).take h.len

/-- Whether the buffer is large enough depends on the lengths alone. -/
theorem addAll_eq_none_iff (start : Nat) (bufs : List Bytes) {p : SmbBuffer}
    (hindex : p.bufIndex ≤ p.buffer.length) :
    addAll start bufs p = none ↔ p.buffer.length < p.bufIndex + bufs.flatten.length := by
  induction bufs generalizing p with
  | nil => simpa [addAll] using hindex
  | cons buf rest ih =>
    rw [addAll, addBytes, List.flatten_cons, List.length_append]
    by_cases hempty : buf = []
    · rw [if_pos hempty, Option.bind_some, Option.map_eq_none_iff, ih hindex, hempty]
      simp
    · rw [if_neg hempty]
      by_cases hfit : p.bufIndex + buf.length ≤ p.buffer.length
      · obtain ⟨buffer, hwrite, hlength, -⟩ := Storage.write_fits hfit
        rw [hwrite, Option.map_some, Option.bind_some, Option.map_eq_none_iff,
          ih (by dsimp only; omega)]
        dsimp only
        omega
      · rw [Storage.write, if_neg hfit]
        exact iff_of_true rfl (by omega)

theorem field_of_begins {start : Nat} {pre buf mem : Bytes} (h : pre ++ buf <+: mem)
    {maxlen : Nat} : field start mem ⟨buf.length, maxlen, start + pre.length⟩ = buf := by
  obtain ⟨tail, rfl⟩ := h
  rw [field, Nat.add_sub_cancel_left, List.append_assoc, List.drop_left, List.take_left]

/-- What has been added stands in the buffer behind what was there, and every header points to
its part of it. -/
theorem addAll_spec (start : Nat) {bufs : List Bytes} {p q : SmbBuffer}
    {headers : List SmbStrHeader} (hsmall : p.buffer.length < 2 ^ 16)
    (hadd : addAll start bufs p = some (headers, q)) :
    q.buffer.length = p.buffer.length ∧ q.bufIndex = p.bufIndex + bufs.flatten.length ∧
      q.buffer.take q.bufIndex = p.buffer.take p.bufIndex ++ bufs.flatten ∧
      headers.map (field start q.buffer) = bufs := by
  induction bufs generalizing p headers with
  | nil =>
    cases hadd
    exact ⟨rfl, rfl, (List.append_nil _).symm, rfl⟩
  | cons buf rest ih =>
    obtain ⟨⟨h, p'⟩, hfirst, hadd⟩ := Option.bind_eq_some_iff.mp hadd
    obtain ⟨⟨later, q'⟩, hlater, heq⟩ := Option.map_eq_some_iff.mp hadd
    cases heq
    rw [addBytes] at hfirst
    -- an empty string is not copied, and its header says so with length zero
    by_cases hempty : buf = []
    · rw [if_pos hempty] at hfirst
      cases hfirst
      obtain ⟨hlength, hindex, htake, hfields⟩ := ih hsmall hlater
      subst hempty
      refine ⟨hlength, by simpa using hindex, by simpa using htake, ?_⟩
      rw [List.map_cons, hfields]
      simp [field]
    · rw [if_neg hempty] at hfirst
      obtain ⟨buffer, hwrite, heq⟩ := Option.map_eq_some_iff.mp hfirst
      cases heq
      -- the write did not leave the buffer, or there would be no result
      have hfit : p.bufIndex + buf.length ≤ p.buffer.length := by
        by_contra hnot
        rw [Storage.write, if_neg hnot] at hwrite
        cases hwrite
      obtain ⟨buffer', hwrite', hlength', htake'⟩ := Storage.write_fits hfit
      rw [hwrite] at hwrite'
      cases hwrite'
      obtain ⟨hlength, hindex, htake, hfields⟩ := ih (by rwa [hlength']) hlater
      dsimp only at hlength hindex htake
      rw [htake'] at htake
      refine ⟨hlength.trans hlength', ?_, ?_, ?_⟩
      · rw [hindex, List.flatten_cons, List.length_append, Nat.add_assoc]
      · rw [htake, List.flatten_cons, List.append_assoc]
      -- the later strings are behind this one, which therefore still stands where its header says
      · have hstarts : p.buffer.take p.bufIndex ++ buf <+: q'.buffer := by
          refine List.IsPrefix.trans ?_ (List.take_prefix q'.bufIndex q'.buffer)
          rw [htake]
          exact List.prefix_append _ _
        have hfirst := @field_of_begins start _ buf _ hstarts (buf.length % 2 ^ 16)
        rw [List.length_take_of_le (by omega)] at hfirst
        have hshort : buf.length % 2 ^ 16 = buf.length := Nat.mod_eq_of_lt (by omega)
        rw [hshort] at hfirst
        rw [List.map_cons, hfields, hshort, hfirst]

@[simp]
theorem length_strToUnicode (s : Bytes) : (strToUnicode s).length = 2 * s.length := by
  induction s with
  | nil => rfl
  | cons b s ih =>
    rw [strToUnicode, List.flatMap_cons, List.length_append] at *
    rw [ih, List.length_cons]
    simp
    omega

/-- The request has the user and the domain, and is built if they fit together. -/
theorem buildSmbNtlmAuthRequest_spec (buffer : Storage.Block smbBufferSize) (user : Bytes)
    (domain : Option Bytes) :
    (buildSmbNtlmAuthRequest buffer user domain = none ↔
      smbBufferSize < (userPart user).length +
        ((domain.or (domainPart user)).getD []).length) ∧
    ∀ headers filled, buildSmbNtlmAuthRequest buffer user domain = some (headers, filled) →
      headers.map (field 32 filled.buffer) =
        [userPart user, (domain.or (domainPart user)).getD []] := by
  rw [buildSmbNtlmAuthRequest]
  constructor
  · rw [addAll_eq_none_iff 32 _ (Nat.zero_le _)]
    have hsize : buffer.val.length = smbBufferSize := buffer.property
    simp [hsize]
  · intro headers filled hadd
    refine (addAll_spec 32 ?_ hadd).2.2.2
    have hsize : buffer.val.length = smbBufferSize := buffer.property
    rw [hsize]
    decide

/-! ## What is read of a challenge -/

theorem unicodeToString_congr {mem mem' : Bytes} {n : Nat} (hagree : mem'.take n = mem.take n)
    {p len : Nat} (hwithin : p + 2 * len ≤ n) :
    unicodeToString mem' p len = unicodeToString mem p len := by
  induction len generalizing p with
  | zero => rfl
  | succ len ih =>
    have hget : mem'[p]? = mem[p]? := by
      have hp : p < n := by omega
      rw [← List.getElem?_take_of_lt hp, hagree, List.getElem?_take_of_lt hp]
    rw [unicodeToString, unicodeToString, hget, ih (by omega)]

theorem unicodeToString_within {mem : Bytes} {p len : Nat} (h : p + 2 * len ≤ mem.length) :
    ∃ s, unicodeToString mem p len = some s ∧ s.length = len := by
  induction len generalizing p with
  | zero => exact ⟨[], rfl, rfl⟩
  | succ len ih =>
    obtain ⟨s, hs, hlen⟩ := @ih (p + 2) (by omega)
    have hp : p < mem.length := by omega
    refine ⟨(mem[p] &&& 0x7f) :: s, ?_, by rw [List.length_cons, hlen]⟩
    rw [unicodeToString, List.getElem?_eq_getElem hp, Option.bind_some, hs, Option.map_some]

theorem sval_lt (mem : Bytes) (i : Nat) : sval mem i < 2 ^ 16 := by
  have h₀ := (mem.getD i 0).toNat_lt
  have h₁ := (mem.getD (i + 1) 0).toNat_lt
  rw [sval]
  omega

theorem sval_congr {mem mem' : Bytes} {n i : Nat} (hagree : mem'.take n = mem.take n)
    (hi : i + 1 < n) : sval mem' i = sval mem i := by
  have hget : ∀ j < n, mem'.getD j 0 = mem.getD j 0 := by
    intro j hj
    rw [List.getD_eq_getElem?_getD, List.getD_eq_getElem?_getD, ← List.getElem?_take_of_lt hj,
      hagree, List.getElem?_take_of_lt hj]
  rw [sval, sval, hget i (by omega), hget (i + 1) hi]

/-- The checks are enough: the domain lies within what was received, so that it can be read, and
it does not depend on what the rest of the structure held before. -/
theorem challengeDomain_received {challenge challenge' : Bytes} {result : Nat}
    (hlarge : 32 ≤ result) (hresult : result ≤ challenge.length)
    (hagree : challenge'.take result = challenge.take result)
    (hvalid : challengeValid challenge result = true) :
    challengeValid challenge' result = true ∧
      ∃ d, challengeDomain challenge = some d ∧ challengeDomain challenge' = some d ∧
        2 * d.length ≤ result := by
  -- every field that is read is within the first 32 bytes, which were received
  have hsval : ∀ i < 31, sval challenge' i = sval challenge i := fun i hi =>
    sval_congr hagree (by omega)
  have hlen : uDomainLen challenge' = uDomainLen challenge := hsval 12 (by decide)
  have hoffset : uDomainOffset challenge' = uDomainOffset challenge := by
    rw [uDomainOffset, uDomainOffset, ival, ival, hsval 16 (by decide), hsval 18 (by decide)]
  have htype : ival challenge' 8 = ival challenge 8 := by
    rw [ival, ival, hsval 8 (by decide), hsval 10 (by decide)]
  have hident : challenge'.take 8 = challenge.take 8 := by
    have h := congrArg (List.take 8) hagree
    rwa [List.take_take, List.take_take, Nat.min_eq_left (by omega)] at h
  refine ⟨?_, ?_⟩
  · rw [challengeValid, hident, htype, hoffset, hlen]
    exact hvalid
  · simp only [challengeValid, Bool.and_eq_true, decide_eq_true_eq, Bool.not_eq_true',
      decide_eq_false_iff_not] at hvalid
    obtain ⟨⟨⟨-, hstart⟩, hwrap⟩, hlast⟩ := hvalid
    have hlenlt : uDomainLen challenge < 2 ^ 16 := sval_lt challenge 12
    have hofflt : uDomainOffset challenge < 2 ^ 32 := by
      have h₀ := sval_lt challenge 16
      have h₁ := sval_lt challenge (16 + 2)
      rw [uDomainOffset, ival]
      omega
    -- the two checks on offset and length leave the domain within the response
    have hwithin : uDomainOffset challenge + 2 * (uDomainLen challenge / 2) ≤ result := by omega
    obtain ⟨s, hs, hslen⟩ := unicodeToString_within (hwithin.trans hresult)
    have hcstr : (Bytes.cstr s).length ≤ s.length := (List.takeWhile_prefix _).length_le
    refine ⟨Bytes.cstr s, ?_, ?_, by omega⟩
    · rw [challengeDomain, hs, Option.map_some]
    · rw [challengeDomain, hoffset, hlen, unicodeToString_congr hagree hwithin, hs, Option.map_some]

/-! ## What is answered -/

section

variable {buffer : Storage.Block smbBufferSize} {lmRespData ntRespData : Storage.Block 24}
  {user uDomain : Bytes} {challenge : Storage.Block challengeSize} {result : Nat}

theorem buildSmbNtlmAuthResponse_eq_none_iff :
    buildSmbNtlmAuthResponse buffer lmRespData ntRespData uDomain user = none ↔
      smbBufferSize < 48 + 2 * ((domainPart user).getD uDomain).length +
        4 * (userPart user).length := by
  have hsize : buffer.val.length = smbBufferSize := buffer.property
  have hlm : lmRespData.val.length = 24 := lmRespData.property
  have hnt : ntRespData.val.length = 24 := ntRespData.property
  rw [buildSmbNtlmAuthResponse, addAll_eq_none_iff 64 _ (Nat.zero_le _)]
  simp only [hsize, List.flatten_cons, List.flatten_nil, List.length_append, hlm, hnt,
    length_strToUnicode, List.length_nil]
  omega

/-- The response is written beyond its buffer exactly if the challenge is accepted and the user and
the domain are too long for it; the length of the domain is up to the server unless the user name
has one. -/
theorem answerChallenge_overflow_iff (hresult : result ≤ challengeSize) :
    answerChallenge buffer lmRespData ntRespData user challenge result = .overflow ↔
      32 ≤ result ∧ challengeValid challenge.val result = true ∧
      ∃ d, challengeDomain challenge.val = some d ∧
        smbBufferSize < 48 + 2 * ((domainPart user).getD d).length +
          4 * (userPart user).length := by
  have hsize : challenge.val.length = challengeSize := challenge.property
  rw [answerChallenge]
  by_cases hinvalid : (result < 32 || !challengeValid challenge.val result) = true
  · rw [if_pos hinvalid]
    refine iff_of_false (fun h => by cases h) fun h => ?_
    simp only [Bool.or_eq_true, decide_eq_true_eq, h.2.1, Bool.not_true, Bool.false_eq_true,
      or_false] at hinvalid
    omega
  · rw [if_neg hinvalid]
    simp only [Bool.or_eq_true, decide_eq_true_eq, Bool.not_eq_true', not_or, Nat.not_lt,
      Bool.not_eq_false] at hinvalid
    obtain ⟨-, d, hd, -, -⟩ :=
      challengeDomain_received hinvalid.1 (hresult.trans_eq hsize.symm) rfl hinvalid.2
    have hbuild := @buildSmbNtlmAuthResponse_eq_none_iff buffer lmRespData ntRespData user d
    simp only [hinvalid, hd, Option.some.injEq, exists_eq_left', true_and]
    rw [← hbuild]
    cases buildSmbNtlmAuthResponse buffer lmRespData ntRespData d user with
    | none => exact iff_of_true rfl rfl
    | some r => exact iff_of_false (fun h => by cases h) (fun h => by cases h)

/-- A response has the encrypted passwords, the domain and twice the user, each where its header
says. -/
theorem answerChallenge_response {headers : List SmbStrHeader} {filled : SmbBuffer}
    (h : answerChallenge buffer lmRespData ntRespData user challenge result =
      .response headers filled) :
    ∃ d, challengeDomain challenge.val = some d ∧
      headers.map (field 64 filled.buffer) =
        [lmRespData.val, ntRespData.val, strToUnicode ((domainPart user).getD d),
          strToUnicode (userPart user), strToUnicode (userPart user), []] ∧
      filled.bufIndex ≤ smbBufferSize := by
  have hsize : buffer.val.length = smbBufferSize := buffer.property
  rw [answerChallenge] at h
  by_cases hinvalid : (result < 32 || !challengeValid challenge.val result) = true
  · rw [if_pos hinvalid] at h
    cases h
  · rw [if_neg hinvalid] at h
    cases hd : challengeDomain challenge.val with
    | none =>
      rw [hd] at h
      cases h
    | some d =>
      simp only [hd] at h
      cases hbuild : buildSmbNtlmAuthResponse buffer lmRespData ntRespData d user with
      | none =>
        rw [hbuild] at h
        cases h
      | some r =>
        rw [hbuild] at h
        cases h
        -- there is a response, so that the four strings had room in the buffer
        have hfits := mt buildSmbNtlmAuthResponse_eq_none_iff.mpr (by rw [hbuild]; simp)
        obtain ⟨hlength, hindex, -, hfields⟩ := addAll_spec 64 (by rw [hsize]; decide) hbuild
        have hlm : lmRespData.val.length = 24 := lmRespData.property
        have hnt : ntRespData.val.length = 24 := ntRespData.property
        refine ⟨d, rfl, hfields, ?_⟩
        rw [hindex]
        simp only [List.flatten_cons, List.flatten_nil, List.length_append, hlm, hnt,
          length_strToUnicode, List.length_nil]
        omega

/-- A challenge whose domain is as long as the structure has room for. -/
def longChallenge : Storage.Block challengeSize :=
  ⟨Bytes.lit "NTLMSSP" ++ [0, 2, 0, 0, 0, 0, 4, 0, 4, 48, 0, 0, 0] ++ List.replicate 1056 97, by
    rw [List.length_append, List.length_replicate]
    rfl⟩

theorem unicodeToString_replicate {mem : Bytes} {b : UInt8} {p len : Nat}
    (h : ∀ i, p ≤ i → i < p + 2 * len → mem[i]? = some b) :
    unicodeToString mem p len = some (List.replicate len (b &&& 0x7f)) := by
  induction len generalizing p with
  | zero => rfl
  | succ len ih =>
    rw [unicodeToString, h p (Nat.le_refl p) (by omega), Option.bind_some,
      ih fun i hi hlt => h i (by omega) (by omega)]
    rfl

theorem longChallenge_domain :
    challengeValid longChallenge.val 1072 = true ∧
      challengeDomain longChallenge.val = some (List.replicate 512 97) := by
  have hlen : uDomainLen longChallenge.val = 1024 := rfl
  have hoffset : uDomainOffset longChallenge.val = 48 := rfl
  refine ⟨rfl, ?_⟩
  have hread : unicodeToString longChallenge.val 48 512 =
      some (List.replicate 512 (97 &&& 0x7f)) := by
    apply unicodeToString_replicate
    intro i hi hlt
    rw [longChallenge, List.getElem?_append_right (by exact hi.trans' (by decide)),
      List.getElem?_replicate, if_pos]
    have hpre : (Bytes.lit "NTLMSSP" ++ [0, 2, 0, 0, 0, 0, 4, 0, 4, 48, 0, 0, 0]).length = 20 := rfl
    omega
  have hplain : Bytes.nul ∉ List.replicate 512 (97 &&& 0x7f : UInt8) := by
    intro h
    exact absurd (List.eq_of_mem_replicate h) (by decide)
  rw [challengeDomain, hlen, hoffset, hread, Option.map_some, Buffer.cstr_eq_self hplain]
  rfl

/-- Whatever the user and the password, a server can have the response written beyond its buffer,
unless the user name has a domain of its own. -/
theorem answerChallenge_forced (buffer : Storage.Block smbBufferSize)
    (lmRespData ntRespData : Storage.Block 24) {user : Bytes} (huser : atSign ∉ user) :
    ∃ (challenge : Storage.Block challengeSize) (result : Nat), result ≤ challengeSize ∧
      answerChallenge buffer lmRespData ntRespData user challenge result = .overflow := by
  refine ⟨longChallenge, 1072, by decide, ?_⟩
  rw [answerChallenge_overflow_iff (by decide)]
  refine ⟨by decide, longChallenge_domain.1, _, longChallenge_domain.2, ?_⟩
  rw [domainPart, if_neg huser, Option.getD_none, List.length_replicate, smbBufferSize]
  omega

/-- Storage as it may be before it is written. -/
def sampleBuffer (size : Nat) : Storage.Block size :=
  ⟨List.replicate size 0xff, List.length_replicate⟩

theorem answerChallenge_overflow_iff_sample :
    answerChallenge (sampleBuffer 1024) (sampleBuffer 24) (sampleBuffer 24) (Bytes.lit "bob")
      longChallenge 1072 = .overflow := by
  refine (answerChallenge_overflow_iff (by decide)).mpr
    ⟨by decide, longChallenge_domain.1, _, longChallenge_domain.2, ?_⟩
  have hdomain : domainPart (Bytes.lit "bob") = none := rfl
  rw [hdomain, Option.getD_none, List.length_replicate]
  decide

theorem answerChallenge_forced_sample :
    ∃ (challenge : Storage.Block challengeSize) (result : Nat), result ≤ challengeSize ∧
      answerChallenge (sampleBuffer 1024) (sampleBuffer 24) (sampleBuffer 24) (Bytes.lit "bob")
        challenge result = .overflow :=
  answerChallenge_forced _ _ _ (by decide)

/-- A challenge from the domain `LAN`, in a structure that held something else before. -/
def lanChallenge : Storage.Block challengeSize :=
  ⟨Bytes.lit "NTLMSSP" ++ [0, 2, 0, 0, 0, 6, 0, 6, 0, 32, 0, 0, 0] ++ List.replicate 12 0 ++
    [76, 0, 65, 0, 78, 0] ++ List.replicate 1038 97, by
    rw [List.length_append, List.length_replicate]
    rfl⟩

theorem challengeDomain_received_sample :
    ∃ d, challengeDomain lanChallenge.val = some d ∧
      challengeDomain (lanChallenge.val.take 38) = some d ∧ 2 * d.length ≤ 38 := by
  have hresult : 38 ≤ lanChallenge.val.length := by
    rw [lanChallenge.property]
    decide
  have hagree : (lanChallenge.val.take 38).take 38 = lanChallenge.val.take 38 := List.take_take ..
  exact (challengeDomain_received (by decide) hresult hagree rfl).2

theorem answerChallenge_response_sample :
    ∃ headers filled, answerChallenge (sampleBuffer 1024) (sampleBuffer 24) (sampleBuffer 24)
        (Bytes.lit "bob") lanChallenge 38 = .response headers filled ∧
      filled.bufIndex ≤ smbBufferSize := by
  have hvalid : (decide (38 < 32) || !challengeValid lanChallenge.val 38) = false := rfl
  have hdomain : challengeDomain lanChallenge.val = some (Bytes.lit "LAN") := rfl
  cases hbuild : buildSmbNtlmAuthResponse (sampleBuffer 1024) (sampleBuffer 24) (sampleBuffer 24)
      (Bytes.lit "LAN") (Bytes.lit "bob") with
  | none => exact absurd (buildSmbNtlmAuthResponse_eq_none_iff.mp hbuild) (by decide)
  | some r =>
    have h : answerChallenge (sampleBuffer 1024) (sampleBuffer 24) (sampleBuffer 24)
        (Bytes.lit "bob") lanChallenge 38 = .response r.1 r.2 := by
      unfold answerChallenge
      simp only [hvalid, hdomain, hbuild, Bool.false_eq_true, if_false]
    obtain ⟨d, -, -, hfits⟩ := answerChallenge_response h
    exact ⟨r.1, r.2, h, hfits⟩

end

end Fetchmail.Auth
