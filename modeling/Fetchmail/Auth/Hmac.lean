import Fetchmail.Auth.CredentialBuffers
import Fetchmail.Auth.Md5

/-!
# Keyed MD5

`hmac_md5` of `cram.c` over the calls of `md5c.c`, and the keyed digest that it is for. The answers
to `CRAM-MD5` challenges are made from it.
-/

namespace Fetchmail.Auth

open Fetchmail.Lib

/-- `MD5Final` clears the context. -/
def cleared : Storage.Block 64 := ⟨List.replicate 64 0, List.length_replicate⟩

/-- The password that goes into `ipad` and `opad`, and what the context holds then. -/
def hashPasswd (o : ByteOrder) (storage : Storage.Block 64) (password : Bytes) :
    Option (Bytes × Storage.Block 64) :=
  if 64 < password.length then
    (md5Run o storage [password]).map fun hashPasswd => (hashPasswd, cleared)
  else some (password, storage)

/-- `hmac_md5`, with room for a digest -/
def hmacMd5 (o : ByteOrder) (storage : Storage.Block 64) (password challenge : Bytes) :
    Option Bytes :=
  (hashPasswd o storage password).bind fun key =>
  (Storage.write (List.replicate 64 0) 0 key.1).bind fun ipad =>
  (Storage.write (List.replicate 64 0) 0 key.1).bind fun opad =>
  (md5Run o key.2 [ipad.map (· ^^^ 0x36), challenge]).bind fun response =>
  md5Run o cleared [opad.map (· ^^^ 0x5c), response]

/-! ## The keyed digest -/

/-- A key as a block: a long one is digested first. -/
def keyBlock (key : Bytes) : Bytes :=
  let key := if 64 < key.length then md5 key else key
  key ++ List.replicate (64 - key.length) 0

/-- The keyed digest: the key with one constant and the message inside, the key with the other
constant and the inner digest outside. -/
def hmac (key msg : Bytes) : Bytes :=
  md5 ((keyBlock key).map (· ^^^ 0x5c) ++ md5 ((keyBlock key).map (· ^^^ 0x36) ++ msg))

theorem length_keyBlock (key : Bytes) : (keyBlock key).length = 64 := by
  rw [keyBlock]
  by_cases h : 64 < key.length
  · rw [if_pos h, List.length_append, length_md5, List.length_replicate]
  · rw [if_neg h, List.length_append, List.length_replicate]
    omega

/-- The key in its block, as the code puts it there. -/
theorem write_key (o : ByteOrder) (storage : Storage.Block 64) {password : Bytes}
    (hlen : password.length < 2 ^ 32) :
    ∃ key : Bytes × Storage.Block 64, hashPasswd o storage password = some key ∧
      Storage.write (List.replicate 64 0) 0 key.1 = some (keyBlock password) := by
  by_cases hlong : 64 < password.length
  · refine ⟨(md5 password, cleared), ?_, ?_⟩
    · have hrun : md5Run o storage [password] = some (md5 [password].flatten) :=
        md5Run_eq o storage (by simpa using hlen)
      rw [hashPasswd, if_pos hlong, hrun]
      simp
    · rw [Storage.write, if_pos (by simp), keyBlock, if_pos hlong]
      simp
  · refine ⟨(password, storage), by rw [hashPasswd, if_neg hlong], ?_⟩
    have hfit : 0 + password.length ≤ (List.replicate 64 (0 : UInt8)).length := by
      rw [List.length_replicate]
      omega
    rw [Storage.write, if_pos hfit, keyBlock, if_neg hlong,
      List.take_zero, List.nil_append, Nat.zero_add, List.drop_replicate]

/-- `hmac_md5` stays in its arrays and computes the keyed digest, whatever the lengths of the
password and of the challenge, on a host of either byte order. -/
theorem hmacMd5_eq (o : ByteOrder) (storage : Storage.Block 64) {password challenge : Bytes}
    (hpassword : password.length < 2 ^ 32) (hchallenge : challenge.length < 2 ^ 32) :
    hmacMd5 o storage password challenge = some (hmac password challenge) := by
  obtain ⟨key, hkey, hwrite⟩ := write_key o storage hpassword
  have hblock := length_keyBlock password
  have hinner : md5Run o key.2 [(keyBlock password).map (· ^^^ 0x36), challenge] =
      some (md5 [(keyBlock password).map (· ^^^ 0x36), challenge].flatten) := by
    apply md5Run_eq
    intro p hp
    rcases List.mem_pair.mp hp with rfl | rfl
    · rw [List.length_map]
      omega
    · exact hchallenge
  have houter : ∀ response : Bytes, response.length = 16 →
      md5Run o cleared [(keyBlock password).map (· ^^^ 0x5c), response] =
        some (md5 [(keyBlock password).map (· ^^^ 0x5c), response].flatten) := by
    intro response hlen
    apply md5Run_eq
    intro p hp
    rcases List.mem_pair.mp hp with rfl | rfl
    · rw [List.length_map]
      omega
    · omega
  rw [hmacMd5, hkey, Option.bind_some, hwrite, Option.bind_some, Option.bind_some, hinner,
    Option.bind_some, houter _ (length_md5 _)]
  simp [hmac]

theorem hmacMd5_eq_sample :
    hmacMd5 .little cleared (Bytes.lit "Jefe") (Bytes.lit "what do ya want for nothing?") =
      some (hmac (Bytes.lit "Jefe") (Bytes.lit "what do ya want for nothing?")) :=
  hmacMd5_eq .little cleared (by decide) (by decide)

end Fetchmail.Auth
