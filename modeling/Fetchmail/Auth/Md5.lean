import Fetchmail.Lib.Chunks
import Fetchmail.Lib.Storage

/-!
# MD5

`md5c.c`: `byteReverse`, `MD5Init`, `MD5Update`, `MD5Final` and `MD5Transform`, over the byte
order of the host, on which the code must not depend. A write outside of the context's 64
bytes has no result. `md5` is the message digest that the code is for: the padded message in
blocks, with the four round functions in their plain form. Whatever pieces a message is given
in, the code computes its digest.
-/

namespace Fetchmail.Auth

open Fetchmail.Lib

/-! ## Words in the memory of the host -/

/-- The order of a word's bytes in memory. -/
inductive ByteOrder where
  | little
  | big
  deriving DecidableEq

namespace ByteOrder

/-- The bytes of a word. -/
def store (o : ByteOrder) (w : UInt32) : Bytes :=
  match o with
  | little => [w.toUInt8, (w >>> 8).toUInt8, (w >>> 16).toUInt8, (w >>> 24).toUInt8]
  | big => [(w >>> 24).toUInt8, (w >>> 16).toUInt8, (w >>> 8).toUInt8, w.toUInt8]

/-- Four bytes as a word, the lowest first. -/
def join (b₀ b₁ b₂ b₃ : UInt8) : UInt32 :=
  (b₃.toUInt32 <<< 8 ||| b₂.toUInt32) <<< 16 ||| (b₁.toUInt32 <<< 8 ||| b₀.toUInt32)

/-- The word at the start of memory. -/
def load (o : ByteOrder) (mem : Bytes) : UInt32 :=
  match o with
  | little =>
    join (Bytes.charAt mem 0) (Bytes.charAt mem 1) (Bytes.charAt mem 2) (Bytes.charAt mem 3)
  | big => join (Bytes.charAt mem 3) (Bytes.charAt mem 2) (Bytes.charAt mem 1) (Bytes.charAt mem 0)

end ByteOrder

/-- `byteReverse`, for a number of words -/
def byteReverse (o : ByteOrder) : Nat → Bytes → Bytes
  | 0, buf => buf
  | longs + 1, buf => o.store (ByteOrder.little.load buf) ++ byteReverse o longs (buf.drop 4)

/-- `ctx->u.in32` -/
def in32 (o : ByteOrder) (mem : Bytes) : List UInt32 :=
  (List.range 16).map fun i => o.load (mem.drop (4 * i))

/-! ## The block function -/

/-- `ctx->buf` -/
structure Md5State where
  a : UInt32
  b : UInt32
  c : UInt32
  d : UInt32
  deriving DecidableEq

/-- A round function. -/
abbrev RoundFn : Type := UInt32 → UInt32 → UInt32 → UInt32

/-- `F1` -/
def f1 : RoundFn := fun x y z => z ^^^ (x &&& (y ^^^ z))

/-- `F2` -/
def f2 : RoundFn := fun x y z => f1 z x y

/-- `F3` -/
def f3 : RoundFn := fun x y z => x ^^^ y ^^^ z

/-- `F4` -/
def f4 : RoundFn := fun x y z => y ^^^ (x ||| ~~~z)

/-- `MD5STEP`: the new value of `w`. -/
def md5Step (f : RoundFn) (w x y z data s : UInt32) : UInt32 :=
  let w := w + (f x y z + data)
  (w <<< s ||| w >>> (32 - s)) + x

/-- The data of a step: which word of the block, and the constant added to it. -/
abbrev StepData : Type := Nat × UInt32

/-- Four steps, after which the registers have their places again. -/
def md5Quad (f : RoundFn) (s₁ s₂ s₃ s₄ : UInt32) (input : List UInt32) (st : Md5State)
    (q : StepData × StepData × StepData × StepData) : Md5State :=
  let data (r : StepData) := input.getD r.1 0 + r.2
  let a := md5Step f st.a st.b st.c st.d (data q.1) s₁
  let d := md5Step f st.d a st.b st.c (data q.2.1) s₂
  let c := md5Step f st.c d a st.b (data q.2.2.1) s₃
  let b := md5Step f st.b c d a (data q.2.2.2) s₄
  ⟨a, b, c, d⟩

def round1 : List (StepData × StepData × StepData × StepData) :=
  [((0, 0xd76aa478), (1, 0xe8c7b756), (2, 0x242070db), (3, 0xc1bdceee)),
   ((4, 0xf57c0faf), (5, 0x4787c62a), (6, 0xa8304613), (7, 0xfd469501)),
   ((8, 0x698098d8), (9, 0x8b44f7af), (10, 0xffff5bb1), (11, 0x895cd7be)),
   ((12, 0x6b901122), (13, 0xfd987193), (14, 0xa679438e), (15, 0x49b40821))]

def round2 : List (StepData × StepData × StepData × StepData) :=
  [((1, 0xf61e2562), (6, 0xc040b340), (11, 0x265e5a51), (0, 0xe9b6c7aa)),
   ((5, 0xd62f105d), (10, 0x02441453), (15, 0xd8a1e681), (4, 0xe7d3fbc8)),
   ((9, 0x21e1cde6), (14, 0xc33707d6), (3, 0xf4d50d87), (8, 0x455a14ed)),
   ((13, 0xa9e3e905), (2, 0xfcefa3f8), (7, 0x676f02d9), (12, 0x8d2a4c8a))]

def round3 : List (StepData × StepData × StepData × StepData) :=
  [((5, 0xfffa3942), (8, 0x8771f681), (11, 0x6d9d6122), (14, 0xfde5380c)),
   ((1, 0xa4beea44), (4, 0x4bdecfa9), (7, 0xf6bb4b60), (10, 0xbebfbc70)),
   ((13, 0x289b7ec6), (0, 0xeaa127fa), (3, 0xd4ef3085), (6, 0x04881d05)),
   ((9, 0xd9d4d039), (12, 0xe6db99e5), (15, 0x1fa27cf8), (2, 0xc4ac5665))]

def round4 : List (StepData × StepData × StepData × StepData) :=
  [((0, 0xf4292244), (7, 0x432aff97), (14, 0xab9423a7), (5, 0xfc93a039)),
   ((12, 0x655b59c3), (3, 0x8f0ccc92), (10, 0xffeff47d), (1, 0x85845dd1)),
   ((8, 0x6fa87e4f), (15, 0xfe2ce6e0), (6, 0xa3014314), (13, 0x4e0811a1)),
   ((4, 0xf7537e82), (11, 0xbd3af235), (2, 0x2ad7d2bb), (9, 0xeb86d391))]

/-- The four rounds over some round functions, added to the state they start from. -/
def transformWith (g₁ g₂ g₃ g₄ : RoundFn) (buf : Md5State) (input : List UInt32) : Md5State :=
  let st := round1.foldl (md5Quad g₁ 7 12 17 22 input) buf
  let st := round2.foldl (md5Quad g₂ 5 9 14 20 input) st
  let st := round3.foldl (md5Quad g₃ 4 11 16 23 input) st
  let st := round4.foldl (md5Quad g₄ 6 10 15 21 input) st
  ⟨buf.a + st.a, buf.b + st.b, buf.c + st.c, buf.d + st.d⟩

/-- `MD5Transform` -/
def md5Transform : Md5State → List UInt32 → Md5State := transformWith f1 f2 f3 f4

/-! ## The streaming interface -/

/-- `struct MD5Context` -/
structure Md5Context where
  buf : Md5State
  bits0 : UInt32
  bits1 : UInt32
  /-- `u.in` -/
  inBytes : Bytes

/-- The constants of `MD5Init`. -/
def md5Start : Md5State := ⟨0x67452301, 0xefcdab89, 0x98badcfe, 0x10325476⟩

/-- `MD5Init`, over what the context's storage holds -/
def md5Init (storage : Storage.Block 64) : Md5Context := ⟨md5Start, 0, 0, storage.val⟩

/-- `byteReverse(ctx->u.in, 16); MD5Transform(ctx->buf, ctx->u.in32);` -/
def takeBlock (o : ByteOrder) (buf : Md5State) (inBytes : Bytes) : Md5State × Bytes :=
  let inBytes := byteReverse o 16 inBytes
  (md5Transform buf (in32 o inBytes), inBytes)

/-- The 64-byte chunks of `MD5Update`, and the bytes that remain. -/
def md5Chunks (o : ByteOrder) (ctx : Md5Context) (buf : Bytes) : Option Md5Context :=
  if 64 ≤ buf.length then
    (Storage.write ctx.inBytes 0 (buf.take 64)).bind fun inBytes =>
      let block := takeBlock o ctx.buf inBytes
      md5Chunks o { ctx with buf := block.1, inBytes := block.2 } (buf.drop 64)
  else
    (Storage.write ctx.inBytes 0 buf).map fun inBytes => { ctx with inBytes := inBytes }
termination_by buf.length
decreasing_by
  rw [List.length_drop]
  omega

/-- The bit count of `MD5Update`, for a length of its argument. -/
def countBits (bits0 bits1 len : UInt32) : UInt32 × UInt32 :=
  let low := bits0 + len <<< 3
  (low, (if low < bits0 then bits1 + 1 else bits1) + len >>> 29)

/-- `MD5Update` -/
def md5Update (o : ByteOrder) (ctx : Md5Context) (buf : Bytes) : Option Md5Context :=
  let bits := countBits ctx.bits0 ctx.bits1 (UInt32.ofNat buf.length)
  let t := (ctx.bits0 >>> 3 &&& 0x3f).toNat
  let ctx := { ctx with bits0 := bits.1, bits1 := bits.2 }
  if t ≠ 0 then
    if buf.length < 64 - t then
      (Storage.write ctx.inBytes t buf).map fun inBytes => { ctx with inBytes := inBytes }
    else
      (Storage.write ctx.inBytes t (buf.take (64 - t))).bind fun inBytes =>
        let block := takeBlock o ctx.buf inBytes
        md5Chunks o { ctx with buf := block.1, inBytes := block.2 } (buf.drop (64 - t))
  else md5Chunks o ctx buf

/-- The padding of `MD5Final`, up to the place of the bit count. -/
def md5Pad (o : ByteOrder) (buf : Md5State) (count : Nat) (inBytes : Bytes) :
    Option (Md5State × Bytes) :=
  let room := 64 - 1 - count
  (Storage.write inBytes count [0x80]).bind fun inBytes =>
  if room < 8 then
    (Storage.write inBytes (count + 1) (List.replicate room 0)).bind fun inBytes =>
      let block := takeBlock o buf inBytes
      (Storage.write block.2 0 (List.replicate 56 0)).map fun inBytes => (block.1, inBytes)
  else
    (Storage.write inBytes (count + 1) (List.replicate (room - 8) 0)).map fun inBytes =>
      (buf, inBytes)

/-- `MD5Final`: the digest. -/
def md5Final (o : ByteOrder) (ctx : Md5Context) : Option Bytes :=
  (md5Pad o ctx.buf (ctx.bits0 >>> 3 &&& 0x3f).toNat ctx.inBytes).bind fun padded =>
  (Storage.write (byteReverse o 14 padded.2) 56 (o.store ctx.bits0)).bind fun inBytes =>
  (Storage.write inBytes 60 (o.store ctx.bits1)).map fun inBytes =>
    let st := md5Transform padded.1 (in32 o inBytes)
    byteReverse o 4 (o.store st.a ++ (o.store st.b ++ (o.store st.c ++ o.store st.d)))

/-! ## Words and round functions -/

/-- The form of `F1` that saves an operation. -/
theorem f1_eq (x y z : UInt32) : f1 x y z = (x &&& y ||| ~~~x &&& z) := by
  apply UInt32.toBitVec_inj.mp
  simp only [f1, UInt32.toBitVec_xor, UInt32.toBitVec_and, UInt32.toBitVec_or, UInt32.toBitVec_not]
  apply BitVec.eq_of_getLsbD_eq
  intro i hi
  simp only [BitVec.getLsbD_xor, BitVec.getLsbD_and, BitVec.getLsbD_or, BitVec.getLsbD_not, hi,
    decide_true, Bool.true_and]
  cases x.toBitVec.getLsbD i <;> cases y.toBitVec.getLsbD i <;> cases z.toBitVec.getLsbD i <;> rfl

/-- Bits that do not meet are added. -/
theorem or_toNat {x y : UInt32} {k : Nat} (hk : k < 32) (hx : x.toNat * 2 ^ k < 2 ^ 32)
    (hy : y.toNat < 2 ^ k) :
    (x <<< UInt32.ofNat k ||| y).toNat = x.toNat * 2 ^ k + y.toNat := by
  have hk' : (UInt32.ofNat k).toNat % 32 = k := by
    rw [UInt32.toNat_ofNat']
    omega
  rw [UInt32.toNat_or, UInt32.toNat_shiftLeft, hk', Nat.shiftLeft_eq, Nat.mod_eq_of_lt hx,
    ← Nat.shiftLeft_eq, Nat.shiftLeft_add_eq_or_of_lt hy]

theorem join_toNat (b₀ b₁ b₂ b₃ : UInt8) :
    (ByteOrder.join b₀ b₁ b₂ b₃).toNat =
      b₀.toNat + 2 ^ 8 * b₁.toNat + 2 ^ 16 * b₂.toNat + 2 ^ 24 * b₃.toNat := by
  have h0 := b₀.toNat_lt
  have h1 := b₁.toNat_lt
  have h2 := b₂.toNat_lt
  have h3 := b₃.toNat_lt
  have hlow : (b₁.toUInt32 <<< 8 ||| b₀.toUInt32).toNat = b₁.toNat * 2 ^ 8 + b₀.toNat :=
    or_toNat (k := 8) (by omega) (by simp; omega) (by simp; omega)
  have hhigh : (b₃.toUInt32 <<< 8 ||| b₂.toUInt32).toNat = b₃.toNat * 2 ^ 8 + b₂.toNat :=
    or_toNat (k := 8) (by omega) (by simp; omega) (by simp; omega)
  have hall := or_toNat (x := b₃.toUInt32 <<< 8 ||| b₂.toUInt32)
    (y := b₁.toUInt32 <<< 8 ||| b₀.toUInt32) (k := 16) (by omega) (by omega) (by omega)
  rw [ByteOrder.join]
  refine hall.trans ?_
  rw [hlow, hhigh]
  omega

theorem byte_toNat (w : UInt32) (k : Nat) (hk : k < 32) :
    (w >>> UInt32.ofNat k).toUInt8.toNat = w.toNat / 2 ^ k % 2 ^ 8 := by
  have hk' : (UInt32.ofNat k).toNat % 32 = k := by
    rw [UInt32.toNat_ofNat']
    omega
  rw [UInt32.toNat_toUInt8, UInt32.toNat_shiftRight, hk', Nat.shiftRight_eq_div_pow]

theorem join_bytes (w : UInt32) :
    ByteOrder.join w.toUInt8 (w >>> 8).toUInt8 (w >>> 16).toUInt8 (w >>> 24).toUInt8 = w := by
  have hw := w.toNat_lt
  apply UInt32.toNat_inj.mp
  have h8 := byte_toNat w 8 (by omega)
  have h16 := byte_toNat w 16 (by omega)
  have h24 := byte_toNat w 24 (by omega)
  have h0 : w.toUInt8.toNat = w.toNat % 2 ^ 8 := UInt32.toNat_toUInt8 w
  rw [join_toNat]
  simp only [UInt32.reduceOfNat] at h8 h16 h24
  omega

/-- The bytes of a word that is put together from bytes. -/
theorem store_join (b₀ b₁ b₂ b₃ : UInt8) :
    ByteOrder.big.store (ByteOrder.join b₀ b₁ b₂ b₃) = [b₃, b₂, b₁, b₀] := by
  have h0 := b₀.toNat_lt
  have h1 := b₁.toNat_lt
  have h2 := b₂.toNat_lt
  have h3 := b₃.toNat_lt
  have hw := join_toNat b₀ b₁ b₂ b₃
  have h8 := byte_toNat (ByteOrder.join b₀ b₁ b₂ b₃) 8 (by omega)
  have h16 := byte_toNat (ByteOrder.join b₀ b₁ b₂ b₃) 16 (by omega)
  have h24 := byte_toNat (ByteOrder.join b₀ b₁ b₂ b₃) 24 (by omega)
  have hlow := UInt32.toNat_toUInt8 (ByteOrder.join b₀ b₁ b₂ b₃)
  simp only [UInt32.reduceOfNat] at h8 h16 h24
  simp only [ByteOrder.store, List.cons.injEq, and_true]
  refine ⟨?_, ?_, ?_, ?_⟩ <;> apply UInt8.toNat_inj.mp <;> omega

/-! ## The host's byte order does not matter -/

theorem load_store (o : ByteOrder) (w : UInt32) (rest : Bytes) :
    o.load (o.store w ++ rest) = w := by
  cases o <;> exact join_bytes w

theorem load_append (o : ByteOrder) {m : Bytes} (h : 4 ≤ m.length) (rest : Bytes) :
    o.load (m ++ rest) = o.load m := by
  have hat : ∀ i < 4, Bytes.charAt (m ++ rest) i = Bytes.charAt m i := by
    intro i hi
    rw [Bytes.charAt, Bytes.charAt, List.getD_eq_getElem?_getD, List.getD_eq_getElem?_getD,
      List.getElem?_append_left (by omega)]
  cases o <;>
    rw [ByteOrder.load, ByteOrder.load, hat 0 (by omega), hat 1 (by omega), hat 2 (by omega),
      hat 3 (by omega)]

@[simp]
theorem length_store (o : ByteOrder) (w : UInt32) : (o.store w).length = 4 := by
  cases o <;> rfl

theorem length_byteReverse (o : ByteOrder) {longs : Nat} {m : Bytes} (h : 4 * longs ≤ m.length) :
    (byteReverse o longs m).length = m.length := by
  induction longs generalizing m with
  | zero => rfl
  | succ longs ih =>
    rw [byteReverse, List.length_append, length_store, ih (by rw [List.length_drop]; omega),
      List.length_drop]
    omega

/-- A word that has been reversed is read as its bytes say, the lowest first. -/
theorem load_byteReverse (o : ByteOrder) {longs i : Nat} {m : Bytes} (hi : i < longs) :
    o.load ((byteReverse o longs m).drop (4 * i)) = ByteOrder.little.load (m.drop (4 * i)) := by
  induction longs generalizing i m with
  | zero => omega
  | succ longs ih =>
    rw [byteReverse]
    cases i with
    | zero => exact load_store o _ _
    | succ i =>
      have hdrop : 4 * (i + 1) = (o.store (ByteOrder.little.load m)).length + 4 * i := by
        rw [length_store]
        omega
      rw [hdrop, List.drop_length_add_append, ih (by omega), List.drop_drop, length_store]

theorem in32_byteReverse (o : ByteOrder) (m : Bytes) :
    in32 o (byteReverse o 16 m) = in32 .little m := by
  apply List.map_congr_left
  intro i hi
  exact load_byteReverse o (List.mem_range.mp hi)

/-- The registers leave the host with the lowest byte first. -/
theorem byteReverse_store (o : ByteOrder) (w : UInt32) (longs : Nat) (rest : Bytes) :
    byteReverse o (longs + 1) (o.store w ++ rest) =
      ByteOrder.little.store w ++ byteReverse o longs rest := by
  have hdrop : (o.store w ++ rest).drop 4 = rest := List.drop_left' (length_store o w)
  rw [byteReverse, hdrop]
  cases o with
  | little => rw [load_store]
  | big =>
    -- the word is read backwards and stored backwards
    have hload : ByteOrder.little.load (ByteOrder.big.store w ++ rest) =
        ByteOrder.join (w >>> 24).toUInt8 (w >>> 16).toUInt8 (w >>> 8).toUInt8 w.toUInt8 := rfl
    rw [hload, store_join]
    rfl

/-! ## The message digest -/

/-- The block function with the round functions in the form of the comment above `F1`, on the
words of a block as its bytes say. -/
def plainBlock : Md5State → Bytes → Md5State := fun st block =>
  transformWith (fun x y z => x &&& y ||| ~~~x &&& z) (fun x y z => z &&& x ||| ~~~z &&& y) f3 f4 st
    (in32 .little block)

/-- A one bit, and zeros up to 56 bytes beyond a block. -/
def padding (length : Nat) : Bytes := 0x80 :: List.replicate ((119 - length % 64) % 64) 0

/-- The number of bits, as 64 bits with the lowest byte first. -/
def bitCount (length : Nat) : Bytes :=
  ByteOrder.little.store (UInt32.ofNat (8 * length)) ++
    ByteOrder.little.store (UInt32.ofNat (8 * length / 2 ^ 32))

/-- The bytes of the registers. -/
def Md5State.bytes (st : Md5State) : Bytes :=
  ByteOrder.little.store st.a ++ (ByteOrder.little.store st.b ++
    (ByteOrder.little.store st.c ++ ByteOrder.little.store st.d))

/-- The message digest. -/
def md5 (msg : Bytes) : Bytes :=
  (Chunks.absorb 64 plainBlock md5Start
    (msg ++ (padding msg.length ++ bitCount msg.length))).1.bytes

theorem md5Transform_eq (st : Md5State) (m : Bytes) :
    md5Transform st (in32 .little m) = plainBlock st m := by
  have h1 : f1 = fun x y z => x &&& y ||| ~~~x &&& z := by
    funext x y z
    exact f1_eq x y z
  have h2 : f2 = fun x y z => z &&& x ||| ~~~z &&& y := by
    funext x y z
    exact f1_eq z x y
  rw [md5Transform, plainBlock, h1, h2]

theorem takeBlock_eq (o : ByteOrder) (st : Md5State) (m : Bytes) :
    takeBlock o st m = (plainBlock st m, byteReverse o 16 m) := by
  rw [takeBlock, in32_byteReverse, md5Transform_eq]

/-! ## The pieces of a message -/

/-- The context has taken the bytes of a message. -/
structure Absorbed (ctx : Md5Context) (msg : Bytes) : Prop where
  state : ctx.buf = (Chunks.absorb 64 plainBlock md5Start msg).1
  count : ctx.bits0.toNat + 2 ^ 32 * ctx.bits1.toNat = 8 * msg.length % 2 ^ 64
  size : ctx.inBytes.length = 64
  waits : ctx.inBytes.take (msg.length % 64) = (Chunks.absorb 64 plainBlock md5Start msg).2

/-- The whole blocks go through the block function; the rest is written to the start of the
64 bytes. -/
theorem md5Chunks_spec (o : ByteOrder) (ctx : Md5Context) (buf : Bytes)
    (h : ctx.inBytes.length = 64) :
    ∃ inBytes, md5Chunks o ctx buf = some { ctx with
        buf := (Chunks.absorb 64 plainBlock ctx.buf buf).1, inBytes := inBytes } ∧
      inBytes.length = 64 ∧
      inBytes.take (buf.length % 64) = (Chunks.absorb 64 plainBlock ctx.buf buf).2 := by
  induction ctx, buf using md5Chunks.induct o with
  | case1 ctx buf hlen ih =>
    have htake : (buf.take 64).length = 64 := by
      rw [List.length_take]
      omega
    have hfit : 0 + (buf.take 64).length ≤ ctx.inBytes.length := by omega
    obtain ⟨mem, hw, hmem, hstart⟩ := Storage.write_fits hfit
    -- the block is copied over the 64 bytes, so that what they held does not count
    have hblock : mem = buf.take 64 := by
      rw [← List.take_of_length_le (i := 64) (l := mem) (by omega)]
      simpa [htake] using hstart
    have hsize : (byteReverse o 16 mem).length = 64 := by
      rw [length_byteReverse o (by omega), hmem, h]
    obtain ⟨rest, hrun, hrest, htail⟩ := ih mem (by rw [takeBlock_eq]; exact hsize)
    simp only [takeBlock_eq, hblock, List.length_drop] at hrun htail
    refine ⟨rest, ?_, hrest, ?_⟩
    · rw [md5Chunks, if_pos hlen, hw, Option.bind_some]
      simp only [takeBlock_eq, hblock]
      rw [hrun, Chunks.absorb_take_drop (by omega) hlen]
    · rw [Chunks.absorb_take_drop (by omega) hlen, ← htail, ← Nat.mod_eq_sub_mod hlen]
  | case2 ctx buf hlen =>
    have hfit : 0 + buf.length ≤ ctx.inBytes.length := by omega
    obtain ⟨mem, hw, hmem, hstart⟩ := Storage.write_fits hfit
    refine ⟨mem, ?_, by omega, ?_⟩
    · rw [md5Chunks, if_neg hlen, hw, Chunks.absorb_short (by omega)]
      rfl
    · rw [Chunks.absorb_short (by omega), Nat.mod_eq_of_lt (by omega)]
      simpa using hstart

theorem countBits_spec {bits0 bits1 : UInt32} {n len : Nat}
    (h : bits0.toNat + 2 ^ 32 * bits1.toNat = 8 * n % 2 ^ 64) (hlen : len < 2 ^ 32) :
    (countBits bits0 bits1 (UInt32.ofNat len)).1.toNat +
      2 ^ 32 * (countBits bits0 bits1 (UInt32.ofNat len)).2.toNat = 8 * (n + len) % 2 ^ 64 := by
  have h0 := bits0.toNat_lt
  have h1 := bits1.toNat_lt
  have hl : (UInt32.ofNat len).toNat = len := by
    rw [UInt32.toNat_ofNat']
    omega
  have hlow : (bits0 + UInt32.ofNat len <<< 3).toNat = (bits0.toNat + len * 8) % 2 ^ 32 := by
    simp [hl, Nat.shiftLeft_eq]
  have hhigh : (UInt32.ofNat len >>> 29).toNat = len / 2 ^ 29 := by
    simp [hl, Nat.shiftRight_eq_div_pow]
  simp only [countBits, UInt32.lt_iff_toNat_lt, hlow]
  by_cases hcarry : (bits0.toNat + len * 8) % 2 ^ 32 < bits0.toNat
  · rw [if_pos hcarry, UInt32.toNat_add, UInt32.toNat_add, hhigh, UInt32.toNat_one]
    omega
  · rw [if_neg hcarry, UInt32.toNat_add, hhigh]
    omega

/-- The number of bytes that wait, as the code finds it in the bit count. -/
theorem Absorbed.waiting {ctx : Md5Context} {msg : Bytes} (h : Absorbed ctx msg) :
    (ctx.bits0 >>> 3 &&& 0x3f).toNat = msg.length % 64 := by
  have hcount := h.count
  have h0 := ctx.bits0.toNat_lt
  have hmask : (ctx.bits0 >>> 3 &&& 0x3f).toNat = ctx.bits0.toNat / 2 ^ 3 % 2 ^ 6 := by
    rw [UInt32.toNat_and, UInt32.toNat_shiftRight, Nat.shiftRight_eq_div_pow]
    exact Nat.and_two_pow_sub_one_eq_mod _ 6
  omega

theorem absorbed_init (storage : Storage.Block 64) : Absorbed (md5Init storage) [] where
  state := by rw [Chunks.absorb_short (by decide)]; rfl
  count := rfl
  size := storage.property
  waits := by rw [Chunks.absorb_short (by decide)]; rfl

/-- `MD5Update` where no bytes wait. -/
theorem md5Update_whole (o : ByteOrder) {ctx : Md5Context} {msg buf : Bytes}
    (h : Absorbed ctx msg) (hlen : buf.length < 2 ^ 32)
    (ht : msg.length % 64 = 0) :
    ∃ ctx', md5Update o ctx buf = some ctx' ∧ Absorbed ctx' (msg ++ buf) := by
  have hpos : 0 < 64 := by decide
  have hcount := countBits_spec h.count hlen
  have hsize := h.size
  rw [← List.length_append] at hcount
  have hrest := Chunks.length_rest (f := plainBlock) hpos md5Start msg
  have hnil : (Chunks.absorb 64 plainBlock md5Start msg).2 = [] :=
    List.length_eq_zero_iff.mp (by omega)
  obtain ⟨mem, hrun, hmem, htail⟩ := md5Chunks_spec o { ctx with
    bits0 := (countBits ctx.bits0 ctx.bits1 (UInt32.ofNat buf.length)).1
    bits1 := (countBits ctx.bits0 ctx.bits1 (UInt32.ofNat buf.length)).2 } buf hsize
  have hupdate : md5Update o ctx buf = some ⟨(Chunks.absorb 64 plainBlock ctx.buf buf).1,
      (countBits ctx.bits0 ctx.bits1 (UInt32.ofNat buf.length)).1,
      (countBits ctx.bits0 ctx.bits1 (UInt32.ofNat buf.length)).2, mem⟩ := by
    rw [md5Update, h.waiting, if_neg (by omega)]
    exact hrun
  refine ⟨_, hupdate, ?_, hcount, hmem, ?_⟩
  · rw [Chunks.absorb_append hpos, hnil, List.nil_append, ← h.state]
  · have hmod : (msg ++ buf).length % 64 = buf.length % 64 := by
      rw [List.length_append]
      omega
    rw [Chunks.absorb_append hpos, hnil, List.nil_append, ← h.state, hmod]
    exact htail

/-- `MD5Update` where those that wait are still no block. -/
theorem md5Update_short (o : ByteOrder) {ctx : Md5Context} {msg buf : Bytes}
    (h : Absorbed ctx msg) (hlen : buf.length < 2 ^ 32)
    (ht : msg.length % 64 ≠ 0) (hshort : buf.length < 64 - msg.length % 64) :
    ∃ ctx', md5Update o ctx buf = some ctx' ∧ Absorbed ctx' (msg ++ buf) := by
  have hpos : 0 < 64 := by decide
  have hcount := countBits_spec h.count hlen
  have hsize := h.size
  rw [← List.length_append] at hcount
  have hrest := Chunks.length_rest (f := plainBlock) hpos md5Start msg
  have hfit : msg.length % 64 + buf.length ≤ ctx.inBytes.length := by omega
  obtain ⟨mem, hw, hmem, hstart⟩ := Storage.write_fits hfit
  rw [h.waits] at hstart
  -- there is still no block, so that the new bytes only wait with the others
  have hsum : ((Chunks.absorb 64 plainBlock md5Start msg).2 ++ buf).length < 64 := by
    rw [List.length_append]
    omega
  have hrun : md5Update o ctx buf = some ⟨ctx.buf,
      (countBits ctx.bits0 ctx.bits1 (UInt32.ofNat buf.length)).1,
      (countBits ctx.bits0 ctx.bits1 (UInt32.ofNat buf.length)).2, mem⟩ := by
    rw [md5Update, h.waiting, if_pos ht, if_pos hshort, hw]
    rfl
  refine ⟨_, hrun, ?_, hcount, hmem.trans hsize, ?_⟩
  · rw [Chunks.absorb_append hpos, Chunks.absorb_short hsum]
    exact h.state
  · have hmod : (msg ++ buf).length % 64 = msg.length % 64 + buf.length := by
      rw [List.length_append]
      omega
    rw [Chunks.absorb_append hpos, Chunks.absorb_short hsum, hmod]
    exact hstart

/-- `MD5Update` where they become one. -/
theorem md5Update_block (o : ByteOrder) {ctx : Md5Context} {msg buf : Bytes}
    (h : Absorbed ctx msg) (hlen : buf.length < 2 ^ 32)
    (ht : msg.length % 64 ≠ 0) (hshort : ¬ buf.length < 64 - msg.length % 64) :
    ∃ ctx', md5Update o ctx buf = some ctx' ∧ Absorbed ctx' (msg ++ buf) := by
  have hpos : 0 < 64 := by decide
  have hcount := countBits_spec h.count hlen
  have hsize := h.size
  rw [← List.length_append] at hcount
  have htake : (buf.take (64 - msg.length % 64)).length = 64 - msg.length % 64 := by
    rw [List.length_take]
    omega
  have hfit : msg.length % 64 + (buf.take (64 - msg.length % 64)).length ≤
      ctx.inBytes.length := by omega
  obtain ⟨mem, hw, hmem, hstart⟩ := Storage.write_fits hfit
  -- the bytes that waited and the first of the new ones are a block
  have hblock : mem = (Chunks.absorb 64 plainBlock md5Start msg).2 ++
      buf.take (64 - msg.length % 64) := by
    rw [← h.waits, ← hstart, List.take_of_length_le (by omega)]
  have hlength : mem.length = 64 := hmem.trans hsize
  -- and the block function has taken all that came before
  have habsorb : Chunks.absorb 64 plainBlock md5Start (msg ++ buf) =
      Chunks.absorb 64 plainBlock (plainBlock ctx.buf mem)
        (buf.drop (64 - msg.length % 64)) := by
    rw [Chunks.absorb_append hpos, ← Chunks.absorb_block hpos hlength, ← h.state, hblock,
      List.append_assoc, List.take_append_drop]
  obtain ⟨rest, hrun, hlast, htail⟩ := md5Chunks_spec o
    ⟨plainBlock ctx.buf mem, (countBits ctx.bits0 ctx.bits1 (UInt32.ofNat buf.length)).1,
      (countBits ctx.bits0 ctx.bits1 (UInt32.ofNat buf.length)).2, byteReverse o 16 mem⟩
    (buf.drop (64 - msg.length % 64)) (by rw [length_byteReverse o (by omega)]; exact hlength)
  have hupdate : md5Update o ctx buf = some ⟨(Chunks.absorb 64 plainBlock
      (plainBlock ctx.buf mem) (buf.drop (64 - msg.length % 64))).1,
      (countBits ctx.bits0 ctx.bits1 (UInt32.ofNat buf.length)).1,
      (countBits ctx.bits0 ctx.bits1 (UInt32.ofNat buf.length)).2, rest⟩ := by
    rw [md5Update, h.waiting, if_pos ht, if_neg hshort, hw, Option.bind_some]
    simp only [takeBlock_eq]
    exact hrun
  refine ⟨_, hupdate, ?_, hcount, hlast, ?_⟩
  · rw [habsorb]
  · have hmod : (msg ++ buf).length % 64 = (buf.drop (64 - msg.length % 64)).length % 64 := by
      rw [List.length_append, List.length_drop]
      omega
    rw [habsorb, hmod]
    exact htail

/-- `MD5Update` stays within its 64 bytes and has taken its argument behind what it had. -/
theorem md5Update_spec (o : ByteOrder) {ctx : Md5Context} {msg buf : Bytes}
    (h : Absorbed ctx msg) (hlen : buf.length < 2 ^ 32) :
    ∃ ctx', md5Update o ctx buf = some ctx' ∧ Absorbed ctx' (msg ++ buf) := by
  by_cases ht : msg.length % 64 = 0
  · exact md5Update_whole o h hlen ht
  · by_cases hshort : buf.length < 64 - msg.length % 64
    · exact md5Update_short o h hlen ht hshort
    · exact md5Update_block o h hlen ht hshort

/-! ## The end of a message -/

theorem byteReverse_append (o : ByteOrder) {longs : Nat} {a : Bytes} (h : a.length = 4 * longs)
    (more : Nat) (b : Bytes) :
    byteReverse o (longs + more) (a ++ b) = byteReverse o longs a ++ byteReverse o more b := by
  induction longs generalizing a with
  | zero =>
    have hnil : a = [] := List.length_eq_zero_iff.mp (by omega)
    rw [hnil, Nat.zero_add]
    rfl
  | succ longs ih =>
    have hdrop : (a ++ b).drop 4 = a.drop 4 ++ b := List.drop_append_of_le_length (by omega)
    rw [Nat.add_right_comm, byteReverse, byteReverse, load_append _ (by omega), hdrop,
      ih (by rw [List.length_drop]; omega), List.append_assoc]

/-- `MD5Final` pads up to the place of the bit count. -/
theorem md5Pad_spec (o : ByteOrder) {ctx : Md5Context} {msg : Bytes} (h : Absorbed ctx msg) :
    ∃ st mem, md5Pad o ctx.buf (msg.length % 64) ctx.inBytes = some (st, mem) ∧
      mem.length = 64 ∧
      Chunks.absorb 64 plainBlock md5Start (msg ++ padding msg.length) = (st, mem.take 56) := by
  have hpos : 0 < 64 := by decide
  have hsize := h.size
  have hrest := Chunks.length_rest (f := plainBlock) hpos md5Start msg
  have hfit₁ : msg.length % 64 + [(0x80 : UInt8)].length ≤ ctx.inBytes.length := by
    rw [List.length_singleton]
    omega
  obtain ⟨mem₁, hw₁, hmem₁, hstart₁⟩ := Storage.write_fits hfit₁
  rw [List.length_singleton, h.waits] at hstart₁
  by_cases hroom : 64 - 1 - msg.length % 64 < 8
  · -- the zeros do not leave room for the bit count
    have hfit₂ : msg.length % 64 + 1 +
        (List.replicate (64 - 1 - msg.length % 64) (0 : UInt8)).length ≤ mem₁.length := by
      rw [List.length_replicate]
      omega
    obtain ⟨mem₂, hw₂, hmem₂, hstart₂⟩ := Storage.write_fits hfit₂
    rw [hstart₁, List.length_replicate, List.take_of_length_le (by omega)] at hstart₂
    have hlength : mem₂.length = 64 := by omega
    have hsize₂ : (byteReverse o 16 mem₂).length = 64 := by
      rw [length_byteReverse o (by omega), hlength]
    have hfit₃ : 0 + (List.replicate 56 (0 : UInt8)).length ≤ (byteReverse o 16 mem₂).length := by
      rw [List.length_replicate]
      omega
    obtain ⟨mem₃, hw₃, hmem₃, hstart₃⟩ := Storage.write_fits hfit₃
    rw [List.length_replicate, List.take_zero, List.nil_append, Nat.zero_add] at hstart₃
    have hpad : (Chunks.absorb 64 plainBlock md5Start msg).2 ++ padding msg.length =
        mem₂ ++ List.replicate 56 0 := by
      have hzeros : (119 - msg.length % 64) % 64 = 64 - 1 - msg.length % 64 + 56 := by omega
      rw [padding, hzeros, ← List.replicate_append_replicate, hstart₂]
      simp
    refine ⟨plainBlock ctx.buf mem₂, mem₃, ?_, hmem₃.trans hsize₂, ?_⟩
    · simp only [md5Pad, hw₁, Option.bind_some, if_pos hroom, hw₂, takeBlock_eq, hw₃,
        Option.map_some]
    · rw [Chunks.absorb_append hpos, hpad, Chunks.absorb_block hpos hlength,
        Chunks.absorb_short (by rw [List.length_replicate]; omega), ← h.state, hstart₃]
  · have hfit₂ : msg.length % 64 + 1 +
        (List.replicate (64 - 1 - msg.length % 64 - 8) (0 : UInt8)).length ≤ mem₁.length := by
      rw [List.length_replicate]
      omega
    obtain ⟨mem₂, hw₂, hmem₂, hstart₂⟩ := Storage.write_fits hfit₂
    have hend : msg.length % 64 + 1 + (64 - 1 - msg.length % 64 - 8) = 56 := by omega
    rw [hstart₁, List.length_replicate, hend] at hstart₂
    have hpad : (Chunks.absorb 64 plainBlock md5Start msg).2 ++ padding msg.length =
        mem₂.take 56 := by
      have hzeros : (119 - msg.length % 64) % 64 = 64 - 1 - msg.length % 64 - 8 := by omega
      rw [padding, hzeros, hstart₂]
      simp
    refine ⟨ctx.buf, mem₂, ?_, by omega, ?_⟩
    · simp only [md5Pad, hw₁, Option.bind_some, if_neg hroom, hw₂, Option.map_some]
    · rw [Chunks.absorb_append hpos, hpad,
        Chunks.absorb_short (by rw [List.length_take]; omega), ← h.state]

/-- The bit count of the context is that of the message. -/
theorem Absorbed.bitCount_eq {ctx : Md5Context} {msg : Bytes} (h : Absorbed ctx msg) :
    bitCount msg.length =
      ByteOrder.little.store ctx.bits0 ++ ByteOrder.little.store ctx.bits1 := by
  have hcount := h.count
  have h0 := ctx.bits0.toNat_lt
  have h1 := ctx.bits1.toNat_lt
  have hlow : UInt32.ofNat (8 * msg.length) = ctx.bits0 := by
    apply UInt32.toNat_inj.mp
    rw [UInt32.toNat_ofNat']
    omega
  have hhigh : UInt32.ofNat (8 * msg.length / 2 ^ 32) = ctx.bits1 := by
    apply UInt32.toNat_inj.mp
    rw [UInt32.toNat_ofNat']
    omega
  rw [bitCount, hlow, hhigh]

/-- `MD5Final` stays within the 64 bytes and gives the digest of what the context has taken. -/
theorem md5Final_spec (o : ByteOrder) {ctx : Md5Context} {msg : Bytes} (h : Absorbed ctx msg) :
    md5Final o ctx = some (md5 msg) := by
  obtain ⟨st, mem, hpad, hmem, habsorb⟩ := md5Pad_spec o h
  have h56 : (mem.take 56).length = 4 * 14 := by
    rw [List.length_take]
    omega
  have hrev : byteReverse o 14 mem = byteReverse o 14 (mem.take 56) ++ mem.drop 56 := by
    have happend := byteReverse_append o h56 0 (mem.drop 56)
    rwa [List.take_append_drop] at happend
  have hrev56 : (byteReverse o 14 (mem.take 56)).length = 56 := by
    rw [length_byteReverse o (by omega), h56]
  -- the two words that are written stand as the reversed bit count would
  have hcount : byteReverse o 2 (bitCount msg.length) = o.store ctx.bits0 ++ o.store ctx.bits1 := by
    rw [h.bitCount_eq, byteReverse, load_store, List.drop_left' (length_store _ _), byteReverse,
      ← List.append_nil (ByteOrder.little.store ctx.bits1), load_store,
      List.drop_left' (length_store _ _)]
    simp [byteReverse]
  have hwords : in32 o (byteReverse o 14 (mem.take 56) ++
      (o.store ctx.bits0 ++ o.store ctx.bits1)) =
      in32 .little (mem.take 56 ++ bitCount msg.length) := by
    rw [← hcount, ← byteReverse_append o h56, in32_byteReverse]
  have hwrite₁ : Storage.write (byteReverse o 14 mem) 56 (o.store ctx.bits0) =
      some (byteReverse o 14 (mem.take 56) ++ o.store ctx.bits0 ++ mem.drop 60) := by
    have hdrop : (byteReverse o 14 (mem.take 56) ++ mem.drop 56).drop (56 + 4) = mem.drop 60 := by
      rw [List.drop_append, List.drop_of_length_le (by omega), List.nil_append, hrev56,
        List.drop_drop]
    rw [Storage.write, if_pos (by rw [length_byteReverse o (by omega), length_store]; omega), hrev,
      List.take_left' hrev56, length_store, hdrop]
  have hwrite₂ : Storage.write
      (byteReverse o 14 (mem.take 56) ++ o.store ctx.bits0 ++ mem.drop 60) 60
      (o.store ctx.bits1) =
      some (byteReverse o 14 (mem.take 56) ++ (o.store ctx.bits0 ++ o.store ctx.bits1)) := by
    have hfirst : (byteReverse o 14 (mem.take 56) ++ o.store ctx.bits0).length = 60 := by
      rw [List.length_append, hrev56, length_store]
    rw [Storage.write, if_pos (by simp [hrev56, hmem]), List.take_left' hfirst,
      List.drop_of_length_le (by simp [hrev56, hmem]), List.append_nil, List.append_assoc]
  have hblock : Chunks.absorb 64 plainBlock md5Start
      (msg ++ (padding msg.length ++ bitCount msg.length)) =
      (plainBlock st (mem.take 56 ++ bitCount msg.length), []) := by
    have hlength : (mem.take 56 ++ bitCount msg.length).length = 64 := by
      rw [List.length_append, h56, h.bitCount_eq, List.length_append, length_store, length_store]
    rw [← List.append_assoc, Chunks.absorb_append (by decide), habsorb,
      ← List.append_nil (mem.take 56 ++ bitCount msg.length),
      Chunks.absorb_block (by decide) hlength, Chunks.absorb_short (by decide)]
    rw [List.append_nil]
  rw [md5Final, h.waiting, hpad, Option.bind_some]
  simp only [hwrite₁, Option.bind_some, hwrite₂, Option.map_some, hwords, md5Transform_eq]
  rw [byteReverse_store, byteReverse_store, byteReverse_store,
    ← List.append_nil (o.store _), byteReverse_store, md5, hblock]
  rfl

/-- `MD5Init`, a `MD5Update` for each piece, and `MD5Final`. -/
def md5Run (o : ByteOrder) (storage : Storage.Block 64) (pieces : List Bytes) : Option Bytes :=
  (pieces.foldlM (md5Update o) (md5Init storage)).bind (md5Final o)

theorem absorbed_pieces (o : ByteOrder) {pieces : List Bytes}
    (hlen : ∀ p ∈ pieces, p.length < 2 ^ 32) {ctx : Md5Context} {msg : Bytes}
    (h : Absorbed ctx msg) :
    ∃ ctx', pieces.foldlM (md5Update o) ctx = some ctx' ∧
      Absorbed ctx' (msg ++ pieces.flatten) := by
  induction pieces generalizing ctx msg with
  | nil => exact ⟨ctx, rfl, by rwa [List.flatten_nil, List.append_nil]⟩
  | cons p pieces ih =>
    obtain ⟨ctx₁, hupdate, h₁⟩ := md5Update_spec o h (hlen p (List.mem_cons_self ..))
    obtain ⟨ctx₂, hfold, h₂⟩ := ih (fun q hq => hlen q (List.mem_cons_of_mem _ hq)) h₁
    refine ⟨ctx₂, ?_, by rwa [List.flatten_cons, ← List.append_assoc]⟩
    rw [List.foldlM_cons, hupdate]
    exact hfold

/-- Whatever pieces a message is given in, on a host of either byte order, no write leaves the
context and the result is the digest of the whole message. -/
theorem md5Run_eq (o : ByteOrder) (storage : Storage.Block 64) {pieces : List Bytes}
    (hlen : ∀ p ∈ pieces, p.length < 2 ^ 32) :
    md5Run o storage pieces = some (md5 pieces.flatten) := by
  obtain ⟨ctx, hfold, h⟩ := absorbed_pieces o hlen (absorbed_init storage)
  rw [md5Run, hfold]
  exact md5Final_spec o h

theorem md5Run_eq_sample :
    md5Run .big ⟨List.replicate 64 0xaa, List.length_replicate⟩
        [Bytes.lit "mess", [], Bytes.lit "age"] = some (md5 (Bytes.lit "message")) :=
  md5Run_eq .big _ (by decide)

@[simp]
theorem length_md5 (msg : Bytes) : (md5 msg).length = 16 := by
  simp [md5, Md5State.bytes]

end Fetchmail.Auth
