import Fetchmail.Auth.Base64Bounds
import Fetchmail.Lib.Storage

/-!
# Base 64 in Place

`EncBase64` and `DecBase64` of `rpa.c`, which overwrite the bytes that they are given: the encoder
from the far end of its buffer, the decoder from the near one. A read or a write outside of the
buffer has no result. What is traced is left out.
-/

namespace Fetchmail.Auth.Rpa

open Fetchmail.Lib

/-! ## The encoder -/

/-- The four characters that one round writes. -/
def encGroup (c₁ c₂ c₃ : UInt8) (two three : Bool) : Bytes :=
  [encode64 (c₁ / 4), encode64 ((c₁ &&& 3) * 16 + c₂ / 16),
    if two then encode64 ((c₂ &&& 0x0f) * 4 + c₃ / 64) else Bytes.equals,
    if three then encode64 (c₃ &&& 0x3f) else Bytes.equals]

/-- The loop of `EncBase64` for `i = 3 * q` and `outp = 4 * q`, with `q` one below the first
argument. -/
def encLoop (len : Nat) : Nat → Bytes → Option Bytes
  | 0, mem => some mem
  | q + 1, mem =>
    (mem[3 * q]?).bind fun c₁ =>
    (if 3 * q + 1 < len then mem[3 * q + 1]? else some 0).bind fun c₂ =>
    (if 3 * q + 2 < len then mem[3 * q + 2]? else some 0).bind fun c₃ =>
    (Storage.write mem (4 * q)
      (encGroup c₁ c₂ c₃ (decide (3 * q + 1 < len)) (decide (3 * q + 2 < len)))).bind fun mem =>
    encLoop len q mem

/-- `EncBase64` -/
def encBase64 (mem : Bytes) (len : Nat) : Option Bytes :=
  (Storage.write mem ((len - 1) / 3 * 4 + 4) [Bytes.nul]).bind fun mem =>
    encLoop len ((len - 1) / 3 + 1) mem

/-! ## The decoder -/

/-- `newx` -/
def newx (ch : UInt8) : Option Nat :=
  if 65 ≤ ch ∧ ch ≤ 90 then some (ch.toNat - 65)
  else if 97 ≤ ch ∧ ch ≤ 122 then some (ch.toNat - 97 + 26)
  else if 48 ≤ ch ∧ ch ≤ 57 then some (ch.toNat - 48 + 52)
  else if ch = 43 then some 62
  else if ch = 47 then some 63
  else none

/-- The characters that are passed over. -/
def passedOver (ch : UInt8) : Bool :=
  ch = Bytes.equals || ch = Bytes.space || ch = Bytes.lf || ch = Bytes.cr

/-- The loop of `DecBase64`; `outp` is `cnt` bytes behind the start. The results are what is
returned and the buffer. -/
def decLoop : (fuel : Nat) → (mem : Bytes) → (inp cnt part bits : Nat) → Option (Nat × Bytes)
  | 0, _, _, _, _, _ => none
  | fuel + 1, mem, inp, cnt, part, bits =>
    (mem[inp]?).bind fun ch =>
      if ch = Bytes.nul then some (cnt, mem)
      else if passedOver ch = true then decLoop fuel mem (inp + 1) cnt part bits
      else
        match newx ch with
        | none => some (0, mem)
        | some x =>
          let part := (part &&& 0x3f) * 64 + x
          if 8 ≤ bits + 6 then
            (Storage.write mem cnt [UInt8.ofNat (part >>> (bits + 6 - 8))]).bind fun mem =>
              decLoop fuel mem (inp + 1) (cnt + 1) part (bits + 6 - 8)
          else decLoop fuel mem (inp + 1) cnt part (bits + 6)

/-- `DecBase64` -/
def decBase64 (mem : Bytes) : Option (Nat × Bytes) := decLoop mem.length mem 0 0 0 0

/-! ## Groups -/

/-- Whole groups are encoded by themselves. -/
theorem to64frombits_append (q : Nat) {x : Bytes} (hx : x.length = 3 * q) (y : Bytes) :
    to64frombits (x ++ y) = to64frombits x ++ to64frombits y := by
  induction q generalizing x with
  | zero =>
    obtain rfl := List.length_eq_zero_iff.mp hx
    rfl
  | succ q ih =>
    match x, hx with
    | a :: b :: c :: x, hx =>
      have hx' : x.length = 3 * q := by
        simp only [List.length_cons] at hx
        omega
      simp only [List.cons_append, to64frombits, ih hx']

/-! ### The same digits -/

theorem digit_bytes (a : UInt8) : a / (4 : UInt8) = a >>> (2 : UInt8) ∧
    (a <<< (4 : UInt8)) &&& (0x30 : UInt8) = (a &&& (3 : UInt8)) * (16 : UInt8) ∧
    a >>> (4 : UInt8) = a / (16 : UInt8) ∧
    (a <<< (2 : UInt8)) &&& (0x3c : UInt8) = (a &&& (0x0f : UInt8)) * (4 : UInt8) ∧
    a >>> (6 : UInt8) = a / (64 : UInt8) := by
  revert a
  exact Bytes.forall_of_lt (by decide +kernel)

theorem div_four (a : UInt8) : a / (4 : UInt8) = a >>> (2 : UInt8) := (digit_bytes a).1

theorem second_digit (a b : UInt8) :
    (a &&& (3 : UInt8)) * (16 : UInt8) + b / (16 : UInt8) =
      ((a <<< (4 : UInt8)) &&& (0x30 : UInt8)) ||| (b >>> (4 : UInt8)) := by
  obtain ⟨-, hhigh, -, -, -⟩ := digit_bytes a
  obtain ⟨-, -, hlow, -, -⟩ := digit_bytes b
  have ha : ((a &&& (3 : UInt8)) * (16 : UInt8)).toNat = 2 ^ 4 * (a.toNat % 4) := by
    rw [UInt8.toNat_mul, UInt8.toNat_and, show (3 : UInt8).toNat = 2 ^ 2 - 1 from rfl,
      Nat.and_two_pow_sub_one_eq_mod]
    simp only [UInt8.reduceToNat]
    omega
  have hb : (b / (16 : UInt8)).toNat = b.toNat / 16 := UInt8.toNat_div b 16
  have hlt := b.toNat_lt
  rw [hhigh, hlow]
  exact Bytes.add_eq_or ha (by omega) (by omega)

theorem third_digit (b c : UInt8) :
    (b &&& (0x0f : UInt8)) * (4 : UInt8) + c / (64 : UInt8) =
      ((b <<< (2 : UInt8)) &&& (0x3c : UInt8)) ||| (c >>> (6 : UInt8)) := by
  obtain ⟨-, -, -, hhigh, -⟩ := digit_bytes b
  obtain ⟨-, -, -, -, hlow⟩ := digit_bytes c
  have hb : ((b &&& (0x0f : UInt8)) * (4 : UInt8)).toNat = 2 ^ 2 * (b.toNat % 16) := by
    rw [UInt8.toNat_mul, UInt8.toNat_and, show (0x0f : UInt8).toNat = 2 ^ 4 - 1 from rfl,
      Nat.and_two_pow_sub_one_eq_mod]
    simp only [UInt8.reduceToNat]
    omega
  have hc : (c / (64 : UInt8)).toNat = c.toNat / 64 := UInt8.toNat_div c 64
  have hlt := c.toNat_lt
  rw [hhigh, hlow]
  exact Bytes.add_eq_or hb (by omega) (by omega)

/-- A round writes what `to64frombits` makes of its bytes. -/
theorem encGroup_three (a b c : UInt8) : encGroup a b c true true = to64frombits [a, b, c] := by
  rw [encGroup, div_four, second_digit, third_digit]
  rfl

theorem encGroup_two (a b : UInt8) : encGroup a b 0 true false = to64frombits [a, b] := by
  have hthird := third_digit b 0
  rw [UInt8.zero_shiftRight, UInt8.or_zero] at hthird
  rw [encGroup, div_four, second_digit, hthird]
  rfl

theorem encGroup_one (a : UInt8) : encGroup a 0 0 false false = to64frombits [a] := by
  have hsecond := second_digit a 0
  rw [UInt8.zero_shiftRight, UInt8.or_zero] at hsecond
  rw [encGroup, div_four, hsecond]
  rfl

/-! ## Encoding -/

variable {x mem : Bytes} {q : Nat}

/-- One round, where the bytes of its group have not been overwritten. -/
theorem encLoop_succ (hq : 3 * q < x.length) (hmem : x.take (3 * q + 3) <+: mem)
    (hroom : 4 * q + 4 ≤ mem.length) :
    encLoop x.length (q + 1) mem = encLoop x.length q
      (mem.take (4 * q) ++ to64frombits ((x.drop (3 * q)).take 3) ++ mem.drop (4 * q + 4)) := by
  -- the round writes from `4 * q` on, its group is read from `3 * q` on
  have hread : ∀ i < 3, 3 * q + i < x.length → mem[3 * q + i]? = (x.drop (3 * q))[i]? := by
    intro i hi hlt
    obtain ⟨rest, rfl⟩ := hmem
    rw [List.getElem?_append_left (by rw [List.length_take]; omega), List.getElem?_take,
      if_pos (by omega), List.getElem?_drop]
  have hwrite : ∀ group : Bytes, group.length = 4 → Storage.write mem (4 * q) group =
      some (mem.take (4 * q) ++ group ++ mem.drop (4 * q + 4)) := by
    intro group hgroup
    rw [Storage.write, hgroup, if_pos hroom]
  have hdrop : (x.drop (3 * q)).length = x.length - 3 * q := List.length_drop
  have hread₀ := hread 0 (by omega) hq
  rw [encLoop]
  -- only the last group can have less than three bytes
  rcases hgroup : x.drop (3 * q) with _ | ⟨a, _ | ⟨b, _ | ⟨c, rest⟩⟩⟩ <;> rw [hgroup] at hread₀
  · rw [hgroup, List.length_nil] at hdrop
    omega
  · rw [hgroup, List.length_singleton] at hdrop
    rw [Nat.add_zero, List.getElem?_cons_zero] at hread₀
    rw [hread₀, Option.bind_some, if_neg (by omega), Option.bind_some, if_neg (by omega),
      Option.bind_some, decide_eq_false (by omega), decide_eq_false (by omega), encGroup_one,
      hwrite _ rfl]
    rfl
  · have hread₁ := hread 1 (by omega) (by rw [hgroup] at hdrop; simp at hdrop; omega)
    rw [hgroup] at hdrop hread₁
    simp only [List.length_cons, List.length_nil] at hdrop
    rw [Nat.add_zero, List.getElem?_cons_zero] at hread₀
    rw [List.getElem?_cons_succ, List.getElem?_cons_zero] at hread₁
    rw [hread₀, Option.bind_some, if_pos (by omega), hread₁, Option.bind_some, if_neg (by omega),
      Option.bind_some, decide_eq_true (by omega), decide_eq_false (by omega), encGroup_two,
      hwrite _ rfl]
    rfl
  · rw [hgroup] at hdrop hread
    simp only [List.length_cons] at hdrop
    have hread₁ := hread 1 (by omega) (by omega)
    have hread₂ := hread 2 (by omega) (by omega)
    rw [Nat.add_zero, List.getElem?_cons_zero] at hread₀
    simp only [List.getElem?_cons_succ, List.getElem?_cons_zero] at hread₁ hread₂
    rw [hread₀, Option.bind_some, if_pos (by omega), hread₁, Option.bind_some, if_pos (by omega),
      hread₂, Option.bind_some, decide_eq_true (by omega), decide_eq_true (by omega),
      encGroup_three, hwrite _ rfl]
    rfl

/-- The rounds from the far end on: what is written does not reach the bytes of the groups before. -/
theorem encLoop_eq (hq : 3 * q ≤ x.length + 2) (hmem : x.take (3 * q) <+: mem)
    (hroom : 4 * q ≤ mem.length) :
    encLoop x.length q mem = some (to64frombits (x.take (3 * q)) ++ mem.drop (4 * q)) := by
  induction q generalizing mem with
  | zero => rfl
  | succ q ih =>
    rw [encLoop_succ (by omega) hmem hroom]
    have htake : x.take (3 * (q + 1)) = x.take (3 * q) ++ (x.drop (3 * q)).take 3 := by
      rw [show 3 * (q + 1) = 3 * q + 3 by omega, List.take_add]
    have hgroups : (x.take (3 * q)).length = 3 * q := List.length_take_of_le (by omega)
    have hlen : (mem.take (4 * q)).length = 4 * q := List.length_take_of_le (by omega)
    have hbefore : x.take (3 * q) <+: mem.take (4 * q) := by
      have hsub : x.take (3 * q) <+: mem := by
        rw [htake] at hmem
        exact (List.prefix_append _ _).trans hmem
      exact List.prefix_take_iff.mpr ⟨hsub, by omega⟩
    rw [ih (by omega) (by rw [List.append_assoc]; exact hbefore.trans (List.prefix_append _ _))
      (by rw [List.length_append, List.length_append]; omega), htake, to64frombits_append q hgroups,
      List.append_assoc, List.drop_left' hlen, List.append_assoc]
    rfl

/-- `EncBase64` leaves the text of `to64frombits`. -/
theorem encBase64_eq (hx : x ≠ []) (rest : Bytes)
    (hroom : (x.length - 1) / 3 * 4 + 5 ≤ (x ++ rest).length) :
    encBase64 (x ++ rest) x.length = some (to64frombits x ++
      Bytes.nul :: (x ++ rest).drop ((x.length - 1) / 3 * 4 + 5)) := by
  have hpos := List.length_pos_iff.mpr hx
  generalize hq : (x.length - 1) / 3 = q at hroom ⊢
  have hlen : ((x ++ rest).take (q * 4 + 4)).length = 4 * (q + 1) :=
    (List.length_take_of_le (by omega)).trans (by omega)
  have hall : x.take (3 * (q + 1)) = x := List.take_of_length_le (by omega)
  -- the terminator is written first, but behind the bytes
  have hbytes : x.take (3 * (q + 1)) <+: (x ++ rest).take (q * 4 + 4) := by
    rw [hall]
    exact List.prefix_take_iff.mpr ⟨List.prefix_append x rest, by omega⟩
  rw [encBase64, hq, Storage.write, if_pos (by rw [List.length_singleton]; omega), Option.bind_some,
    List.append_assoc, encLoop_eq (by omega) (hbytes.trans (List.prefix_append _ _))
      (by rw [List.length_append]; omega), hall, List.drop_left' hlen]
  rfl

/-! ## Decoding -/

/-- What `DecBase64` makes of a text, without the buffer. -/
def decBytes (part bits : Nat) : Bytes → Option Bytes
  | [] => some []
  | ch :: s =>
    if passedOver ch = true then decBytes part bits s
    else
      match newx ch with
      | none => none
      | some x =>
        let part := (part &&& 0x3f) * 64 + x
        if 8 ≤ bits + 6 then
          (decBytes part (bits + 6 - 8) s).map (UInt8.ofNat (part >>> (bits + 6 - 8)) :: ·)
        else decBytes part (bits + 6) s

/-- A byte that is written behind the output, which has not overtaken the input. -/
theorem write_behind {out : Bytes} {inp : Nat} (b : UInt8) (hout : out <+: mem)
    (hbehind : out.length ≤ inp) (hlen : inp < mem.length) :
    (mem.take out.length ++ [b] ++ mem.drop (out.length + [b].length)).drop (inp + 1) =
        mem.drop (inp + 1) ∧
      out ++ [b] <+: mem.take out.length ++ [b] ++ mem.drop (out.length + [b].length) := by
  have hlenOut : (mem.take out.length ++ [b]).length = out.length + 1 := by
    rw [List.length_append, List.length_take_of_le (by omega), List.length_singleton]
  constructor
  · rw [List.drop_append, hlenOut, List.drop_of_length_le (by rw [hlenOut]; omega),
      List.nil_append, List.drop_drop, List.length_singleton,
      show out.length + 1 + (inp + 1 - (out.length + 1)) = inp + 1 by omega]
  · rw [List.prefix_iff_eq_take.mp hout]
    simp only [List.length_take, Nat.min_eq_left (show out.length ≤ mem.length by omega)]
    exact List.prefix_append _ _

/-- What is written never reaches what is still to be read. -/
theorem decLoop_eq {s out : Bytes} (hs : Bytes.nul ∉ s) {inp part bits : Nat} (fuel : Nat)
    (hfuel : s.length < fuel) (hunread : s ++ [Bytes.nul] <+: mem.drop inp)
    (hbehind : out.length ≤ inp) (hout : out <+: mem) {data : Bytes}
    (hdata : decBytes part bits s = some data) :
    ∃ mem', decLoop fuel mem inp out.length part bits = some (out.length + data.length, mem') ∧
      out ++ data <+: mem' := by
  induction s generalizing mem out inp part bits data fuel with
  | nil =>
    obtain ⟨fuel, rfl⟩ := Nat.exists_eq_succ_of_ne_zero (Nat.ne_of_gt hfuel)
    obtain rfl := Option.some.inj hdata
    obtain ⟨tail, htail⟩ := hunread
    have hch : mem[inp]? = some Bytes.nul := by
      rw [← Nat.add_zero inp, ← List.getElem?_drop, ← htail]
      rfl
    refine ⟨mem, by rw [decLoop, hch]; rfl, ?_⟩
    rwa [List.append_nil]
  | cons ch s ih =>
    obtain ⟨fuel, rfl⟩ := Nat.exists_eq_succ_of_ne_zero (show fuel ≠ 0 by omega)
    rw [List.mem_cons, not_or] at hs
    rw [List.length_cons] at hfuel
    obtain ⟨tail, htail⟩ := hunread
    have hch : mem[inp]? = some ch := by
      rw [← Nat.add_zero inp, ← List.getElem?_drop, ← htail]
      rfl
    have hnext : mem.drop (inp + 1) = s ++ [Bytes.nul] ++ tail := by
      have hdrop := congrArg (List.drop 1) htail
      rw [List.drop_drop] at hdrop
      exact hdrop.symm
    have hlen : inp < mem.length := (List.getElem?_eq_some_iff.mp hch).1
    rw [decLoop, hch, Option.bind_some, if_neg (Ne.symm hs.1)]
    rw [decBytes] at hdata
    split at hdata
    · next hskip =>
      rw [if_pos hskip]
      exact ih hs.2 fuel (by omega) ⟨tail, hnext.symm⟩ (by omega) hout hdata
    next hskip =>
    rw [if_neg hskip]
    cases hx : newx ch with
    | none =>
      rw [hx] at hdata
      cases hdata
    | some v =>
      rw [hx] at hdata
      dsimp only at hdata ⊢
      -- a byte is complete, or there are bits to come
      split at hdata
      · next hbits =>
        obtain ⟨data, hdata', rfl⟩ := Option.map_eq_some_iff.mp hdata
        generalize UInt8.ofNat (((part &&& 0x3f) * 64 + v) >>> (bits + 6 - 8)) = b
        have hfits : out.length + [b].length ≤ mem.length := by
          rw [List.length_singleton]
          omega
        obtain ⟨hunread', hout'⟩ := write_behind b hout hbehind hlen
        rw [hnext] at hunread'
        rw [if_pos hbits, Storage.write, if_pos hfits, Option.bind_some]
        obtain ⟨mem', hrun, hmem'⟩ := @ih _ (out ++ [b]) hs.2 (inp + 1) _ _ fuel (by omega)
          ⟨tail, hunread'.symm⟩ (by simp; omega) hout' _ hdata'
        rw [List.length_append, List.length_singleton] at hrun
        refine ⟨mem', ?_, by simpa using hmem'⟩
        have hcount : out.length + 1 + data.length = out.length + (data.length + 1) := by omega
        rw [hcount] at hrun
        rw [List.length_cons]
        exact hrun
      · next hbits =>
        rw [if_neg hbits]
        exact ih hs.2 fuel (by omega) ⟨tail, hnext.symm⟩ (by omega) hout hdata

/-! ### Four digits -/

/-- The value of a digit. -/
theorem newx_encode64 {v : UInt8} (h : v &&& 0x3f = v) :
    passedOver (encode64 v) = false ∧ newx (encode64 v) = some v.toNat ∧ v.toNat < 64 := by
  have hall : ∀ n < 64, passedOver (encode64 (UInt8.ofNat n)) = false ∧
      newx (encode64 (UInt8.ofNat n)) = some n := by decide +kernel
  have hlt : v.toNat < 64 := by
    rw [← h, UInt8.toNat_and]
    exact Nat.lt_succ_of_le Nat.and_le_right
  have hv := hall v.toNat hlt
  rw [UInt8.ofNat_toNat] at hv
  exact ⟨hv.1, hv.2, hlt⟩

theorem and_63 (part v : Nat) (hv : v < 64) : (part * 64 + v) &&& 0x3f = v := by
  rw [show (0x3f : Nat) = 2 ^ 6 - 1 from rfl, Nat.and_two_pow_sub_one_eq_mod]
  omega

/-- The first two digits give a byte, with four bits left. -/
theorem decBytes_two {d₁ d₂ : UInt8} (h₁ : d₁ &&& 0x3f = d₁) (h₂ : d₂ &&& 0x3f = d₂) (part : Nat)
    (s : Bytes) : decBytes part 0 (encode64 d₁ :: encode64 d₂ :: s) =
      (decBytes (d₁.toNat * 64 + d₂.toNat) 4 s).map
        (UInt8.ofNat ((d₁.toNat * 64 + d₂.toNat) >>> 4) :: ·) := by
  obtain ⟨hskip₁, hnew₁, hlt₁⟩ := newx_encode64 h₁
  obtain ⟨hskip₂, hnew₂, -⟩ := newx_encode64 h₂
  rw [decBytes, hskip₁, if_neg Bool.false_ne_true, hnew₁]
  dsimp only
  rw [if_neg (by omega), decBytes, hskip₂, if_neg Bool.false_ne_true, hnew₂]
  dsimp only
  rw [if_pos (by omega), and_63 _ _ hlt₁]

/-- Another digit, with bits left from the one before. -/
theorem decBytes_next {d₁ d₂ : UInt8} (h₂ : d₂ &&& 0x3f = d₂) (h₁ : d₁.toNat < 64) (part : Nat)
    {bits : Nat} (hbits : 2 ≤ bits) (s : Bytes) :
    decBytes (part * 64 + d₁.toNat) bits (encode64 d₂ :: s) =
      (decBytes (d₁.toNat * 64 + d₂.toNat) (bits - 2) s).map
        (UInt8.ofNat ((d₁.toNat * 64 + d₂.toNat) >>> (bits - 2)) :: ·) := by
  obtain ⟨hskip, hnew, -⟩ := newx_encode64 h₂
  rw [decBytes, hskip, if_neg Bool.false_ne_true, hnew]
  dsimp only
  rw [if_pos (by omega), and_63 _ _ h₁, show bits + 6 - 8 = bits - 2 by omega]

theorem decBytes_pad (part bits : Nat) (s : Bytes) :
    decBytes part bits (Bytes.equals :: s) = decBytes part bits s := by
  rw [decBytes, if_pos (by decide)]

/-! ### The digits as numbers -/

section

variable (a b c : UInt8)

theorem toNat_digit₁ : (a >>> 2).toNat = a.toNat / 4 := by
  rw [← div_four, UInt8.toNat_div]
  rfl

theorem toNat_digit₂ : (((a <<< 4) &&& (0x30 : UInt8)) ||| (b >>> 4)).toNat =
    a.toNat % 4 * 16 + b.toNat / 16 := by
  have hand : a.toNat &&& 3 = a.toNat % 4 := Nat.and_two_pow_sub_one_eq_mod a.toNat 2
  have hb := b.toNat_lt
  rw [← second_digit, UInt8.toNat_add, UInt8.toNat_mul, UInt8.toNat_and, UInt8.toNat_div]
  simp only [UInt8.reduceToNat, hand]
  omega

theorem toNat_digit₃ : (((b <<< 2) &&& (0x3c : UInt8)) ||| (c >>> 6)).toNat =
    b.toNat % 16 * 4 + c.toNat / 64 := by
  have hand : b.toNat &&& 15 = b.toNat % 16 := Nat.and_two_pow_sub_one_eq_mod b.toNat 4
  have hc := c.toNat_lt
  rw [← third_digit, UInt8.toNat_add, UInt8.toNat_mul, UInt8.toNat_and, UInt8.toNat_div]
  simp only [UInt8.reduceToNat, hand]
  omega

theorem toNat_digit₄ : (c &&& (0x3f : UInt8)).toNat = c.toNat % 64 := by
  rw [UInt8.toNat_and]
  exact Nat.and_two_pow_sub_one_eq_mod c.toNat 6

end

/-- A byte is what the number leaves modulo 256. -/
theorem ofNat_eq {n : Nat} {a : UInt8} (h : n % 256 = a.toNat) : UInt8.ofNat n = a := by
  apply UInt8.toNat_inj.mp
  rw [UInt8.toNat_ofNat']
  exact h

/-- **Decoding restores the bytes**, one case for each of the three lengths of the last group. -/
theorem decBytes_to64frombits (x : Bytes) (part : Nat) :
    decBytes part 0 (to64frombits x) = some x := by
  -- what two digits next to each other have of the byte between them
  have hfirst : ∀ a b : UInt8, UInt8.ofNat (((a >>> 2).toNat * 64 +
      (((a <<< 4) &&& (0x30 : UInt8)) ||| (b >>> 4)).toNat) >>> 4) = a := by
    intro a b
    have ha := a.toNat_lt
    have hb := b.toNat_lt
    rw [toNat_digit₁, toNat_digit₂, Nat.shiftRight_eq_div_pow]
    exact ofNat_eq (by omega)
  have hsecond : ∀ a b c : UInt8, UInt8.ofNat (((((a <<< 4) &&& (0x30 : UInt8)) |||
      (b >>> 4)).toNat * 64 + (((b <<< 2) &&& (0x3c : UInt8)) ||| (c >>> 6)).toNat) >>> (4 - 2)) =
        b := by
    intro a b c
    have hb := b.toNat_lt
    have hc := c.toNat_lt
    rw [toNat_digit₂, toNat_digit₃, Nat.shiftRight_eq_div_pow]
    exact ofNat_eq (by omega)
  induction x using to64frombits.induct generalizing part with
  | case1 a b c rest ih =>
    have hthird : UInt8.ofNat (((((b <<< 2) &&& (0x3c : UInt8)) ||| (c >>> 6)).toNat * 64 +
        (c &&& (0x3f : UInt8)).toNat) >>> (4 - 2 - 2)) = c := by
      have hc := c.toNat_lt
      rw [toNat_digit₃, toNat_digit₄, Nat.shiftRight_eq_div_pow]
      exact ofNat_eq (by omega)
    rw [to64frombits, decBytes_two (digit₁ a) (digit₂ a b), hfirst,
      decBytes_next (digit₃ b c) (newx_encode64 (digit₂ a b)).2.2 _ (by omega), hsecond,
      decBytes_next (digit₄ c) (newx_encode64 (digit₃ b c)).2.2 _ (by omega), hthird, ih]
    rfl
  -- where the group is short, the bits that are missing are zero and the sign `=` follows
  | case2 a b =>
    have hdigit := digit₃ b 0
    have hbyte := hsecond a b 0
    rw [UInt8.zero_shiftRight, UInt8.or_zero] at hdigit hbyte
    rw [to64frombits, decBytes_two (digit₁ a) (digit₂ a b), hfirst,
      decBytes_next hdigit (newx_encode64 (digit₂ a b)).2.2 _ (by omega), hbyte, decBytes_pad]
    rfl
  | case3 a =>
    have hdigit := digit₂ a 0
    have hbyte := hfirst a 0
    rw [UInt8.zero_shiftRight, UInt8.or_zero] at hdigit hbyte
    rw [to64frombits, decBytes_two (digit₁ a) hdigit, hbyte, decBytes_pad, decBytes_pad]
    rfl
  | case4 => rfl

/-- **The codec of `rpa.c` agrees with that of `base64.c`**: in a buffer with room enough,
`EncBase64` leaves the text of `to64frombits`, and `DecBase64` the bytes, and returns their
number. -/
theorem encBase64_decBase64 (x rest : Bytes) (hx : x ≠ [])
    (hroom : (x.length - 1) / 3 * 4 + 5 ≤ (x ++ rest).length) :
    ∃ mem mem', encBase64 (x ++ rest) x.length = some mem ∧
      to64frombits x ++ [Bytes.nul] <+: mem ∧ decBase64 mem = some (x.length, mem') ∧
      x <+: mem' := by
  have henc := encBase64_eq hx rest hroom
  generalize (x ++ rest).drop ((x.length - 1) / 3 * 4 + 5) = tail at henc
  have htext : to64frombits x ++ [Bytes.nul] <+: to64frombits x ++ Bytes.nul :: tail :=
    ⟨tail, by rw [List.append_assoc]; rfl⟩
  obtain ⟨mem', hdec, hmem'⟩ := @decLoop_eq (to64frombits x ++ Bytes.nul :: tail) _ []
    (nul_notMem_to64frombits x) 0 0 0 (to64frombits x ++ Bytes.nul :: tail).length
    (by rw [List.length_append, List.length_cons]; omega) htext (Nat.le_refl 0)
    List.nil_prefix x (decBytes_to64frombits x 0)
  rw [List.length_nil, Nat.zero_add] at hdec
  exact ⟨_, mem', henc, htext, hdec, hmem'⟩

/-- Four bytes in a buffer with room for nine. -/
theorem encBase64_decBase64_four :
    ∃ mem mem', encBase64 (Bytes.lit "abcd" ++ [1, 2, 3, 4, 5]) 4 = some mem ∧
      to64frombits (Bytes.lit "abcd") ++ [Bytes.nul] <+: mem ∧ decBase64 mem = some (4, mem') ∧
      Bytes.lit "abcd" <+: mem' :=
  encBase64_decBase64 (Bytes.lit "abcd") [1, 2, 3, 4, 5] (by decide) (by decide)

end Fetchmail.Auth.Rpa
