import Fetchmail.Lib.Bytes

/-!
# Base 64

`base64.c`, over C strings. `DECODE64` of the terminating zero is `BAD`, so a string that
ends within a group of four is refused.
-/

namespace Fetchmail.Auth

open Fetchmail.Lib

/-- `base64digits` -/
def base64digits : Bytes :=
  Bytes.lit "ABCDEFGHIJKLMNOPQRSTUVWXYZabcdefghijklmnopqrstuvwxyz0123456789+/"

/-- `base64digits[b]` -/
def encode64 (b : UInt8) : UInt8 := Bytes.charAt base64digits b.toNat

/-- `DECODE64(c)`; `none` is `BAD`. -/
def decode64 (c : UInt8) : Option UInt8 :=
  (base64digits.findIdx? (· = c)).map UInt8.ofNat

/-- `to64frombits` -/
def to64frombits : Bytes → Bytes
  | a :: b :: c :: rest =>
    encode64 (a >>> 2) :: encode64 (((a <<< 4) &&& (0x30 : UInt8)) ||| (b >>> 4)) ::
      encode64 (((b <<< 2) &&& (0x3c : UInt8)) ||| (c >>> 6)) :: encode64 (c &&& (0x3f : UInt8)) :: to64frombits rest
  | [a, b] =>
    [encode64 (a >>> 2), encode64 (((a <<< 4) &&& (0x30 : UInt8)) ||| (b >>> 4)),
      encode64 ((b <<< 2) &&& (0x3c : UInt8)), Bytes.equals]
  | [a] => [encode64 (a >>> 2), encode64 ((a <<< 4) &&& (0x30 : UInt8)), Bytes.equals, Bytes.equals]
  | [] => []

/-- A digit, or the padding that may stand in the last two places of a group. -/
def decodeOrPad (c : UInt8) : Option (Option UInt8) :=
  if c = Bytes.equals then some none else (decode64 c).map some

/-- The bytes of one group of four digits. -/
def decodeGroup (d₁ d₂ : UInt8) (d₃ d₄ : Option UInt8) : Bytes :=
  match d₃ with
  | none => [(d₁ <<< 2) ||| (d₂ >>> 4)]
  | some d₃ =>
    ((d₁ <<< 2) ||| (d₂ >>> 4)) :: (((d₂ <<< 4) &&& (0xf0 : UInt8)) ||| (d₃ >>> 2)) ::
      match d₄ with
      | none => []
      | some d₄ => [((d₃ <<< 6) &&& (0xc0 : UInt8)) ||| d₄]

/-- The loop of `from64tobits`. -/
def decodeGroups : Bytes → Option Bytes
  | c₁ :: c₂ :: c₃ :: c₄ :: rest => do
    let group := decodeGroup (← decode64 c₁) (← decode64 c₂) (← decodeOrPad c₃) (← decodeOrPad c₄)
    if rest.head?.all (· = Bytes.cr) ∨ c₄ = Bytes.equals then return group
    else return group ++ (← decodeGroups rest)
  | _ => none

/-- `from64tobits(out, in, maxlen)`; `none` is the result `-1`. -/
def from64tobits (s : Bytes) (maxlen : Nat) : Option Bytes :=
  let s := if s.take 2 = Bytes.lit "+ " then s.drop 2 else s
  if s.head? = some Bytes.cr then some []
  else (decodeGroups s).filter fun out => maxlen = 0 ∨ out.length ≤ maxlen

end Fetchmail.Auth
