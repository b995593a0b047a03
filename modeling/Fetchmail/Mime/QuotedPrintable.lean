import Fetchmail.Lib.Bytes

/-!
# Decoding of Message Bodies

The part of `unmime.c` that runs over the lines of a message body: `qp_char`,
`DoOneQPLine` and `UnMimeBodyline`. Decoding is done in place, in a buffer that holds the
line as a C string; the functions here map the string to the string that replaces it. The
functions of the same file that treat the headers of body parts are parameters.
-/

namespace Fetchmail.Mime

open Fetchmail.Lib

/-- `unhex`; 16 for what is no hexadecimal digit -/
def unhex (c : UInt8) : UInt8 :=
  if 48 ≤ c ∧ c ≤ 57 then c - 48
  else if 65 ≤ c ∧ c ≤ 70 then c - 65 + 10
  else if 97 ≤ c ∧ c ≤ 102 then c - 97 + 10
  else 16

/-- `qp_char` -/
def qpChar (c1 c2 : UInt8) : Option UInt8 :=
  if 15 < unhex c1 ∨ 15 < unhex c2 then none else some (16 * unhex c1 + unhex c2)

/-- How far a soft line break goes on after its `=`; `none` when that is no line break. -/
def softBreak (s : Bytes) : Option Nat :=
  if Bytes.charAt s 0 = Bytes.nul then some 0
  else if Bytes.charAt s 0 = Bytes.cr then some (if Bytes.charAt s 1 = Bytes.lf then 2 else 1)
  else if Bytes.charAt s 0 = Bytes.lf then some 1
  else none

/-- The loop of `DoOneQPLine` over the string from `p_in` on, of which `skip` bytes are
already dealt with: the bytes put out, and whether there was a soft line break. -/
def qpLoop : (skip : Nat) → Bytes → Bytes × Bool
  | _, [] => ([], false)
  | skip + 1, _ :: s => qpLoop skip s
  | 0, b :: s =>
    if b ≠ Bytes.equals then
      let r := qpLoop 0 s
      (b :: r.1, r.2)
    else
      match softBreak s with
      | some n => ((qpLoop n s).1, true)
      | none =>
        match qpChar (Bytes.charAt s 0) (Bytes.charAt s 1) with
        | some c =>
          let r := qpLoop 2 s
          (c :: r.1, r.2)
        | none =>
          let r := qpLoop 0 s
          (Bytes.equals :: r.1, r.2)

/-- What decoding a line leaves: the string in place of it, how far `*bufp` is advanced, and
whether the line ends in a soft line break. -/
structure Decoded where
  text : Bytes
  advance : Nat
  soft : Bool
  deriving DecidableEq, Repr

/-- `DoOneQPLine` on the string `s` -/
def doOneQPLine (delimited issoftline : Bool) (s : Bytes) : Decoded :=
  -- a line that is a single encoded dot is dot-stuffed after decoding
  if delimited ∧ ¬ issoftline ∧ s.take 5 = Bytes.lit "=2E\r\n" then ⟨Bytes.lit "..\r\n", 5, false⟩
  else
    let skip := if delimited ∧ issoftline ∧ s.take 2 = Bytes.lit ".." then 1 else 0
    let r := qpLoop skip s
    ⟨r.1, r.1.length, r.2⟩

/-- `BodyState` -/
inductive BodyState where
  | data
  | hdr
  deriving DecidableEq, Repr

/-- The static variables that `MimeBodyType` sets from the headers of a message. -/
structure MimeState where
  bodyState : BodyState
  multipartDelimiter : Bytes
  currEncodingIsQP : Bool
  currTypeNeedsDecode : Bool
  deriving DecidableEq, Repr

/-- `UnMimeBodyline` on the string `s`, with the branch for the header lines of a body part
as a parameter. -/
def unMimeBodyline (bodyHeader : MimeState → Bytes → Decoded × MimeState)
    (delimited softline : Bool) (st : MimeState) (s : Bytes) : Decoded × MimeState :=
  match st.bodyState with
  | .hdr => bodyHeader st s
  | .data =>
    let d := st.multipartDelimiter
    let st :=
      if d ≠ [] ∧ s.take d.length = d then
        { st with bodyState := .hdr, currEncodingIsQP := false, currTypeNeedsDecode := false }
      else st
    if st.currEncodingIsQP ∧ st.currTypeNeedsDecode then (doOneQPLine delimited softline s, st)
    else (⟨s, s.length, false⟩, st)

end Fetchmail.Mime
