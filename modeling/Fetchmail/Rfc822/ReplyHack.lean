import Fetchmail.Rfc822.Nxtaddr

/-!
# Qualifying the Addresses of a Header

`reply_hack` of `rfc822.c` puts `@host` behind the local addresses of a header, in a buffer
that it has made larger by a count of commas and blanks. It goes over the text once; what it
puts in lies before the place it is at, or ends there, so the text that is left to scan is
always the end of the header as it came.
-/

namespace Fetchmail.Rfc822

open Fetchmail.Lib

/-- `'@'` and `'!'` -/
def atSign : UInt8 := 64
def bang : UInt8 := 33
def semicolon : UInt8 := 59

/-- The headers that are rewritten. -/
def replyHeaders : List Bytes :=
  [Bytes.lit "From:", Bytes.lit "To:", Bytes.lit "Reply-To:", Bytes.lit "Return-Path:",
    Bytes.lit "Cc:", Bytes.lit "Bcc:", Bytes.lit "Resent-From:", Bytes.lit "Resent-To:",
    Bytes.lit "Resent-Cc:", Bytes.lit "Resent-Bcc:", Bytes.lit "Apparently-From:",
    Bytes.lit "Apparently-To:", Bytes.lit "Sender:", Bytes.lit "Resent-Sender:"]

def isReplyHeader (buf : Bytes) : Bool := replyHeaders.any fun name => Bytes.startsWithCI buf name

/-- `state` -/
inductive HackState where
  /-- before header colon -/
  | beforeColon
  /-- looking for addresses -/
  | seekAddress
  /-- in a string -/
  | inString
  /-- in a `<>`-enclosed address -/
  | inBrackets
  deriving DecidableEq, Repr

/-- The local variables, with the text before `from`. -/
structure HackVars where
  before : Bytes
  state : HackState
  parendepth : Int
  hasBareNamePart : Bool
  hasHostPart : Bool
  lastNws : UInt8
  /-- `parens_from`, from the start of the buffer -/
  parensFrom : Option Nat
  /-- how often something was put in -/
  insertions : Nat
  deriving DecidableEq, Repr

section

variable (host : Bytes) (capacity : Nat)

/-- Move the text from a place on up by one more than the length of the host, and put in `@` and
the host; nothing if a byte would be written outside of the buffer. `rest` is the text from
`from` on. -/
def putHost (place : Nat) (rest : Bytes) (v : HackVars) : Option HackVars :=
  if v.before.length + rest.length + host.length + 1 < capacity then
    some { v with
      before := v.before.take place ++ atSign :: host ++ v.before.drop place
      hasHostPart := true
      insertions := v.insertions + 1 }
  else none

/-- Walk back over blanks and commas at the end of a text; nothing if that leaves the buffer. -/
def walkBack (text : Bytes) : Option Nat :=
  match text.reverse.dropWhile fun b => Bytes.isspace b || b = comma with
  | [] => none
  | b :: s => some (b :: s).length

/-- The text that ends in the address: up to the comment behind it, if there is one. -/
def addressText (v : HackVars) : Bytes :=
  match v.parensFrom with
  | some place => v.before.take (place + 1)
  | none => v.before

/-- What `case 1` does with a character, once it is noted. -/
def seekCase (b : UInt8) (s : Bytes) (v : HackVars) : Option HackVars :=
  if b = langle then some { v with state := .inBrackets }
  else if b = atSign ∨ b = bang then some { v with hasHostPart := true }
  else if b = dquote then some { v with state := .inString }
  -- a last non-blank `;` ends a group
  else if (b = comma ∨ headerEnd (b :: s)) ∧ v.hasBareNamePart ∧ ¬ v.hasHostPart ∧
      v.lastNws ≠ semicolon then
    (walkBack (addressText v)).bind fun place => putHost host capacity place (b :: s) v
  else if Bytes.charAt s 0 = lparen ∧ v.hasBareNamePart ∧ ¬ v.hasHostPart ∧
      v.lastNws ≠ semicolon ∧ v.lastNws ≠ rparen then
    some { v with parensFrom := some v.before.length }
  else if Bytes.isspace b then some v
  else some { v with hasBareNamePart := true }

/-- `last_nws` -/
def noteNws (b : UInt8) (v : HackVars) : HackVars :=
  if Bytes.isspace b then v else { v with lastNws := b }

/-- `case 1`: we've seen the colon, we're looking for addresses -/
def seekStep (b : UInt8) (s : Bytes) (v : HackVars) : Option HackVars :=
  seekCase host capacity b s (noteNws b v)

/-- `case 2`: we're in a string -/
def stringStep (b : UInt8) (v : HackVars) : HackVars :=
  if b = dquote then
    let bscount := (v.before.reverse.takeWhile (· = backslash)).length
    if bscount % 2 = 0 then { v with state := .seekAddress } else v
  else v

/-- `case 3`: we're in a `<>`-enclosed address -/
def bracketsStep (b : UInt8) (s : Bytes) (v : HackVars) : Option HackVars :=
  if b = atSign ∨ b = bang then some { v with hasHostPart := true }
  else if b = rangle ∧ v.before ≠ [] ∧ v.before.getLast? ≠ some langle then
    let v := { v with state := .seekAddress }
    if v.hasHostPart then some v else putHost host capacity v.before.length (b :: s) v
  else some v

/-- The parentheses are counted outside of strings. -/
def countParens (b : UInt8) (v : HackVars) : HackVars :=
  if v.state = .inString then v
  else if b = lparen then { v with parendepth := v.parendepth + 1 }
  else if b = rparen then { v with parendepth := v.parendepth - 1 }
  else v

/-- The `switch`. -/
def hackSwitch (b : UInt8) (s : Bytes) (v : HackVars) : Option HackVars :=
  match v.state with
  | .beforeColon => some (if b = colon then { v with state := .seekAddress } else v)
  | .seekAddress => seekStep host capacity b s v
  | .inString => some (stringStep b v)
  | .inBrackets => bracketsStep host capacity b s v

/-- If we passed a comma, reset everything. -/
def passComma (v : HackVars) : HackVars :=
  if v.before.getLast? = some comma ∧ v.parendepth = 0 then
    { v with hasHostPart := false, hasBareNamePart := false, parensFrom := none }
  else v

/-- The body of the loop, and `from++`. -/
def hackStep (b : UInt8) (s : Bytes) (v : HackVars) : Option HackVars :=
  let v := countParens b v
  let switched :=
    if v.parendepth = 0 ∧ v.hasHostPart = false then hackSwitch host capacity b s v else some v
  switched.map fun v =>
    let v := passComma v
    { v with before := v.before ++ [b] }

/-- The loop, from `from` on. -/
def hackLoop : Bytes → HackVars → Option HackVars
  | [], v => some v
  | b :: s, v => (hackStep host capacity b s v).bind (hackLoop s)

end

/-- `addresscount` -/
def addresscount (buf : Bytes) : Nat := 1 + buf.countP fun b => b = comma || Bytes.isspace b

/-- The size of the buffer after `xrealloc`. -/
def hackCapacity (buf host : Bytes) : Nat :=
  buf.length + addresscount buf * (host.length + 1) + 1

/-- Before the loop. -/
def hackStart : HackVars where
  before := []
  state := .beforeColon
  parendepth := 0
  hasBareNamePart := false
  hasHostPart := false
  lastNws := Bytes.nul
  parensFrom := none
  insertions := 0

/-- What `reply_hack` leaves. -/
structure Hacked where
  buf : Bytes
  /-- `*length`, if it is set -/
  length : Option Nat
  insertions : Nat
  deriving DecidableEq, Repr

/-- `reply_hack`; nothing if it writes outside of its buffer, or leaves it when it walks back. -/
def replyHack (buf host : Bytes) : Option Hacked :=
  if isReplyHeader buf then
    (hackLoop host (hackCapacity buf host) buf hackStart).map fun v =>
      ⟨v.before, some v.before.length, v.insertions⟩
  else some ⟨buf, none, 0⟩

end Fetchmail.Rfc822
