import Fetchmail.Lib.Storage
import Fetchmail.Mime.QuotedPrintable
import Fetchmail.Rfc822.NxtaddrBounds

/-!
# The Type of a Message Body

`MimeBodyType` of `unmime.c`, which looks for three headers in a block of headers, and sets from
them what `UnMimeBodyline` goes by. If it will decode the body, the header with the encoding is
patched in place. The block is not null; it is given without its zero byte, and what is left of it
with it.
-/

namespace Fetchmail.Mime

open Fetchmail.Lib

/-! ## The patch -/

/-- `ENC8BIT` -/
def enc8bit : Bytes := Bytes.lit "Content-Transfer-Encoding: 8bit"

/-- The loop of `SetEncoding8bit`; `none` if it reads behind the block. -/
def blankOut : Bytes → Option Bytes
  | [] => none
  | c :: s => if Bytes.space ≤ c then (blankOut s).map (Bytes.space :: ·) else some (c :: s)

/-- `SetEncoding8bit` -/
def setEncoding8bit (hdrs : Bytes) (ofs : Nat) : Option Bytes :=
  (Storage.write hdrs ofs enc8bit).bind fun hdrs =>
    (blankOut (hdrs.drop (ofs + enc8bit.length))).map (hdrs.take (ofs + enc8bit.length) ++ ·)

/-! ## The content type -/

def semicolon : UInt8 := 59

/-- The parameter that `GetBoundary` looks for, behind a semicolon and blanks. -/
def boundaryParam : Bytes → Option Bytes
  | [] => none
  | c :: s =>
    if c = semicolon ∧ Bytes.startsWithCI (s.dropWhile Bytes.isspace) (Bytes.lit "boundary") then
      some (s.dropWhile Bytes.isspace)
    else boundaryParam s

/-- `GetBoundary` -/
def getBoundary (cntType : Bytes) : Option Bytes :=
  (boundaryParam cntType).bind fun p1 =>
    let p1 := p1.drop 8
    let skipped := p1.takeWhile fun c => Bytes.isspace c || c = Bytes.equals
    let p1 := p1.drop skipped.length
    if Bytes.equals ∉ skipped then none
    else if p1.head? = some Rfc822.dquote then
      let p1 := p1.drop 1
      if Rfc822.dquote ∈ p1 then (some (p1.takeWhile (· ≠ Rfc822.dquote))).filter (· ≠ [])
      else none
    else (some (p1.takeWhile (· ≠ semicolon))).filter (· ≠ [])

/-- `CheckContentType` -/
def checkContentType : Option Bytes → Bool
  | none => false
  | some cntType =>
    let p := cntType.dropWhile Bytes.isspace
    Bytes.startsWithCI p (Bytes.lit "text/") || Bytes.startsWithCI p (Bytes.lit "message/rfc822")

/-- `strncasecmp(s, t, n) == 0` -/
def equalsUpTo (n : Nat) (s t : Bytes) : Bool :=
  Bytes.equalsCI ((s ++ [Bytes.nul]).take n) ((t ++ [Bytes.nul]).take n)

/-! ## The scan -/

/-- The headers that are looked for. -/
inductive Kind where
  | transferEncoding
  | contentType
  | mimeVersion
  deriving DecidableEq, Repr

def kind (nxtHdr : Bytes) : Option Kind :=
  if Bytes.startsWithCI nxtHdr (Bytes.lit "Content-Transfer-Encoding:") then some .transferEncoding
  else if Bytes.startsWithCI nxtHdr (Bytes.lit "Content-Type:") then some .contentType
  else if Bytes.startsWithCI nxtHdr (Bytes.lit "MIME-Version:") then some .mimeVersion
  else none

/-- What has been found. -/
structure Found where
  xferEnc : Option Bytes
  xferEncOfs : Option Nat
  cntType : Option Bytes
  mimeVer : Option Bytes
  hdrsFound : Nat
  deriving DecidableEq, Repr

/-- `strchr(NxtHdr, '\n') + 1` -/
def afterNewline : Bytes → Option Bytes
  | [] => none
  | c :: s => if c = Bytes.lf then some s else afterNewline s

/-- Blanks and tabs are skipped. -/
def skipBlanks (s : Bytes) : Bytes := s.dropWhile fun c => c = Bytes.space || c = Bytes.tab

section

variable (bufsiz : Nat)

/-- What is done with a header; `none` if `nxtaddr` reads behind the block. -/
def scanHeader (ofs : Nat) (nxtHdr : Bytes) (statics : Rfc822.AddrStatics) (f : Found) :
    Option (Found × Rfc822.AddrStatics) :=
  match kind nxtHdr with
  | some .transferEncoding =>
    let f := { f with xferEncOfs := some ofs }
    match Rfc822.nxtaddr bufsiz (some nxtHdr) statics with
    | (.address p, statics) =>
      some ({ f with xferEnc := some p, hdrsFound := f.hdrsFound + 1 }, statics)
    | (.null, statics) => some (f, statics)
    | (.overread, _) => none
  | some .contentType =>
    some ({ f with
      cntType := some (Rfc822.headerText (skipBlanks (nxtHdr.drop 13)))
      hdrsFound := f.hdrsFound + 1 }, statics)
  | some .mimeVersion =>
    match Rfc822.nxtaddr bufsiz (some nxtHdr) statics with
    | (.address p, statics) =>
      some ({ f with mimeVer := some p, hdrsFound := f.hdrsFound + 1 }, statics)
    | (.null, statics) => some (f, statics)
    | (.overread, _) => none
  | none => some (f, statics)

/-- The loop over the headers of a block of `size` bytes, from `NxtHdr` on; every round takes one
byte at least. -/
def scanLoop (size : Nat) : (fuel : Nat) → (nxtHdr : Bytes) → Rfc822.AddrStatics → Found →
    Option Found
  | 0, _, _, _ => none
  | fuel + 1, nxtHdr, statics, f =>
    (scanHeader bufsiz (size - nxtHdr.length) nxtHdr statics f).bind fun (f, statics) =>
      let nxtHdr :=
        if kind nxtHdr = some .contentType then skipBlanks (nxtHdr.drop 13) else nxtHdr
      match afterNewline nxtHdr with
      | none => some f
      | some nxtHdr =>
        if nxtHdr ≠ [] ∧ f.hdrsFound ≠ 3 then scanLoop size fuel nxtHdr statics f else some f

end

/-! ## The verdict -/

/-- `MSG_IS_7BIT` -/
def msgIs7bit : Nat := 0x01
/-- `MSG_IS_8BIT` -/
def msgIs8bit : Nat := 0x02
/-- `MSG_NEEDS_DECODE` -/
def msgNeedsDecode : Nat := 0x80
/-- `MAX_DELIM_LEN` -/
def maxDelimLen : Nat := 70

/-- The body type, the static variables, and whether `SetEncoding8bit` is called. -/
structure Verdict where
  bodyType : Nat
  state : MimeState
  set8bit : Bool
  deriving DecidableEq, Repr

/-- The boundary string of a multipart message, or of a message in the body. -/
def boundary (cntType : Option Bytes) : Option Bytes :=
  cntType.bind fun cntType =>
    if equalsUpTo 16 cntType (Bytes.lit "multipart/mixed") ||
        Bytes.startsWithCI cntType (Bytes.lit "message/") then getBoundary cntType
    else none

/-- What the headers say. -/
def verdict (wantDecode : Bool) (xferEnc cntType mimeVer : Option Bytes) : Verdict :=
  if mimeVer ≠ some (Bytes.lit "1.0") then ⟨0, ⟨.data, [], false, false⟩, false⟩
  else
    let decode := checkContentType cntType
    match boundary cntType, xferEnc with
    | some p1, _ =>
      ⟨msgIs8bit ||| msgNeedsDecode,
        ⟨.data, Bytes.strlcat (Bytes.lit "--") p1 (maxDelimLen + 3), false, decode⟩, false⟩
    | none, none => ⟨0, ⟨.data, [], false, decode⟩, false⟩
    | none, some xferEnc =>
      if Bytes.equalsCI xferEnc (Bytes.lit "quoted-printable") then
        ⟨msgIs8bit ||| msgNeedsDecode, ⟨.data, [], true, decode⟩, wantDecode && decode⟩
      else if Bytes.equalsCI xferEnc (Bytes.lit "7bit") then
        ⟨msgIs7bit, ⟨.data, [], false, decode⟩, false⟩
      else if Bytes.equalsCI xferEnc (Bytes.lit "8bit") then
        ⟨msgIs8bit, ⟨.data, [], false, decode⟩, false⟩
      else ⟨0, ⟨.data, [], false, decode⟩, false⟩

/-- What `MimeBodyType` returns, the static variables, and the block. -/
structure BodyType where
  bodyType : Nat
  state : MimeState
  hdrs : Bytes
  deriving DecidableEq, Repr

/-- `MimeBodyType` -/
def mimeBodyType (bufsiz : Nat) (statics : Rfc822.AddrStatics) (hdrs : Bytes) (wantDecode : Bool) :
    Option BodyType :=
  (scanLoop bufsiz hdrs.length (hdrs.length + 1) hdrs statics ⟨none, none, none, none, 0⟩).bind
    fun f =>
      let v := verdict wantDecode f.xferEnc f.cntType f.mimeVer
      let hdrs := hdrs ++ [Bytes.nul]
      match v.set8bit, f.xferEncOfs with
      | true, some ofs => (setEncoding8bit hdrs ofs).map (⟨v.bodyType, v.state, ·⟩)
      | _, _ => some ⟨v.bodyType, v.state, hdrs⟩

/-! ## Headers -/

/-- A header with its line end: where it ends, for `HEADER_END`, is at its last byte. -/
structure IsField (f : Bytes) : Prop where
  ended : Rfc822.headerText f ++ [Bytes.lf] = f
  begins : f.head? ≠ some Bytes.space ∧ f.head? ≠ some Bytes.tab
  plain : Bytes.nul ∉ f

/-- Where `nxtaddr` begins. -/
def startVars : Rfc822.AddrVars := ⟨.startHdr, .startHdr, [], 0⟩

/-- The first address in a header. -/
def fieldValue (bufsiz : Nat) (f : Bytes) : Option Bytes :=
  match (Rfc822.nxtLoop bufsiz f startVars).1 with
  | .address p => some p
  | _ => none

/-- `nxtaddr`, on the header alone, does not get behind its line end. -/
def Stays (bufsiz : Nat) (f : Bytes) : Prop := (Rfc822.nxtLoop bufsiz f startVars).2.1 ≠ []

instance (bufsiz : Nat) (f : Bytes) : Decidable (Stays bufsiz f) :=
  inferInstanceAs (Decidable (_ ≠ _))

/-- What `MimeBodyType` makes of the headers does not depend on their order, and it changes nothing
but the header with the encoding, as far as its line end, if it will decode the body. -/
def Intact (bufsiz : Nat) (wantDecode : Bool) (fs : List Bytes) : Prop :=
  ∀ statics, ∃ r, mimeBodyType bufsiz statics fs.flatten wantDecode = some r ∧
    (∀ fs' statics', fs.Perm fs' →
      ∃ r', mimeBodyType bufsiz statics' fs'.flatten wantDecode = some r' ∧
        r'.bodyType = r.bodyType ∧ r'.state = r.state) ∧
    (r.hdrs = fs.flatten ++ [Bytes.nul] ∨
      (wantDecode = true ∧ r.state.currTypeNeedsDecode = true ∧
        r.state.currEncodingIsQP = true) ∧
      ∃ pre f post f', fs = pre ++ f :: post ∧ kind f = some .transferEncoding ∧
        r.hdrs = (pre ++ f' :: post).flatten ++ [Bytes.nul] ∧ f'.length = f.length ∧
        f'.getLast? = some Bytes.lf)

end Fetchmail.Mime
