import Fetchmail.Lib.Lines
import Fetchmail.Mime.QuotedPrintable

/-!
# Quoted-Printable Text

What a sender may write in the quoted-printable encoding, and what it stands for: a body is
a sequence of lines of at most 76 characters, a line a sequence of tokens that may end in a
soft line break. Each token is a byte that stands for itself, or the escape of a byte by two
hexadecimal digits in either case.

The second part says what the decoder makes of one line of it.
-/

namespace Fetchmail.Mime

open Fetchmail.Lib

/-! ## Tokens -/

/-- A hexadecimal digit. -/
def hexDigit (n : Fin 16) (upper : Bool) : UInt8 :=
  UInt8.ofNat (if n.val < 10 then 48 + n.val else (if upper then 55 else 87) + n.val)

/-- The bytes that may stand for themselves. -/
def isLiteral (b : UInt8) : Bool :=
  (33 ≤ b && b ≤ 126 && b ≠ Bytes.equals) || b = Bytes.space || b = Bytes.tab

/-- What encodes one byte. -/
inductive QpToken where
  | literal (b : UInt8) (h : isLiteral b = true)
  /-- the escape of the byte with the halves `hi` and `lo`, and which of its digits are in
  upper case -/
  | escape (hi lo : Fin 16) (hiUpper loUpper : Bool)

namespace QpToken

def text : QpToken → Bytes
  | literal b _ => [b]
  | escape hi lo hiUpper loUpper => [Bytes.equals, hexDigit hi hiUpper, hexDigit lo loUpper]

/-- The byte that is encoded. -/
def value : QpToken → UInt8
  | literal b _ => b
  | escape hi lo _ _ => UInt8.ofNat (16 * hi.val + lo.val)

/-- A blank that stands for itself, which may not end a line. -/
def blank : QpToken → Bool
  | literal b _ => b = Bytes.space || b = Bytes.tab
  | escape .. => false

end QpToken

/-! ## Lines and bodies -/

/-- The text of a line without a soft line break. -/
def tokensText (ts : List QpToken) : Bytes := ts.flatMap QpToken.text

/-- A line of quoted-printable text. -/
structure QpLine where
  tokens : List QpToken
  /-- ends in a soft line break -/
  soft : Bool
  length_le : (tokensText tokens).length + soft.toNat ≤ 76
  blank_last : soft = false → ∀ t ∈ tokens.getLast?, t.blank = false

namespace QpLine

variable (l : QpLine)

def text : Bytes := tokensText l.tokens ++ if l.soft then [Bytes.equals] else []

/-- What the line stands for. -/
def decoded : Bytes := l.tokens.map QpToken.value ++ if l.soft then [] else Bytes.crlf

/-- The line as a server sends it for a protocol that is delimited. -/
def wire : Bytes := stuff l.text ++ Bytes.crlf

end QpLine

/-- What lines stand for together. -/
def decodedLines (ls : List QpLine) : Bytes := ls.flatMap QpLine.decoded

/-- A body: the last line has no soft line break. -/
structure QpBody where
  lines : List QpLine
  hard_last : ∀ l ∈ lines.getLast?, l.soft = false

/-- The encoded body, dot-stuffed. -/
def QpBody.wire (body : QpBody) : Bytes := stuffed (body.lines.map QpLine.text)

/-- The text that the body encodes. -/
def QpBody.decoded (body : QpBody) : Bytes := decodedLines body.lines

theorem QpBody.wire_eq_flatMap (body : QpBody) : body.wire = body.lines.flatMap QpLine.wire := by
  simp only [QpBody.wire, stuffed, List.map_map, List.flatMap_def]
  rfl

/-! ## Facts about tokens -/

@[simp]
theorem unhex_hexDigit (n : Fin 16) (upper : Bool) : unhex (hexDigit n upper) = UInt8.ofNat n.val := by
  revert n upper
  decide

theorem hexDigit_ne (n : Fin 16) (upper : Bool) :
    hexDigit n upper ≠ Bytes.nul ∧ hexDigit n upper ≠ Bytes.cr ∧ hexDigit n upper ≠ Bytes.lf := by
  revert n upper
  decide

@[simp]
theorem qpChar_hexDigit (hi lo : Fin 16) (hiUpper loUpper : Bool) :
    qpChar (hexDigit hi hiUpper) (hexDigit lo loUpper) =
      some (UInt8.ofNat (16 * hi.val + lo.val)) := by
  rw [qpChar, unhex_hexDigit, unhex_hexDigit]
  revert hi lo
  decide

theorem isLiteral_ne {b : UInt8} (h : isLiteral b = true) :
    b ≠ Bytes.equals ∧ b ≠ Bytes.nul ∧ b ≠ Bytes.cr ∧ b ≠ Bytes.lf := by
  refine ⟨?_, ?_, ?_, ?_⟩ <;> rintro rfl <;> exact absurd h (by decide)

/-- The text of a token has no control characters. -/
theorem QpToken.text_ne {t : QpToken} {b : UInt8} (h : b ∈ t.text) :
    b ≠ Bytes.nul ∧ b ≠ Bytes.cr ∧ b ≠ Bytes.lf := by
  cases t with
  | literal c hc =>
    rw [List.mem_singleton.mp h]
    exact (isLiteral_ne hc).2
  | escape hi lo hiUpper loUpper =>
    simp only [QpToken.text, List.mem_cons, List.not_mem_nil, or_false] at h
    rcases h with rfl | rfl | rfl
    · decide
    · exact hexDigit_ne hi hiUpper
    · exact hexDigit_ne lo loUpper

theorem QpLine.text_ne {l : QpLine} {b : UInt8} (h : b ∈ l.text) :
    b ≠ Bytes.nul ∧ b ≠ Bytes.cr ∧ b ≠ Bytes.lf := by
  rcases List.mem_append.mp h with h | h
  · obtain ⟨t, -, ht⟩ := List.mem_flatMap.mp h
    exact t.text_ne ht
  · split at h
    · rw [List.mem_singleton.mp h]
      decide
    · exact absurd h List.not_mem_nil

theorem QpLine.length_text_le (l : QpLine) : l.text.length ≤ 76 := by
  have h := l.length_le
  cases hsoft : l.soft <;> simp_all [QpLine.text]

theorem QpLine.lf_not_mem_text (l : QpLine) : Bytes.lf ∉ l.text :=
  fun h => (QpLine.text_ne h).2.2 rfl

/-! ## The decoder on a line -/

/-- The decoder takes tokens one by one. -/
theorem qpLoop_token (t : QpToken) (s : Bytes) :
    qpLoop 0 (t.text ++ s) = (t.value :: (qpLoop 0 s).1, (qpLoop 0 s).2) := by
  cases t with
  | literal b h => simp [QpToken.text, QpToken.value, qpLoop, (isLiteral_ne h).1]
  | escape hi lo hiUpper loUpper =>
    obtain ⟨hnul, hcr, hlf⟩ := hexDigit_ne hi hiUpper
    simp [QpToken.text, QpToken.value, qpLoop, softBreak, Bytes.charAt, hnul, hcr, hlf]

theorem qpLoop_tokens (ts : List QpToken) (s : Bytes) :
    qpLoop 0 (tokensText ts ++ s) =
      (ts.map QpToken.value ++ (qpLoop 0 s).1, (qpLoop 0 s).2) := by
  induction ts with
  | nil => rfl
  | cons t ts ih =>
    have hcons : tokensText (t :: ts) ++ s = t.text ++ (tokensText ts ++ s) := by
      simp [tokensText]
    rw [hcons, qpLoop_token, ih]
    rfl

/-- The decoder on a line that is not stuffed. -/
theorem qpLoop_line (l : QpLine) :
    qpLoop 0 (l.text ++ Bytes.crlf) = (l.decoded, l.soft) := by
  rw [QpLine.text, List.append_assoc, qpLoop_tokens, QpLine.decoded]
  cases l.soft <;> rfl

/-- A dot ahead of a line is kept. -/
theorem qpLoop_dot (s : Bytes) :
    qpLoop 0 (Bytes.dot :: s) = (Bytes.dot :: (qpLoop 0 s).1, (qpLoop 0 s).2) := by
  simp [qpLoop, Bytes.dot, Bytes.equals]

/-- The dot that stands ahead of a decoded line which is the first of what is shipped together:
the one of the server, or the one that the decoder adds to a line that is an encoded dot. -/
def QpLine.lead (l : QpLine) : Bytes :=
  if l.text.head? = some Bytes.dot || l.text = Bytes.lit "=2E" then [Bytes.dot] else []

theorem take_five_wire (l : QpLine) :
    l.wire.take 5 = Bytes.lit "=2E\r\n" ↔ l.text = Bytes.lit "=2E" := by
  have hcr : Bytes.cr ∉ l.text := fun h => (QpLine.text_ne h).2.1 rfl
  have hlit : Bytes.lit "=2E\r\n" = [Bytes.equals, 50, 69, Bytes.cr, Bytes.lf] := rfl
  have hdot : Bytes.lit "=2E" = [Bytes.equals, 50, 69] := rfl
  rw [QpLine.wire, hlit, hdot]
  generalize l.text = text at *
  by_cases hstuff : text.head? = some Bytes.dot
  · -- a stuffed line does not start with the escape
    rw [stuff, if_pos hstuff]
    have hne : Bytes.dot ≠ Bytes.equals := by decide
    constructor
    · intro h
      exact absurd (List.cons.inj h).1 hne
    · rintro rfl
      exact absurd (Option.some.inj hstuff).symm hne
  · rw [stuff, if_neg hstuff]
    match text with
    | [] | [_] | [_, _] => simp [Bytes.crlf]
    | [a, b, c] => simp [Bytes.crlf]
    | a :: b :: c :: d :: text =>
      have hd : d ≠ Bytes.cr := fun h => hcr (by simp [h])
      simp [hd]

theorem take_two_wire (l : QpLine) :
    l.wire.take 2 = Bytes.lit ".." ↔ l.text.head? = some Bytes.dot := by
  have hlit : Bytes.lit ".." = [Bytes.dot, Bytes.dot] := rfl
  rw [QpLine.wire, hlit]
  generalize l.text = text
  cases text with
  | nil => simp [stuff, Bytes.crlf, Bytes.dot, Bytes.cr]
  | cons b text =>
    by_cases hb : b = Bytes.dot
    · simp [stuff, hb]
    · simp [stuff, hb]

/-- What the decoder makes of the first line of what is shipped together. -/
theorem doOneQPLine_first (l : QpLine) :
    (doOneQPLine true false l.wire).text = l.lead ++ l.decoded ∧
      (doOneQPLine true false l.wire).soft = l.soft := by
  have hline := qpLoop_line l
  by_cases hencoded : l.text = Bytes.lit "=2E"
  · -- the special case of the decoder
    rw [hencoded] at hline
    have hcode : qpLoop 0 (Bytes.lit "=2E" ++ Bytes.crlf) = (Bytes.lit ".\r\n", false) := rfl
    rw [hcode] at hline
    obtain ⟨hdecoded, hsoft⟩ := Prod.mk.inj hline
    rw [doOneQPLine, if_pos (by simp [take_five_wire, hencoded]), ← hdecoded, ← hsoft,
      QpLine.lead, hencoded]
    exact ⟨rfl, rfl⟩
  · rw [doOneQPLine, if_neg (by simp [take_five_wire, hencoded])]
    by_cases hdot : l.text.head? = some Bytes.dot
    · simp [QpLine.lead, QpLine.wire, stuff, hdot, qpLoop_dot, hline]
    · simp [QpLine.lead, QpLine.wire, stuff, hdot, hencoded, hline]

/-- Behind a soft line break, the decoder stands where its text ends. -/
theorem doOneQPLine_advance {delimited issoftline : Bool} {s : Bytes}
    (h : (doOneQPLine delimited issoftline s).soft = true) :
    (doOneQPLine delimited issoftline s).advance =
      (doOneQPLine delimited issoftline s).text.length := by
  unfold doOneQPLine at *
  split
  · simp_all
  · rfl

/-- What it makes of any other line. -/
theorem doOneQPLine_next (l : QpLine) :
    doOneQPLine true true l.wire = ⟨l.decoded, l.decoded.length, l.soft⟩ := by
  have hline := qpLoop_line l
  rw [doOneQPLine, if_neg (by simp)]
  simp only [take_two_wire, true_and]
  by_cases hdot : l.text.head? = some Bytes.dot
  · have hwire : l.wire = Bytes.dot :: (l.text ++ Bytes.crlf) := by
      simp [QpLine.wire, stuff, hdot]
    rw [if_pos hdot, hwire, qpLoop, hline]
  · have hwire : l.wire = l.text ++ Bytes.crlf := by
      simp [QpLine.wire, stuff, hdot]
    rw [if_neg hdot, hwire, hline]

/-! ## Facts about decoded lines -/

/-- A dot is put ahead only of what starts with one. -/
theorem QpLine.lead_cases (l : QpLine) :
    l.lead = [] ∨ l.lead = [Bytes.dot] ∧ dotted l.decoded = true := by
  by_cases hencoded : l.text = Bytes.lit "=2E"
  · right
    have hline := qpLoop_line l
    rw [hencoded] at hline
    have hcode : qpLoop 0 (Bytes.lit "=2E" ++ Bytes.crlf) = (Bytes.lit ".\r\n", false) := rfl
    rw [hcode] at hline
    rw [← (Prod.mk.inj hline).1, QpLine.lead, hencoded]
    exact ⟨rfl, rfl⟩
  by_cases hdot : l.text.head? = some Bytes.dot
  · right
    refine ⟨by simp [QpLine.lead, hdot], ?_⟩
    -- the first token must be the dot itself
    rw [QpLine.text] at hdot
    unfold QpLine.decoded
    cases htokens : l.tokens with
    | nil =>
      rw [htokens] at hdot
      cases hsoft : l.soft <;> simp [hsoft, tokensText, Bytes.equals, Bytes.dot] at hdot
    | cons t ts =>
      rw [htokens] at hdot
      cases t with
      | literal b h => simpa [tokensText, QpToken.text, QpToken.value, dotted] using hdot
      | escape hi lo hiUpper loUpper =>
        simp [tokensText, QpToken.text, Bytes.equals, Bytes.dot] at hdot
  · left
    simp [QpLine.lead, hencoded, hdot]

theorem QpLine.length_decoded_le (l : QpLine) : l.decoded.length ≤ 78 := by
  have htokens : ∀ ts : List QpToken, ts.length ≤ (tokensText ts).length := by
    intro ts
    induction ts with
    | nil => exact Nat.le_refl _
    | cons t ts ih =>
      have ht : 1 ≤ t.text.length := by cases t <;> simp [QpToken.text]
      simp only [tokensText, List.flatMap_cons, List.length_append, List.length_cons] at *
      omega
  have h := l.length_le
  have hts := htokens l.tokens
  have hcrlf : (if l.soft then [] else Bytes.crlf).length ≤ 2 := by
    cases l.soft <;> simp [Bytes.crlf]
  rw [QpLine.decoded, List.length_append, List.length_map]
  omega

theorem QpLine.length_lead_le (l : QpLine) : l.lead.length ≤ 1 := by
  rcases l.lead_cases with h | ⟨h, -⟩ <;> simp [h]

/-- The text before the line feed of a line on the wire. -/
theorem QpLine.isLine_wire (l : QpLine) : IsLine l.wire := by
  refine ⟨stuff l.text ++ [Bytes.cr], ?_, by simp [QpLine.wire, Bytes.crlf]⟩
  have hlf := l.lf_not_mem_text
  have hcr : Bytes.lf ≠ Bytes.cr := by decide
  have hdot : Bytes.lf ≠ Bytes.dot := by decide
  unfold stuff
  split <;> simp [hlf, hcr, hdot]

theorem QpLine.nul_not_mem_wire (l : QpLine) : Bytes.nul ∉ l.wire := by
  have hnul : Bytes.nul ∉ l.text := fun h => (QpLine.text_ne h).1 rfl
  have hcrlf : Bytes.nul ∉ Bytes.crlf := by decide
  have hdot : Bytes.nul ≠ Bytes.dot := by decide
  unfold QpLine.wire stuff
  split <;> simp [hnul, hcrlf, hdot]

theorem QpLine.length_wire_le (l : QpLine) : l.wire.length ≤ 79 := by
  have h := l.length_text_le
  unfold QpLine.wire stuff
  split <;> simp [Bytes.crlf] <;> omega

end Fetchmail.Mime
