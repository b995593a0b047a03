import Mathlib.Data.List.TakeWhile
import Fetchmail.Lib.Lines
import Fetchmail.Transact.Readheaders

/-!
# Transparency of Header Blocks

The headers of a message are shipped in one piece, or in two with the trace lines of
fetchmail between them. `stuffline` takes each piece for a single line: it doubles a dot at
the start of the piece, and not the dots at the start of the other lines in it. What the
listener reads is the header block with the lines of fetchmail's own, exactly if no line of a
piece but the first starts with a dot, and the line ends survive.
-/

namespace Fetchmail.Transact

open Fetchmail.Lib
open Fetchmail.Sink

/-! ## What is collected -/

theorem getLast?_append_of_some {a b : Bytes} {x : UInt8} (h : b.getLast? = some x) :
    (a ++ b).getLast? = some x := by
  simp [List.getLast?_append, h]

theorem getLast?_fixLineEnd (c : HeaderCtl) {chunk : Bytes} (h : chunk.getLast? = some Bytes.lf) :
    (fixLineEnd c chunk).getLast? = some Bytes.lf := by
  unfold fixLineEnd forceCr
  split
  · simp only
    split
    · exact h
    · simp [Bytes.crlf, List.getLast?_append]
  · exact h

/-- A line that was read ends in a line feed, and the headers are still `headers`. -/
def ReadsOn (headers : Option Bytes) : HeaderRead → Prop
  | .failed => True
  | .eoh s => s.headers = headers
  | .line line s => line.getLast? = some Bytes.lf ∧ s.headers = headers

theorem readHeaderLine_readsOn (c : HeaderCtl) (fuel : Nat) (line : Bytes) (s : HeaderLoop) :
    ReadsOn s.headers (readHeaderLine c fuel line s) := by
  induction fuel generalizing line s with
  | zero => trivial
  | succ fuel ih =>
    simp only [readHeaderLine]
    split
    · trivial
    · next read stream _ =>
      -- the states that the function goes on with have the same headers
      have ih' := fun line refuse => ih line { s with
        stream := stream, remaining := s.remaining - (read.filter (· ≠ Bytes.nul)).length,
        refuseMail := refuse }
      split
      · exact ih' line s.refuseMail
      split
      · exact ih' _ s.refuseMail
      · next hlf =>
        split
        · rfl
        split
        · rfl
        split
        · exact ih' _ _
        · refine ⟨getLast?_append_of_some ?_, rfl⟩
          exact getLast?_fixLineEnd c (Decidable.not_not.mp hlf)

/-- The headers end in a line feed, if there are any. -/
def EndedHeaders (s : HeaderLoop) : Prop := ∀ h ∈ s.headers, h.getLast? = some Bytes.lf

theorem endedHeaders_keepLine {c : HeaderCtl} {line : Bytes} {s : HeaderLoop}
    (hline : line.getLast? = some Bytes.lf) (hs : EndedHeaders s) :
    EndedHeaders (keepLine c line s) := by
  have happend : ∀ (s : HeaderLoop) {line : Bytes}, line.getLast? = some Bytes.lf →
      EndedHeaders (appendHeader line s) := by
    intro s line hline h hh
    cases hh
    exact getLast?_append_of_some hline
  have hedit : (if c.rewrite then c.replyHack.edit line else line).getLast? = some Bytes.lf := by
    split
    · exact c.replyHack.keeps_end line hline
    · exact hline
  simp only [keepLine]
  generalize (if c.rewrite then c.replyHack.edit line else line) = kept at hedit ⊢
  split
  · split
    · split
      · exact happend _ hedit
      · exact hs
    · exact happend _ hedit
  · exact happend _ hedit

theorem endedHeaders_processLine {c : HeaderCtl} {line : Bytes} {s : HeaderLoop}
    (hline : line.getLast? = some Bytes.lf) (hs : EndedHeaders s) :
    EndedHeaders (processLine c line s) := by
  have hedit : (if c.mimedecode then c.unMimeHeader.edit line else line).getLast? =
      some Bytes.lf := by
    split
    · exact c.unMimeHeader.keeps_end line hline
    · exact hline
  simp only [processLine]
  generalize (if c.mimedecode then c.unMimeHeader.edit line else line) = decoded at hedit ⊢
  -- a line that is not kept leaves the headers as they are
  split
  · exact hs
  split
  · exact hs
  split
  · exact hs
  split
  · exact hs
  split
  · exact hs
  · exact endedHeaders_keepLine hedit hs

theorem endedHeaders_collect {c : HeaderCtl} {fuel : Nat} {s s' : HeaderLoop}
    (h : collectHeaders c fuel s = some s') (hs : EndedHeaders s) : EndedHeaders s' := by
  induction fuel generalizing s with
  | zero => cases h
  | succ fuel ih =>
    simp only [collectHeaders] at h
    split at h
    · have hread := readHeaderLine_readsOn c (s.stream.length + 1) [] s
      split at h
      · cases h
      · next s₁ heoh =>
        cases h
        rw [heoh] at hread
        unfold EndedHeaders
        rw [show s'.headers = s.headers from hread]
        exact hs
      · next line s₁ hline =>
        rw [hline] at hread
        obtain ⟨hline, hheaders⟩ := hread
        apply ih h
        apply endedHeaders_processLine hline
        unfold EndedHeaders
        rw [hheaders]
        exact hs
    · cases h
      exact hs

/-! ## Where the trace lines go -/

/-- A text ends in the part of its last line that has begun. -/
theorem exists_line_start (p : Bytes) :
    ∃ a b, p = a ++ b ∧ Bytes.lf ∉ b ∧ (a = [] ∨ a.getLast? = some Bytes.lf) ∧
      b.length = (p.reverse.takeWhile (· ≠ Bytes.lf)).length := by
  refine ⟨(p.reverse.dropWhile (· ≠ Bytes.lf)).reverse,
    (p.reverse.takeWhile (· ≠ Bytes.lf)).reverse, ?_, ?_, ?_, by simp⟩
  · rw [← List.reverse_append, List.takeWhile_append_dropWhile, List.reverse_reverse]
  · intro hmem
    have := List.mem_takeWhile_imp (List.mem_reverse.mp hmem)
    simp at this
  · rw [List.reverse_eq_nil_iff, List.getLast?_reverse]
    cases hdrop : p.reverse.dropWhile (· ≠ Bytes.lf) with
    | nil => exact .inl rfl
    | cons x xs =>
      right
      have hne : p.reverse.dropWhile (· ≠ Bytes.lf) ≠ [] := by
        rw [hdrop]
        exact List.cons_ne_nil x xs
      have hhead := List.head_dropWhile_not (· ≠ Bytes.lf) hne
      simp only [hdrop, List.head_cons] at hhead
      simpa using hhead

/-- The headers where the trace lines go: `before` them whole lines without zero bytes, and
then a line with `Received:` in it. -/
structure Split (h before rest : Bytes) : Prop where
  append : before ++ rest = h
  length : before.length = receivedAt h
  before_ends : before = [] ∨ before.getLast? = some Bytes.lf
  before_plain : Bytes.nul ∉ before
  /-- the byte behind the one that is put back is part of a line -/
  rest_second : before ≠ [] → ∃ b x, rest = b :: x :: rest.drop 2 ∧ x ≠ Bytes.lf ∧ x ≠ Bytes.nul

theorem exists_split (h : Bytes) : ∃ before rest, Split h before rest := by
  cases hfind : Bytes.findSub (Bytes.lit "Received:") (Bytes.cstr h) with
  | none =>
    exact ⟨[], h, ⟨rfl, by simp [receivedAt, hfind], .inl rfl, by simp, by simp⟩⟩
  | some i =>
    obtain ⟨p, x, hcstr, rfl⟩ := Bytes.findSub_spec hfind
    obtain ⟨a, b, rfl, hb, ha, hlen⟩ := exists_line_start p
    have hplain : ∀ y ∈ Bytes.cstr h, y ≠ Bytes.nul := by
      intro y hy
      simpa using List.mem_takeWhile_imp hy
    have hprefix : Bytes.cstr h <+: h := List.takeWhile_prefix _
    obtain ⟨tail, htail⟩ := hprefix
    rw [hcstr] at htail hplain
    refine ⟨a, b ++ (Bytes.lit "Received:" ++ (x ++ tail)), ?_⟩
    have hlit : Bytes.lit "Received:" = 82 :: 101 :: Bytes.lit "ceived:" := rfl
    constructor
    · rw [← htail]
      simp
    · have htake : h.take (a ++ b).length = a ++ b := by
        rw [← htail, List.append_assoc, List.take_left' rfl]
      simp only [receivedAt, hfind]
      rw [lineStart, htake, ← hlen, List.length_append]
      omega
    · exact ha
    · exact fun hmem => hplain _ (by simp [hmem]) rfl
    · intro _
      -- the second byte is in the line up to the end of the `Received:`
      match b with
      | [] => exact ⟨82, 101, by rw [hlit]; rfl, by decide, by decide⟩
      | [b₁] => exact ⟨b₁, 82, by rw [hlit]; rfl, by decide, by decide⟩
      | b₁ :: b₂ :: b =>
        refine ⟨b₁, b₂, rfl, ?_, ?_⟩
        · exact fun heq => hb (by simp [heq])
        · exact hplain _ (by simp)

/-! ## One piece -/

/-- The settings that the transparency is about. -/
structure StuffsHeaders (c : HeaderCtl) : Prop where
  delimited : c.line.delimited = false
  kind : c.line.kind = .socket
  accepts : ∀ out, c.accepts out = true

/-- The dot ahead of a piece. -/
def pieceLead (w : Bytes) : Bytes := if dotted w then [Bytes.dot] else []

theorem pieceLead_cases (w : Bytes) : Lead (pieceLead w) w := by
  unfold pieceLead
  by_cases h : dotted w = true
  · exact .inr ⟨if_pos h, h⟩
  · exact .inl (if_neg h)

/-- Another line end makes no difference to it. -/
theorem pieceLead_lineEnd (k e : Bytes) :
    Lead (pieceLead (k ++ [Bytes.lf])) (k ++ e) := by
  unfold pieceLead
  by_cases hdot : dotted (k ++ [Bytes.lf]) = true
  · right
    refine ⟨if_pos hdot, ?_⟩
    cases k with
    | nil => exact absurd hdot (by decide)
    | cons b k => exact hdot
  · exact .inl (if_neg hdot)

/-- A line that ends in CRLF, or has no line feed. -/
def endsCrlf (w : Bytes) : Prop := w.dropLast.getLast? = some Bytes.cr

/-- A piece of the headers that gets to the listener as it is. -/
structure Intact (ctl : LineCtl) (w : Bytes) : Prop where
  /-- it is not cut off at a zero byte -/
  whole : ¬ [Bytes.lf, Bytes.nul] <:+: w
  /-- no line but the first starts with a dot -/
  inner : ∀ l ∈ (lfLines w).tail, dotted l = false
  /-- its line end is kept -/
  lineEnd : ctl.forcecr = true → ctl.stripcr = false → endsCrlf w

section

variable {ctl : LineCtl}

theorem dotted_ended {w : Bytes} (h : w.getLast? = some Bytes.lf) :
    dotted (ended ctl w) = dotted w := by
  obtain ⟨k, rfl⟩ := List.getLast?_eq_some_iff.mp h
  obtain ⟨e, hended, he, -⟩ := ended_lineEnd ctl k
  rw [hended]
  cases k with
  | nil => rcases he with rfl | rfl <;> rfl
  | cons b k => rfl

/-- What is written for a line when the server has stuffed nothing. -/
theorem sinkLine_piece (hdelimited : ctl.delimited = false) (hkind : ctl.kind = .socket)
    {w : Bytes} (h : w.getLast? = some Bytes.lf) :
    sinkLine ctl w = pieceLead w ++ stripCr ctl (ended ctl w) := by
  have hdot : (ended ctl w).head? = some Bytes.dot ↔ dotted w = true := by
    rw [← @dotted_ended ctl w h]
    simp [dotted]
  simp [sinkLine, stuffing, skipped, pieceLead, hdelimited, hkind, hdot]

/-- The line end of what is written, when no other carriage returns are stripped. -/
theorem stripCr_ended {k : Bytes} (hcr : ctl.stripcr = true → Bytes.cr ∉ k) :
    ∃ e, stripCr ctl (ended ctl (k ++ [Bytes.lf])) = k ++ e ∧ LineEnd e ∧
      (e = [Bytes.lf] ↔
        (ctl.forcecr = true → ctl.stripcr = false → k.getLast? = some Bytes.cr)) := by
  obtain ⟨e, hended, he, hiff⟩ := ended_lineEnd ctl k
  rw [hended]
  cases hstrip : ctl.stripcr with
  | false => exact ⟨e, by simp [stripCr, hstrip], he, by simpa using hiff⟩
  | true =>
    have hk : k.filter (· ≠ Bytes.cr) = k := by
      apply List.filter_eq_self.mpr
      intro b hb
      simpa using fun heq : b = Bytes.cr => hcr hstrip (heq ▸ hb)
    refine ⟨[Bytes.lf], ?_, .inl rfl, by simp⟩
    rw [stripCr, if_pos hstrip, List.filter_append, hk]
    rcases he with rfl | rfl <;> rfl

/-- **Piece.** A piece is accounted for, and read off exactly if it is intact. -/
theorem accounted_piece (hdelimited : ctl.delimited = false) (hkind : ctl.kind = .socket)
    {w : Bytes} (hw : w.getLast? = some Bytes.lf) (hcr : ctl.stripcr = true → Bytes.cr ∉ w) :
    Terminated (sinkLine ctl (huntLine (w ++ [Bytes.nul]))) ∧
      Accounted (sinkLine ctl (huntLine (w ++ [Bytes.nul]))) w ∧
      (Reads (sinkLine ctl (huntLine (w ++ [Bytes.nul]))) w ↔ Intact ctl w) := by
  have hlead := pieceLead_cases w
  obtain ⟨rest, hfound, hlast, hrest, hwhole⟩ := huntLine_spec hw
  generalize huntLine (w ++ [Bytes.nul]) = found at hfound hlast ⊢
  rw [sinkLine_piece hdelimited hkind hlast]
  obtain ⟨k, rfl⟩ := List.getLast?_eq_some_iff.mp hlast
  -- the dot is the one of the piece, even if not all of it is shipped
  have hsame : pieceLead (k ++ [Bytes.lf]) = pieceLead w := by
    rw [hfound]
    cases k <;> rfl
  have hcrk : ctl.stripcr = true → Bytes.cr ∉ k := fun hstrip hmem =>
    hcr hstrip (by rw [hfound]; simp [hmem])
  obtain ⟨e, hfinal, he, hiff⟩ := stripCr_ended hcrk
  rw [hsame, hfinal]
  refine ⟨?_, ?_⟩
  · rw [← List.append_assoc]
    exact he.terminated _
  rcases hrest with rfl | hrest
  · have hnocut := hwhole.mp rfl
    rw [List.append_nil] at hfound
    have hends : k.getLast? = some Bytes.cr ↔ endsCrlf w := by
      rw [endsCrlf, hfound, List.dropLast_concat]
    rw [hends] at hiff
    by_cases hkeep : e = [Bytes.lf]
    · rw [hkeep, ← hfound]
      refine ⟨hlead.accounted.1, hlead.accounted.2.trans ?_⟩
      constructor
      · exact fun hled => ⟨hnocut, hled.inner, hiff.mp hkeep⟩
      · intro hintact
        refine ⟨fun hdot => ?_, hintact.inner⟩
        simp [pieceLead, hdot]
    · -- the line end was made a CRLF
      have hcrlf : e = Bytes.crlf := he.resolve_left hkeep
      have hled : Lead (pieceLead w) (k ++ e) := hsame ▸ pieceLead_lineEnd k e
      have hweight : weight (k ++ e) = weight w := by
        rw [hfound, weight_append, weight_append, he.weight]
        rfl
      have hlonger : w.length < (k ++ e).length := by
        rw [hfound, hcrlf, List.length_append, List.length_append]
        simp [Bytes.crlf]
      obtain ⟨haccounted, hnot⟩ := hled.accounted.1.longer hweight hlonger
      exact ⟨haccounted, fun h => absurd h hnot,
        fun hintact => absurd (hiff.mpr hintact.lineEnd) hkeep⟩
  · -- what follows a zero byte is lost
    obtain ⟨lost, rfl⟩ : ∃ lost, rest = Bytes.nul :: lost := List.head?_eq_some_iff.mp hrest
    have hlighter : weight (unstuffLines (pieceLead w ++ (k ++ e))) < weight w := by
      have hleadlen : (pieceLead w).length ≤ 1 := by
        rcases hlead with h | ⟨h, -⟩ <;> simp [h]
      apply lighter_of_weight hleadlen
      · rcases hlead with h | ⟨h, -⟩
        · exact .inl h
        · exact .inr (by rw [h]; rfl)
      · have hleadweight : weight (pieceLead w) = (pieceLead w).length := by
          rcases hlead with h | ⟨h, -⟩ <;> rw [h] <;> rfl
        have hnul : weight (Bytes.nul :: lost) = weight lost + 1 := by
          simp [weight, Bytes.nul, Bytes.cr, Bytes.lf]
        have hw := congrArg weight hfound
        simp only [weight_append, hnul, show weight [Bytes.lf] = 0 from rfl] at hw
        simp only [weight_append, he.weight, hleadweight]
        omega
    refine ⟨Accounted.of_lighter hlighter, fun hreads => ?_, fun hintact => ?_⟩
    · exact absurd (congrArg weight hreads.1) (Nat.ne_of_lt hlighter)
    · cases hwhole.mpr hintact.whole

/-! ## The buffer behind the first piece -/

/-- A line without zero bytes is found whole. -/
theorem huntLine_plain {w : Bytes} (hw : w.getLast? = some Bytes.lf) (hnul : Bytes.nul ∉ w)
    (tail : Bytes) : huntLine (w ++ Bytes.nul :: tail) = w := by
  obtain ⟨rest, hfound, -, -, hwhole⟩ := huntLine_spec hw
  have hnil : rest = [] := by
    apply hwhole.mpr
    intro hcut
    exact hnul (hcut.subset (by simp))
  rw [huntLine_tail tail hw]
  simpa [hnil] using hfound.symm

/-- Stripping a line in its buffer leaves what is behind the line. -/
theorem drop_stripped {stripped mem : Bytes} {n : Nat} (h : stripped.length < n) :
    (stripped ++ Bytes.nul :: mem.drop (stripped.length + 1)).drop n = mem.drop n := by
  obtain ⟨m, rfl⟩ := Nat.exists_eq_add_of_lt h
  have hm : stripped.length + m + 1 - stripped.length = m + 1 := by omega
  rw [List.drop_append, List.drop_eq_nil_of_le (by omega), hm, List.nil_append,
    List.drop_succ_cons, List.drop_drop]
  congr 1
  omega

/-- What `stuffline` leaves behind the zero byte that follows the first piece: what was there,
unless the line end had to be made a CRLF; then another zero byte stands there. -/
theorem stuffline_mem_drop (hdelimited : ctl.delimited = false) {w : Bytes}
    (hw : w.getLast? = some Bytes.lf) (hnul : Bytes.nul ∉ w) (more : Bytes) :
    ((ctl.forcecr = true → endsCrlf w) →
        (stuffline ctl (w ++ Bytes.nul :: more)).mem.drop (w.length + 1) = more) ∧
      (¬ (ctl.forcecr = true → endsCrlf w) →
        (stuffline ctl (w ++ Bytes.nul :: more)).mem.drop (w.length + 1) =
          Bytes.nul :: more.drop 1) := by
  obtain ⟨k, rfl⟩ := List.getLast?_eq_some_iff.mp hw
  obtain ⟨e, hended, he, hiff⟩ := ended_lineEnd ctl k
  rw [endsCrlf, List.dropLast_concat, ← hiff]
  simp only [stuffline, huntLine_plain hw hnul more, hended, skipped, hdelimited]
  simp only [Bool.false_eq_true, false_and, and_false, if_false, List.take_zero, List.drop_zero,
    List.nil_append]
  have hstrip := length_stripCr_le ctl (k ++ e)
  refine ⟨?_, ?_⟩
  · rintro rfl
    have hdrop : ((k ++ [Bytes.lf]) ++ Bytes.nul :: more).drop ((k ++ [Bytes.lf]).length + 1) =
        more := by
      rw [List.drop_append]
      simp
    simp only [if_true, List.drop_left' rfl]
    split
    · rw [drop_stripped (Nat.lt_succ_of_le hstrip), hdrop]
    · exact hdrop
  · intro hne
    obtain rfl := he.resolve_left hne
    have hlen : (k ++ Bytes.crlf).length = (k ++ [Bytes.lf]).length + 1 := by simp [Bytes.crlf]
    have hlonger : (k ++ Bytes.crlf).length ≠ (k ++ [Bytes.lf]).length := by omega
    have hover : ((k ++ [Bytes.lf]) ++ Bytes.nul :: more).drop ((k ++ [Bytes.lf]).length + 2) =
        more.drop 1 := by
      rw [List.drop_append]
      simp
    simp only [if_neg hlonger, hover]
    split
    · next hstripcr =>
      -- the carriage return that was put there is stripped again
      have hshort : (stripCr ctl (k ++ Bytes.crlf)).length < (k ++ Bytes.crlf).length := by
        rw [stripCr, if_pos hstripcr]
        apply List.length_filter_lt_length_iff_exists.mpr
        exact ⟨Bytes.cr, by simp [Bytes.crlf], by simp⟩
      rw [drop_stripped (by omega), ← hlen, List.drop_left' rfl]
    · rw [← hlen, List.drop_left' rfl]

/-! ## The lines of fetchmail's own -/

/-- A text without line feeds and zero bytes. -/
def Plain (t : Bytes) : Prop := ∀ b ∈ t, b ≠ Bytes.lf ∧ b ≠ Bytes.nul

theorem Plain.append {t u : Bytes} (ht : Plain t) (hu : Plain u) : Plain (t ++ u) := by
  intro b hb
  rcases List.mem_append.mp hb with hb | hb
  · exact ht b hb
  · exact hu b hb

theorem plain_nil : Plain [] := fun _ hb => absurd hb List.not_mem_nil

/-- A text that can be written as a line of its own. -/
structure OwnText (t : Bytes) : Prop where
  plain : Plain t
  first : t.head? ≠ some Bytes.dot ∧ t.head? ≠ some Bytes.cr

/-- What is written for lines of fetchmail's own. -/
def ownLines (ctl : LineCtl) (texts : List Bytes) : Bytes :=
  texts.flatMap fun t => sinkLine ctl (t ++ Bytes.crlf)

theorem sinkLine_own (hdelimited : ctl.delimited = false) (hkind : ctl.kind = .socket) {t : Bytes}
    (ht : OwnText t) :
    ∃ u, sinkLine ctl (t ++ Bytes.crlf) = u ++ [Bytes.lf] ∧ Bytes.lf ∉ u ∧
      dotted (u ++ [Bytes.lf]) = false := by
  have hcrlf : t ++ Bytes.crlf = (t ++ [Bytes.cr]) ++ [Bytes.lf] := by simp [Bytes.crlf]
  have hlast : (t ++ Bytes.crlf).getLast? = some Bytes.lf := by
    rw [hcrlf, List.getLast?_concat]
  have hlf : Bytes.lf ∉ t ++ [Bytes.cr] := by
    intro hmem
    rcases List.mem_append.mp hmem with hmem | hmem
    · exact (ht.plain _ hmem).1 rfl
    · exact absurd (List.mem_singleton.mp hmem) (by decide)
  -- our lines start with no dot, so nothing is stuffed
  have hfirst : dotted (t ++ Bytes.crlf) = false := by
    cases t with
    | nil => rfl
    | cons b t => simpa [dotted] using ht.first.1
  rw [sinkLine_piece hdelimited hkind hlast, ended_crlf, pieceLead, hfirst,
    if_neg Bool.false_ne_true, List.nil_append]
  cases hstrip : ctl.stripcr with
  | false =>
    refine ⟨t ++ [Bytes.cr], ?_, hlf, hcrlf ▸ hfirst⟩
    simp [stripCr, hstrip, hcrlf]
  | true =>
    refine ⟨(t ++ [Bytes.cr]).filter (· ≠ Bytes.cr), ?_,
      fun hmem => hlf (List.mem_filter.mp hmem).1, ?_⟩
    · rw [stripCr, if_pos hstrip, hcrlf, List.filter_append]
      rfl
    · -- stripping does not bring a dot to the start
      cases t with
      | nil => rfl
      | cons b t =>
        have hb : b ≠ Bytes.cr := by simpa using ht.first.2
        have hdot : b ≠ Bytes.dot := by simpa using ht.first.1
        simp [dotted, hb, hdot]

/-- The listener gets these lines as they are written. -/
theorem ownLines_plain (hdelimited : ctl.delimited = false) (hkind : ctl.kind = .socket)
    {texts : List Bytes} (h : ∀ t ∈ texts, OwnText t) :
    Terminated (ownLines ctl texts) ∧ ∀ l ∈ lfLines (ownLines ctl texts), dotted l = false := by
  induction texts with
  | nil => exact ⟨.inl rfl, by simp [ownLines, lfLines]⟩
  | cons t texts ih =>
    rw [List.forall_mem_cons] at h
    obtain ⟨hterm, hdots⟩ := ih h.2
    obtain ⟨u, hu, hlf, hdot⟩ := sinkLine_own hdelimited hkind h.1
    have hcons : ownLines ctl (t :: texts) = u ++ Bytes.lf :: ownLines ctl texts := by
      rw [ownLines, List.flatMap_cons, hu, List.append_assoc]
      rfl
    refine ⟨?_, ?_⟩
    · rw [hcons, ← List.singleton_append, ← List.append_assoc]
      exact (terminated_line u).append hterm
    · rw [hcons, lfLines_line_append _ hlf, List.forall_mem_cons]
      exact ⟨hdot, hdots⟩

end

/-- A text that has begun, with neither a dot nor a carriage return. -/
structure Begun (t : Bytes) : Prop where
  plain : Plain t
  first : ∃ b ∈ t.head?, b ≠ Bytes.dot ∧ b ≠ Bytes.cr

theorem Begun.append {t u : Bytes} (ht : Begun t) (hu : Plain u) : Begun (t ++ u) := by
  obtain ⟨b, hb, hfirst⟩ := ht.first
  refine ⟨ht.plain.append hu, b, ?_, hfirst⟩
  cases t with
  | nil => cases hb
  | cons x t => exact hb

theorem Begun.own {t : Bytes} (ht : Begun t) : OwnText t := by
  obtain ⟨b, hb, hdot, hcr⟩ := ht.first
  refine ⟨ht.plain, ?_⟩
  rw [Option.mem_def.mp hb]
  simp [hdot, hcr]

theorem plain_lit {s : String}
    (h : (Bytes.lit s).all (fun b => b ≠ Bytes.lf && b ≠ Bytes.nul) = true) :
    Plain (Bytes.lit s) := by
  intro b hb
  simpa using List.all_eq_true.mp h b hb

theorem own_nil : OwnText [] := ⟨plain_nil, by simp⟩

theorem begun_fromLine (t : TraceInfo) : Begun (fromLine t) := by
  have hstart : Begun (Bytes.lit "Received: from ") := ⟨plain_lit (by decide), 82, by decide⟩
  apply (hstart.append t.truename.plain).append
  cases t.saddr with
  | none => exact plain_nil
  | some saddr => exact ((plain_lit (by decide)).append saddr.plain).append (plain_lit (by decide))

theorem begun_byLine (t : TraceInfo) : Begun (byLine t) := by
  have hstart : Begun (Bytes.lit "\tby ") := ⟨plain_lit (by decide), 9, by decide⟩
  have hversion := ((((hstart.append t.fetchmailhost.plain).append
    (plain_lit (s := " with ") (by decide))).append t.protocolName.plain).append
    (plain_lit (s := " (fetchmail-") (by decide))).append t.version.plain
  apply (hversion.append _).append (plain_lit (by decide))
  cases t.tracepolls with
  | none => exact plain_nil
  | some polls =>
    obtain ⟨pollname, remotename, folder⟩ := polls
    apply ((((plain_lit (by decide)).append pollname.plain).append (plain_lit (by decide))).append
      remotename.plain).append
    cases folder with
    | none => exact plain_nil
    | some folder => exact (plain_lit (by decide)).append folder.plain

theorem begun_forLine (t : TraceInfo) : Begun (forLine t) := by
  have hstart : Begun (Bytes.lit "\t") := ⟨plain_lit (by decide), 9, by decide⟩
  apply (hstart.append _).append t.timestamp.plain
  cases t.forClause with
  | byDefault postmaster =>
    exact ((plain_lit (by decide)).append postmaster.plain).append (plain_lit (by decide))
  | one recipient multidrop =>
    have hdrop : Plain (if multidrop then Bytes.lit "multi-drop" else Bytes.lit "single-drop") := by
      cases multidrop <;> exact plain_lit (by decide)
    exact ((((plain_lit (by decide)).append recipient.plain).append (plain_lit (by decide))).append
      hdrop).append (plain_lit (by decide))
  | several => exact plain_nil

theorem plain_noLocalMatches (w : WarningInfo) : Plain (match w.noLocalMatches with
    | some (some id) =>
      Bytes.lit "recipient address " ++ id.text ++ Bytes.lit " didn't match any local name"
    | some none => Bytes.lit "no recipient addresses matched declared local names"
    | none => []) := by
  split
  · exact ((plain_lit (by decide)).append (PlainText.plain _)).append (plain_lit (by decide))
  · exact plain_lit (by decide)
  · exact plain_nil

theorem begun_warningLine {w : WarningInfo} {hasNuls : Bool} {text : Bytes}
    (h : warningLine w hasNuls = some text) : Begun text := by
  have hstart : Begun (Bytes.lit "X-Fetchmail-Warning: ") := ⟨plain_lit (by decide), 88, by decide⟩
  have hjoin : ∀ t, Plain t →
      Plain (if t ≠ [] ∨ w.stale ≠ Bytes.nul then t ++ Bytes.lit "; " else t) := by
    intro t ht
    split
    · exact ht.append (plain_lit (by decide))
    · exact ht
  simp only [warningLine] at h
  split at h
  · cases h
  · cases h
    apply hstart.append
    -- each of the three parts of the warning is plain text
    have hmatches := plain_noLocalMatches w
    have hnuls : ∀ t, Plain t → Plain (if hasNuls then
        (if t ≠ [] ∨ w.stale ≠ Bytes.nul then t ++ Bytes.lit "; " else t) ++
          Bytes.lit "message has embedded NULs" else t) := by
      intro t ht
      split
      · exact (hjoin t ht).append (plain_lit (by decide))
      · exact ht
    have hids : ∀ ids : List (PlainText × Bool), Plain (ids.flatMap fun id =>
        id.1.text ++ (if id.2 then [] else Bytes.lit ", ")) := by
      intro ids b hb
      obtain ⟨id, -, hid⟩ := List.mem_flatMap.mp hb
      have hid' : Plain (id.1.text ++ if id.2 then [] else Bytes.lit ", ") := by
        apply Plain.append id.1.plain
        split
        · exact plain_nil
        · exact plain_lit (by decide)
      exact hid' b hid
    split
    · exact hnuls _ hmatches
    · exact ((hjoin _ (hnuls _ hmatches)).append (plain_lit (by decide))).append (hids _)

/-! ## What is written -/

/-- The texts of the trace lines. -/
def traceTexts (c : HeaderCtl) (h : Bytes) : List Bytes :=
  if c.invisible then [] else receivedLines (c.address h).trace

/-- The texts that end the headers. -/
def endTexts (c : HeaderCtl) (h : Bytes) (hasNuls : Bool) : List Bytes :=
  (warningLine (c.address h).warning hasNuls).toList ++ [[]]

/-- What is written for the headers up to the trace lines. -/
def headWritten (c : HeaderCtl) (h : Bytes) : Bytes :=
  if receivedAt h = 0 then [] else sinkLine c.line (huntLine (headBuffer h))

/-- What is written for the rest of the headers. -/
def restWritten (c : HeaderCtl) (h : Bytes) : Bytes :=
  sinkLine c.line (huntLine (restBuffer c h))

theorem ownText_traceTexts (c : HeaderCtl) (h : Bytes) : ∀ t ∈ traceTexts c h, OwnText t := by
  intro t ht
  unfold traceTexts at ht
  split at ht
  · exact absurd ht List.not_mem_nil
  · simp only [receivedLines, List.mem_cons, List.not_mem_nil, or_false] at ht
    rcases ht with rfl | rfl | rfl
    · exact (begun_fromLine _).own
    · exact (begun_byLine _).own
    · exact (begun_forLine _).own

theorem ownText_endTexts (c : HeaderCtl) (h : Bytes) (hasNuls : Bool) :
    ∀ t ∈ endTexts c h hasNuls, OwnText t := by
  intro t ht
  rcases List.mem_append.mp ht with ht | ht
  · exact (begun_warningLine (Option.mem_toList.mp ht)).own
  · rw [List.mem_singleton.mp ht]
    exact own_nil

theorem ship_eq {c : HeaderCtl} (hc : StuffsHeaders c) (out mem : Bytes) :
    ship c out mem = some (out ++ sinkLine c.line (huntLine mem)) := by
  simp [ship, hc.accepts, stuffline]

theorem huntLine_own {t : Bytes} (ht : OwnText t) :
    huntLine (t ++ Bytes.crlf ++ [Bytes.nul]) = t ++ Bytes.crlf := by
  apply huntLine_plain
  · simp [Bytes.crlf, List.getLast?_append]
  · intro hmem
    rcases List.mem_append.mp hmem with hmem | hmem
    · exact (ht.plain _ hmem).2 rfl
    · exact absurd hmem (by decide)

theorem shipLines_eq {c : HeaderCtl} (hc : StuffsHeaders c) {texts : List Bytes}
    (h : ∀ t ∈ texts, OwnText t) (out : Bytes) :
    shipLines c out texts = some (out ++ ownLines c.line texts) := by
  induction texts generalizing out with
  | nil => simp [shipLines, ownLines]
  | cons t texts ih =>
    rw [List.forall_mem_cons] at h
    rw [shipLines, ship_eq hc, huntLine_own h.1, Option.bind_some, ih h.2,
      List.append_assoc]
    rfl

theorem shipHeaders_eq {c : HeaderCtl} (hc : StuffsHeaders c) (h : Bytes) :
    shipHeaders c h (c.address h).trace =
      some (headWritten c h ++ ownLines c.line (traceTexts c h) ++ restWritten c h) := by
  have hhead : (if receivedAt h = 0 then some [] else ship c [] (headBuffer h)) =
      some (headWritten c h) := by
    unfold headWritten
    split
    · rfl
    · rw [ship_eq hc, List.nil_append]
  have htrace : ∀ out, (if c.invisible then some out
      else shipLines c out (receivedLines (c.address h).trace)) =
      some (out ++ ownLines c.line (traceTexts c h)) := by
    intro out
    have hown := ownText_traceTexts c h
    unfold traceTexts at hown ⊢
    split
    · simp [ownLines]
    · next hvisible =>
      rw [if_neg hvisible] at hown
      exact shipLines_eq hc hown out
  rw [shipHeaders, hhead, Option.bind_some, htrace, Option.bind_some, ship_eq hc]
  rfl

theorem finishHeaders_eq {c : HeaderCtl} (hc : StuffsHeaders c) (h out : Bytes) (hasNuls : Bool) :
    ∃ status, finishHeaders c h out hasNuls =
      .shipped status h hasNuls (out ++ ownLines c.line (endTexts c h hasNuls)) := by
  have hend := ownText_endTexts c h hasNuls
  have hdelimiter : (stuffline c.line (Bytes.crlf ++ [Bytes.nul])).written =
      sinkLine c.line Bytes.crlf := by
    show sinkLine c.line (huntLine ([] ++ Bytes.crlf ++ [Bytes.nul])) = _
    rw [huntLine_own own_nil]
    rfl
  simp only [finishHeaders, hc.accepts, if_true, hdelimiter]
  refine ⟨if (stuffline c.line (Bytes.crlf ++ [Bytes.nul])).n =
    (Bytes.cstr (stuffline c.line (Bytes.crlf ++ [Bytes.nul])).mem).length then .success
    else .socket, ?_⟩
  unfold endTexts at hend ⊢
  cases hw : warningLine (c.address h).warning hasNuls with
  | none => simp [ownLines]
  | some text =>
    rw [hw] at hend
    rw [Option.map_some, ship_eq hc, huntLine_own (hend text (by simp))]
    simp [ownLines]

/-- What is known of headers that were shipped. -/
theorem readheaders_shipped {c : HeaderCtl} (hc : StuffsHeaders c) {stream h out : Bytes}
    {fetchlen : Int} {status : Ps} {hasNuls : Bool}
    (hship : readheaders c stream fetchlen = .shipped status h hasNuls out) :
    h.getLast? = some Bytes.lf ∧
      out = headWritten c h ++ (ownLines c.line (traceTexts c h) ++
        (restWritten c h ++ ownLines c.line (endTexts c h hasNuls))) := by
  unfold readheaders at hship
  split at hship
  · cases hship
  · next s hcollect =>
    have hended := endedHeaders_collect hcollect fun _ hh => by cases hh
    split at hship
    · cases hship
    split at hship
    · cases hship
    split at hship
    · cases hship
    -- headers that were made up end in a newline as well
    have hlast : (s.headers.getD (fakeHeaders c)).getLast? = some Bytes.lf := by
      cases hs : s.headers with
      | none =>
        simp only [Option.getD_none, fakeHeaders]
        exact getLast?_append_of_some rfl
      | some h => exact hended h hs
    simp only at hship
    -- from here on only the headers matter, not where they come from
    generalize s.headers.getD (fakeHeaders c) = headers at hship hlast
    split at hship
    · cases hship
    rw [shipHeaders_eq hc] at hship
    obtain ⟨status', hfinish⟩ := finishHeaders_eq hc headers (headWritten c headers ++
      ownLines c.line (traceTexts c headers) ++ restWritten c headers) s.hasNuls
    simp only [hfinish] at hship
    injection hship with hstatus hh hnuls hout
    subst hh hnuls
    refine ⟨hlast, ?_⟩
    rw [← hout]
    simp only [List.append_assoc]

/-! ## Transparency -/

/-- The listener reads the headers that were collected, with the lines of fetchmail's own in
their places, and no line shipped is a lone dot. -/
def HeadersTransparent (c : HeaderCtl) (h : Bytes) (hasNuls : Bool) (out : Bytes) : Prop :=
  receive out = h.take (receivedAt h) ++ (ownLines c.line (traceTexts c h) ++
      (h.drop (receivedAt h) ++ ownLines c.line (endTexts c h hasNuls))) ∧
    NoLoneDot out

/-- Headers that get to the listener as they are. -/
structure HeadersIntact (ctl : LineCtl) (h : Bytes) : Prop where
  /-- no carriage return is stripped -/
  kept : ctl.stripcr = true → Bytes.cr ∉ h
  /-- in the lines ahead of the trace lines, no line but the first starts with a dot -/
  head : ∀ l ∈ (lfLines (h.take (receivedAt h))).tail, dotted l = false
  /-- and their last line end is kept -/
  lineEnd : receivedAt h ≠ 0 → ctl.forcecr = true → endsCrlf (h.take (receivedAt h))
  rest : Intact ctl (h.drop (receivedAt h))

section

variable {c : HeaderCtl}

theorem headWritten_eq {h before rest : Bytes} (hs : Split h before rest) :
    headWritten c h = if before = [] then [] else sinkLine c.line before := by
  have hzero : receivedAt h = 0 ↔ before = [] := by
    rw [← hs.length, List.length_eq_zero_iff]
  unfold headWritten
  by_cases hnil : before = []
  · rw [if_pos (hzero.mpr hnil), if_pos hnil]
  · rw [if_neg (mt hzero.mp hnil), if_neg hnil, headBuffer, ← hs.length, ← hs.append,
      List.take_left' rfl, huntLine_plain (hs.before_ends.resolve_left hnil) hs.before_plain]

/-- The rest of the headers is in the buffer as it was, unless a line feed was put there. -/
theorem restBuffer_eq (hc : StuffsHeaders c) {h before rest : Bytes} (hs : Split h before rest) :
    ((before ≠ [] → c.line.forcecr = true → endsCrlf before) →
        restBuffer c h = rest ++ [Bytes.nul]) ∧
      (¬ (before ≠ [] → c.line.forcecr = true → endsCrlf before) →
        restBuffer c h = rest.headD Bytes.nul :: Bytes.nul :: (rest.drop 2 ++ [Bytes.nul])) := by
  have hzero : receivedAt h = 0 ↔ before = [] := by
    rw [← hs.length, List.length_eq_zero_iff]
  by_cases hnil : before = []
  -- there are no headers of the message before the trace
  · have hrest : rest = h := by simpa [hnil] using hs.append
    refine ⟨fun _ => ?_, fun hnot => absurd (fun hne => absurd hnil hne) hnot⟩
    rw [restBuffer, if_pos (hzero.mpr hnil), hrest]
  · obtain ⟨b, x, hrest, -, -⟩ := hs.rest_second hnil
    generalize rest.drop 2 = more at hrest
    subst hrest
    have hput : h.getD (receivedAt h) Bytes.nul = b := by
      rw [← hs.length, ← hs.append]
      simp
    have hdrop : h.drop (receivedAt h + 1) = x :: more := by
      rw [← hs.length, ← hs.append, List.drop_append]
      simp
    have htake : h.take (receivedAt h) = before := by
      rw [← hs.length, ← hs.append, List.take_left' rfl]
    -- the zero byte behind the first headers stays where the decoding of them ends
    have hmem := stuffline_mem_drop hc.delimited (hs.before_ends.resolve_left hnil)
      hs.before_plain (x :: more ++ [Bytes.nul])
    have hbuffer : restBuffer c h = b :: (stuffline c.line
        (before ++ Bytes.nul :: (x :: more ++ [Bytes.nul]))).mem.drop (before.length + 1) := by
      rw [restBuffer, if_neg (mt hzero.mp hnil), hput, headBuffer, hdrop, htake, hs.length]
    refine ⟨fun hok => ?_, fun hnot => ?_⟩
    · rw [hbuffer, hmem.1 (hok hnil)]
      rfl
    · rw [hbuffer, hmem.2 fun hok => hnot fun _ => hok]
      rfl

/-- Nothing that is written has a carriage return, when they are stripped. -/
theorem cr_not_mem_sinkLine (hstrip : c.line.stripcr = true) (w : Bytes) :
    Bytes.cr ∉ sinkLine c.line w := by
  have hdot : Bytes.cr ∉ stuffing c.line (ended c.line w) := by
    unfold stuffing
    split <;> decide
  intro hmem
  simp only [sinkLine, stripCr, hstrip, if_true, List.mem_append, hdot, false_or] at hmem
  simp at hmem

/-! ## When a line feed was put into the buffer -/

/-- The bytes that are neither line ends nor zero. -/
def solid (b : UInt8) : Bool := b ≠ Bytes.cr && b ≠ Bytes.lf && b ≠ Bytes.nul

/-- The line-end options leave them alone. -/
theorem solid_written (ctl : LineCtl) {w : Bytes} (hw : w.getLast? = some Bytes.lf) :
    (stripCr ctl (ended ctl w)).countP solid = w.countP solid := by
  obtain ⟨k, rfl⟩ := List.getLast?_eq_some_iff.mp hw
  obtain ⟨e, hended, he, -⟩ := ended_lineEnd ctl k
  have hkept : ((k ++ e).filter (· ≠ Bytes.cr)).countP solid = (k ++ e).countP solid := by
    rw [List.countP_filter]
    congr 1
    funext b
    by_cases hb : b = Bytes.cr <;> simp [solid, hb]
  have hends : (k ++ e).countP solid = (k ++ [Bytes.lf]).countP solid := by
    rw [List.countP_append, List.countP_append]
    rcases he with rfl | rfl <;> rfl
  rw [hended, stripCr]
  split
  · rw [hkept, hends]
  · exact hends

theorem getLast?_written (ctl : LineCtl) {w : Bytes} (hw : w.getLast? = some Bytes.lf) :
    (stripCr ctl (ended ctl w)).getLast? = some Bytes.lf := by
  obtain ⟨k, rfl⟩ := List.getLast?_eq_some_iff.mp hw
  obtain ⟨e, hended, he, -⟩ := ended_lineEnd ctl k
  have hlf : Bytes.lf ≠ Bytes.cr := by decide
  rw [hended, stripCr]
  split
  · rw [List.filter_append]
    apply getLast?_append_of_some
    rcases he with rfl | rfl <;> rfl
  · apply getLast?_append_of_some
    rcases he with rfl | rfl <;> rfl

/-- The lead of a piece is taken off again. -/
theorem pieceLead_le_dots (w s : Bytes) :
    (pieceLead w).length ≤ (lfLines (pieceLead w ++ s)).countP dotted := by
  unfold pieceLead
  split
  · rw [countP_dotted, if_pos (by rfl)]
    exact Nat.le_add_left _ _
  · exact Nat.zero_le _

theorem solid_pieceLead (w : Bytes) : (pieceLead w).countP solid = (pieceLead w).length := by
  unfold pieceLead
  split <;> rfl

/-- A line feed that had to be put behind the first piece shows in what the listener reads. -/
theorem not_read_of_forced (hc : StuffsHeaders c) {h before rest own₁ own₂ : Bytes}
    (hs : Split h before rest) (hh : h.getLast? = some Bytes.lf)
    (hcr : c.line.stripcr = true → Bytes.cr ∉ h) (hown : Terminated own₁)
    (hforced : ¬ (before ≠ [] → c.line.forcecr = true → endsCrlf before)) :
    receive (headWritten c h ++ (own₁ ++ (restWritten c h ++ own₂))) ≠
      before ++ (own₁ ++ (rest ++ own₂)) := by
  have hne : before ≠ [] := fun hnil => hforced fun hne => absurd hnil hne
  have hnot : ¬ (c.line.forcecr = true → endsCrlf before) := fun hok => hforced fun _ => hok
  have hbefore := hs.before_ends.resolve_left hne
  obtain ⟨b, x, hrest, hxlf, hxnul⟩ := hs.rest_second hne
  have hbuffer := (restBuffer_eq hc hs).2 hforced
  generalize rest.drop 2 = more at hrest hbuffer
  -- what is found of the rest, with the zero byte in place of `x`
  have hmore : (b :: Bytes.nul :: more).getLast? = some Bytes.lf := by
    rw [← hs.append, hrest] at hh
    cases more with
    | nil =>
      rw [getLast?_append_of_some (x := x) rfl] at hh
      exact absurd (Option.some.inj hh) hxlf
    | cons y more =>
      simpa [List.getLast?_append, List.getLast?_cons_cons] using hh
  obtain ⟨lost, hfound, hlast, -, -⟩ := huntLine_spec hmore
  have hrestWritten : restWritten c h =
      pieceLead (huntLine (b :: Bytes.nul :: more ++ [Bytes.nul])) ++
        stripCr c.line (ended c.line (huntLine (b :: Bytes.nul :: more ++ [Bytes.nul]))) := by
    rw [restWritten, hbuffer, hrest, ← sinkLine_piece hc.delimited hc.kind hlast]
    rfl
  generalize huntLine (b :: Bytes.nul :: more ++ [Bytes.nul]) = found at *
  have hhead : headWritten c h = pieceLead before ++ stripCr c.line (ended c.line before) := by
    rw [headWritten_eq hs, if_neg hne, sinkLine_piece hc.delimited hc.kind hbefore]
  obtain ⟨k, rfl⟩ := List.getLast?_eq_some_iff.mp hbefore
  have hcrk : c.line.stripcr = true → Bytes.cr ∉ k := fun hstrip hmem =>
    hcr hstrip (by rw [← hs.append]; simp [hmem])
  obtain ⟨e, hfinal, he, hiff⟩ := stripCr_ended hcrk
  have hheadTerm : Terminated (headWritten c h) := by
    rw [hhead]
    exact .inr (getLast?_append_of_some (getLast?_written _ hbefore))
  have hrestTerm : Terminated (restWritten c h) := by
    rw [hrestWritten]
    exact .inr (getLast?_append_of_some (getLast?_written _ hlast))
  intro heq
  -- count the solid bytes on both sides
  have hsolid := congrArg (List.countP solid) heq
  have hle := countP_receive_le solid
    (headWritten c h ++ (own₁ ++ (restWritten c h ++ own₂)))
  have htaken := countP_unstuffLines (p := solid) (by decide)
    (headWritten c h ++ (own₁ ++ (restWritten c h ++ own₂)))
  rw [lfLines_append _ hheadTerm, lfLines_append _ hown, lfLines_append _ hrestTerm] at htaken
  have hdots₁ := pieceLead_le_dots (k ++ [Bytes.lf]) (stripCr c.line (ended c.line (k ++ [Bytes.lf])))
  have hdots₂ := pieceLead_le_dots found (stripCr c.line (ended c.line found))
  rw [← hhead] at hdots₁
  rw [← hrestWritten] at hdots₂
  have hsolid₁ : (headWritten c h).countP solid =
      (pieceLead (k ++ [Bytes.lf])).length + (k ++ [Bytes.lf]).countP solid := by
    rw [hhead, List.countP_append, solid_pieceLead, solid_written _ hbefore]
  have hsolid₂ : (restWritten c h).countP solid = (pieceLead found).length + found.countP solid := by
    rw [hrestWritten, List.countP_append, solid_pieceLead, solid_written _ hlast]
  have hlost : found.countP solid ≤ (b :: Bytes.nul :: more).countP solid := by
    rw [hfound, List.countP_append]
    exact Nat.le_add_right _ _
  have hnul : (b :: Bytes.nul :: more).countP solid + (if solid x then 1 else 0) =
      rest.countP solid := by
    have hz : solid Bytes.nul = false := rfl
    rw [hrest]
    simp only [List.countP_cons, hz]
    simp
    omega
  simp only [List.countP_append] at hsolid hsolid₁ hle htaken
  cases hstrip : c.line.stripcr with
  | true =>
    -- the byte under the zero byte is missing
    have hxcr : x ≠ Bytes.cr := by
      rintro rfl
      exact hcr hstrip (by rw [← hs.append, hrest]; simp)
    have hx : solid x = true := by simp [solid, hxcr, hxlf, hxnul]
    rw [hx, if_pos rfl] at hnul
    omega
  | false =>
    -- the first piece reads with a CRLF at its end
    have hcrlf : e = Bytes.crlf := by
      apply he.resolve_left
      intro heq
      apply hnot
      intro hforce
      rw [endsCrlf, List.dropLast_concat]
      exact hiff.mp heq hforce hstrip
    rw [hfinal, hcrlf] at hhead
    have hlead := pieceLead_lineEnd k Bytes.crlf
    have hled : WellLed (pieceLead (k ++ [Bytes.lf])) (k ++ Bytes.crlf) := by
      apply hlead.countP_dotted.2.mp
      rw [← hhead]
      omega
    obtain ⟨hreads, hdot⟩ := hlead.reads hled
    rw [← hhead] at hreads hdot
    rw [receive_append _ hheadTerm hdot, hreads, List.append_assoc, List.append_assoc] at heq
    have := List.append_cancel_left heq
    exact absurd (List.cons.inj this).1 (by decide)

/-! ## The theorem -/

theorem readheaders_written_iff (hc : StuffsHeaders c) {h : Bytes}
    (hh : h.getLast? = some Bytes.lf) (hasNuls : Bool) :
    HeadersTransparent c h hasNuls (headWritten c h ++ (ownLines c.line (traceTexts c h) ++
        (restWritten c h ++ ownLines c.line (endTexts c h hasNuls)))) ↔
      HeadersIntact c.line h := by
  obtain ⟨before, rest, hs⟩ := exists_split h
  have hbefore : h.take (receivedAt h) = before := by
    rw [← hs.length, ← hs.append, List.take_left' rfl]
  have hrest : h.drop (receivedAt h) = rest := by
    rw [← hs.length, ← hs.append, List.drop_left' rfl]
  have hzero : receivedAt h ≠ 0 ↔ before ≠ [] := by
    rw [← hs.length, ne_eq, List.length_eq_zero_iff]
  obtain ⟨hterm₁, hown₁⟩ := ownLines_plain hc.delimited hc.kind (ownText_traceTexts c h)
  obtain ⟨-, hown₂⟩ := ownLines_plain hc.delimited hc.kind (ownText_endTexts c h hasNuls)
  have hreads₁ := reads_self hown₁
  have hreads₂ := reads_self hown₂
  rw [HeadersTransparent, hbefore, hrest]
  by_cases hkept : c.line.stripcr = true → Bytes.cr ∉ h
  swap
  · -- the carriage returns are missing
    obtain ⟨hstrip, hcr⟩ : c.line.stripcr = true ∧ Bytes.cr ∈ h := by simpa using hkept
    refine ⟨fun htransparent => ?_, fun hintact => absurd hcr (hintact.kept hstrip)⟩
    exfalso
    have hmem : Bytes.cr ∈ before ++ (ownLines c.line (traceTexts c h) ++
        (rest ++ ownLines c.line (endTexts c h hasNuls))) := by
      rw [← hs.append] at hcr
      rcases List.mem_append.mp hcr with hcr | hcr <;> simp [hcr]
    rw [← htransparent.1] at hmem
    have hown : ∀ texts, Bytes.cr ∉ ownLines c.line texts := by
      intro texts hcr
      obtain ⟨t, -, ht⟩ := List.mem_flatMap.mp hcr
      exact cr_not_mem_sinkLine hstrip _ ht
    have hhead : Bytes.cr ∉ headWritten c h := by
      unfold headWritten
      split
      · exact List.not_mem_nil
      · exact cr_not_mem_sinkLine hstrip _
    have hout := mem_of_mem_receive hmem
    simp only [List.mem_append, hown, hhead, restWritten, cr_not_mem_sinkLine hstrip, or_self] at hout
  by_cases hforced : before ≠ [] → c.line.forcecr = true → endsCrlf before
  swap
  · have hnot := @not_read_of_forced c hc h before rest _ (ownLines c.line (endTexts c h hasNuls))
      hs hh hkept hterm₁ hforced
    refine ⟨fun htransparent => absurd htransparent.1 hnot, fun hintact => ?_⟩
    refine absurd (fun hne hforce => ?_) hforced
    exact hbefore ▸ hintact.lineEnd (hzero.mpr hne) hforce
  -- both pieces are accounted for
  have hrestLast : rest.getLast? = some Bytes.lf := by
    have hne : rest ≠ [] := by
      rintro rfl
      by_cases hnil : before = []
      · rw [← hs.append, hnil] at hh
        cases hh
      · obtain ⟨b, x, hcons, -, -⟩ := hs.rest_second hnil
        cases hcons
    rw [← hs.append, List.getLast?_append] at hh
    rw [List.getLast?_eq_some_getLast hne] at hh ⊢
    exact hh
  have hcrRest : c.line.stripcr = true → Bytes.cr ∉ rest := fun hstrip hmem =>
    hkept hstrip (by rw [← hs.append]; simp [hmem])
  obtain ⟨hterm₂, haccounted₂, hiff₂⟩ := accounted_piece hc.delimited hc.kind hrestLast hcrRest
  have hrestWritten : restWritten c h = sinkLine c.line (huntLine (rest ++ [Bytes.nul])) := by
    rw [restWritten, (restBuffer_eq hc hs).1 hforced]
  rw [← hrestWritten] at hterm₂ haccounted₂ hiff₂
  have hhead : Terminated (headWritten c h) ∧ Accounted (headWritten c h) before ∧
      (Reads (headWritten c h) before ↔ ∀ l ∈ (lfLines before).tail, dotted l = false) := by
    rw [headWritten_eq hs]
    by_cases hnil : before = []
    · rw [if_pos hnil, hnil]
      exact ⟨.inl rfl, accounted_nil, by simp [Reads, unstuffLines, lfLines, NoLoneDot]⟩
    · rw [if_neg hnil]
      have hlast := hs.before_ends.resolve_left hnil
      have hcrBefore : c.line.stripcr = true → Bytes.cr ∉ before := fun hstrip hmem =>
        hkept hstrip (by rw [← hs.append]; simp [hmem])
      have hpiece := accounted_piece hc.delimited hc.kind hlast hcrBefore
      rw [huntLine_plain hlast hs.before_plain] at hpiece
      refine ⟨hpiece.1, hpiece.2.1, hpiece.2.2.trans ⟨fun hintact => hintact.inner, ?_⟩⟩
      intro hinner
      refine ⟨fun hcut => hs.before_plain (hcut.subset (by simp)), hinner, ?_⟩
      exact fun hforce _ => hforced hnil hforce
  obtain ⟨hterm₀, haccounted₀, hiff₀⟩ := hhead
  have hown₂' := hreads₂.accounted
  have htail := haccounted₂.append hterm₂ hown₂'
  rw [receive_iff, reads_append_iff hterm₀ haccounted₀
      (hreads₁.accounted.append hterm₁ htail),
    reads_append_iff hterm₁ hreads₁.accounted htail, reads_append_iff hterm₂ haccounted₂ hown₂',
    hiff₀, hiff₂]
  constructor
  · rintro ⟨hinner, -, hintact, -⟩
    exact ⟨hkept, hbefore ▸ hinner, fun hne => hbefore ▸ hforced (hzero.mp hne), hrest ▸ hintact⟩
  · intro hintact
    exact ⟨hbefore ▸ hintact.head, hreads₁, hrest ▸ hintact.rest, hreads₂⟩

/-- Headers that were shipped reach the listener unchanged exactly if no line but the first of
each of their pieces starts with a dot, the pieces are not cut off at a zero byte, and their
line ends are kept. -/
theorem readheaders_transparent_iff (hc : StuffsHeaders c) {stream h out : Bytes} {fetchlen : Int}
    {status : Ps} {hasNuls : Bool}
    (hship : readheaders c stream fetchlen = .shipped status h hasNuls out) :
    HeadersTransparent c h hasNuls out ↔ HeadersIntact c.line h := by
  obtain ⟨hh, hout⟩ := readheaders_shipped hc hship
  rw [hout]
  exact readheaders_written_iff hc hh hasNuls

end

/-! ## A header line that starts with a dot -/

/-- A name for the examples. -/
def someName : PlainText := ⟨Bytes.lit "x", by decide⟩

def noEdit : LineEdit := ⟨id, fun _ h => h⟩

/-- An IMAP mailbox that is forwarded to an SMTP listener, without trace lines. -/
def plainHeaders : HeaderCtl where
  line := ⟨.socket, false, false, false⟩
  num := 2
  acceptBad := false
  mimedecode := false
  dropdelivered := false
  dropstatus := false
  rewrite := false
  invisible := true
  user := someName
  fetchmailhost := someName
  remotename := someName
  truename := someName
  unMimeHeader := noEdit
  replyHack := noEdit
  nxtaddr _ := none
  duplicate _ := false
  address _ := ⟨.success, ⟨someName, none, someName, someName, someName, none, .several, someName⟩,
    ⟨none, [], 0⟩⟩
  accepts _ := true

theorem stuffsHeaders_plainHeaders : StuffsHeaders plainHeaders := ⟨rfl, rfl, fun _ => rfl⟩

/-- Headers with a line that starts with a dot. -/
def dottedHeaders : Bytes := Bytes.lit "A: b\r\n.x: y\r\n"

theorem dottedHeaders_shipped :
    readheaders plainHeaders (dottedHeaders ++ Bytes.crlf) 17 =
      .shipped .success dottedHeaders false (dottedHeaders ++ Bytes.crlf) := by
  decide

theorem dottedHeaders_not_transparent :
    ∃ status out,
      readheaders plainHeaders (dottedHeaders ++ Bytes.crlf) 17 =
        .shipped status dottedHeaders false out ∧
      ¬ HeadersTransparent plainHeaders dottedHeaders false out := by
  refine ⟨_, _, dottedHeaders_shipped, ?_⟩
  rintro ⟨hreceive, -⟩
  exact absurd hreceive (by decide)

theorem readheaders_transparent_iff_dotted :
    HeadersTransparent plainHeaders dottedHeaders false (dottedHeaders ++ Bytes.crlf) ↔
      HeadersIntact plainHeaders.line dottedHeaders :=
  readheaders_transparent_iff stuffsHeaders_plainHeaders dottedHeaders_shipped

end Fetchmail.Transact
