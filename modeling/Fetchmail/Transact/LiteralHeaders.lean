import Fetchmail.Transact.HeaderTransparency

/-!
# Framing of Header Literals

An IMAP server sends the headers of a message as a literal, whose length it has announced,
followed by the rest of the response line and by the completion of the command. The loop of
`readheaders` is to stop within the line in which the literal ends. It counts down the
length, but stops at any line that looks empty, and does not count the zero bytes that it
drops.

The two nested loops, over header lines and over the lines that continue them, are one loop
over the lines of the stream, `skim`; all that follows is proved of that.
-/

namespace Fetchmail.Transact

open Fetchmail.Lib
open Fetchmail.Sink

/-! ## The exchange -/

/-- What a server sends for a `FETCH` of a literal, behind the response up to the length. -/
structure LiteralExchange where
  literal : Bytes
  /-- the rest of the response line -/
  trail : Bytes
  /-- the tagged completion -/
  completion : Bytes
  trail_line : IsLine trail
  trail_plain : Bytes.nul ∉ trail
  /-- at least the closing parenthesis -/
  trail_text : ∃ b ∈ trail, b ≠ Bytes.cr ∧ b ≠ Bytes.lf
  completion_begins : ∃ b rest, completion = b :: rest ∧ b ≠ Bytes.space ∧ b ≠ Bytes.tab

/-- Everything that is sent. -/
def LiteralExchange.sent (e : LiteralExchange) : Bytes := e.literal ++ (e.trail ++ e.completion)

/-- The literal has been read, and nothing beyond the line in which it ends. -/
def LiteralExchange.ReadTo (e : LiteralExchange) (rest : Bytes) : Prop :=
  ∃ trail, trail <:+ e.trail ∧ rest = trail ++ e.completion

theorem LiteralExchange.ReadTo.length {e : LiteralExchange} {rest : Bytes} (h : e.ReadTo rest) :
    e.completion.length ≤ rest.length ∧ rest.length ≤ e.trail.length + e.completion.length := by
  obtain ⟨trail, htrail, rfl⟩ := h
  have := htrail.length_le
  rw [List.length_append]
  omega

/-- What the loop of `readheaders` leaves on the socket. -/
def headersLeft (c : HeaderCtl) (stream : Bytes) (fetchlen : Int) : Option Bytes :=
  (collectHeaders c (stream.length + 1)
    ⟨stream, fetchlen, none, false, false, false, none, false⟩).map HeaderLoop.stream

/-- A line without its zero bytes. -/
def noNuls (s : Bytes) : Bytes := s.filter (· ≠ Bytes.nul)

/-- How many zero bytes there are. -/
def nulCount (s : Bytes) : Nat := s.count Bytes.nul

/-- A line that `readheaders` takes for the end of the headers. -/
def endsHeaders (l : Bytes) : Bool := endOfHeader (noNuls l)

/-- Only the last line of the literal may look empty; if it does not, there are no more zero
bytes than the rest of the response line is long. -/
structure HeadersFramed (e : LiteralExchange) : Prop where
  inner : ∀ l ∈ (lfLines e.literal).dropLast, endsHeaders l = false
  nuls : (lfLines e.literal).getLast?.any endsHeaders = true ∨
    nulCount e.literal ≤ e.trail.length

/-! ## One loop -/

/-- Whether the next line continues the one before. -/
def continues (rest : Bytes) : Bool := rest.head? = some Bytes.space || rest.head? = some Bytes.tab

/-- The loops of `readheaders`, as far as the stream is concerned; `piece` is what has been
read of a line that does not fit into the buffer. -/
def skim (piece stream : Bytes) (remaining : Int) : Option Bytes :=
  match _hread : sockRead 8192 stream with
  | none => none
  | some (read, rest) =>
    let chunk := noNuls read
    let remaining := remaining - chunk.length
    if chunk.getLast? ≠ some Bytes.lf then skim (piece ++ chunk) rest remaining
    else if endOfHeader (piece ++ chunk) then some rest
    else if continues rest ∨ 0 < remaining then skim [] rest remaining
    else some rest
termination_by stream.length
decreasing_by
  all_goals exact sockRead_shorter _hread

theorem skim_eq (piece stream : Bytes) (remaining : Int) : skim piece stream remaining =
    match sockRead 8192 stream with
    | none => none
    | some (read, rest) =>
      if (noNuls read).getLast? ≠ some Bytes.lf then
        skim (piece ++ noNuls read) rest (remaining - (noNuls read).length)
      else if endOfHeader (piece ++ noNuls read) then some rest
      else if continues rest ∨ 0 < remaining - (noNuls read).length then
        skim [] rest (remaining - (noNuls read).length)
      else some rest := by
  rw [skim]
  split <;> simp_all

/-! ## Lines that look empty -/

/-- A line looks empty if there is nothing but carriage returns before the line feed. -/
theorem endOfHeader_iff {text : Bytes} (hlf : Bytes.lf ∉ text) :
    endOfHeader (text ++ [Bytes.lf]) = true ↔ ∀ b ∈ text, b = Bytes.cr := by
  unfold endOfHeader
  rw [decide_eq_true_eq]
  induction text with
  | nil => simp [Bytes.lf, Bytes.cr]
  | cons b text ih =>
    have hrest : Bytes.lf ∉ text := fun h => hlf (by simp [h])
    by_cases hb : b = Bytes.cr
    · simpa [hb] using ih hrest
    · have hne : b ≠ Bytes.lf := fun h => hlf (by simp [h])
      simp [hb, hne]

theorem endOfHeader_of_continues {l : Bytes} (h : continues l = true) : endOfHeader l = false := by
  cases l with
  | nil => rfl
  | cons b l =>
    have hb : b = Bytes.space ∨ b = Bytes.tab := by simpa [continues] using h
    rcases hb with rfl | rfl <;> simp [endOfHeader, Bytes.space, Bytes.tab, Bytes.cr, Bytes.lf]

theorem endOfHeader_not_lf {l : Bytes} (h : Bytes.lf ∉ l) : endOfHeader l = false := by
  unfold endOfHeader
  rw [decide_eq_false_iff_not]
  intro heq
  have hmem : Bytes.lf ∈ l.dropWhile (· = Bytes.cr) := by simp [heq]
  exact h ((List.dropWhile_sublist _).mem hmem)

/-- A line that starts with a text does not look empty, whatever the text is. -/
theorem endOfHeader_append_of_lf {a b : Bytes} (ha : a.getLast? = some Bytes.lf) (hb : b ≠ []) :
    endOfHeader (a ++ b) = false := by
  unfold endOfHeader
  rw [decide_eq_false_iff_not]
  intro heq
  obtain ⟨init, rfl⟩ : ∃ init, a = init ++ [Bytes.lf] := by
    obtain ⟨init, x, rfl⟩ := List.eq_nil_or_concat a |>.resolve_left (by rintro rfl; cases ha)
    exact ⟨init, by simpa using ha⟩
  have hlen := congrArg List.length heq
  induction init with
  | nil =>
    simp [Bytes.lf, Bytes.cr] at hlen
    exact hb hlen
  | cons x init ih =>
    by_cases hx : x = Bytes.cr
    · simp [hx] at heq hlen
      exact ih (by simp) (by simpa using heq) (by simpa using hlen)
    · simp [hx] at hlen

/-- Fixing the line end does not make a line look empty, or not. -/
theorem endOfHeader_fixLineEnd (c : HeaderCtl) (a : Bytes) {chunk : Bytes}
    (h : chunk.getLast? = some Bytes.lf) :
    endOfHeader (a ++ fixLineEnd c chunk) = endOfHeader (a ++ chunk) := by
  obtain ⟨init, rfl⟩ : ∃ init, chunk = init ++ [Bytes.lf] := by
    obtain ⟨init, x, rfl⟩ := List.eq_nil_or_concat chunk |>.resolve_left (by rintro rfl; cases h)
    exact ⟨init, by simpa using h⟩
  have hcr : ∀ s : Bytes, endOfHeader (s ++ [Bytes.cr, Bytes.lf]) = endOfHeader (s ++ [Bytes.lf]) := by
    intro s
    unfold endOfHeader
    congr 1
    induction s with
    | nil => simp [Bytes.cr, Bytes.lf]
    | cons b s ih =>
      by_cases hb : b = Bytes.cr
      · simpa [hb] using ih
      · simp [hb]
  unfold fixLineEnd
  split
  · unfold forceCr
    rw [List.dropLast_concat]
    simp only
    split
    · rfl
    · rw [← List.append_assoc, ← List.append_assoc, Bytes.crlf, hcr]
  · rfl

/-! ## The loops of the code -/

theorem processLine_stream (c : HeaderCtl) (line : Bytes) (s : HeaderLoop) :
    (processLine c line s).stream = s.stream ∧
      (processLine c line s).remaining = s.remaining := by
  have hkeep : ∀ (line : Bytes) (s : HeaderLoop), (keepLine c line s).stream = s.stream ∧
      (keepLine c line s).remaining = s.remaining := by
    intro line s
    simp only [keepLine]
    generalize (if c.rewrite = true then c.replyHack.edit line else line) = line
    split
    · split
      · split <;> exact ⟨rfl, rfl⟩
      · exact ⟨rfl, rfl⟩
    · exact ⟨rfl, rfl⟩
  simp only [processLine]
  generalize (if c.mimedecode = true then c.unMimeHeader.edit line else line) = line
  split
  · exact ⟨rfl, rfl⟩
  split
  · exact ⟨rfl, rfl⟩
  split
  · exact ⟨rfl, rfl⟩
  split
  · exact ⟨rfl, rfl⟩
  split
  · exact ⟨rfl, rfl⟩
  · exact hkeep _ _

/-- Going on after a line was read. -/
def goOn (c : HeaderCtl) (fuel : Nat) : HeaderRead → Option Bytes
  | .failed => none
  | .eoh s => some s.stream
  | .line line s => (collectHeaders c fuel (processLine c line s)).map HeaderLoop.stream

theorem collectHeaders_succ {c : HeaderCtl} (hc : c.line.delimited = false) (fuel : Nat)
    (s : HeaderLoop) : (collectHeaders c (fuel + 1) s).map HeaderLoop.stream =
      if 0 < s.remaining then goOn c fuel (readHeaderLine c (s.stream.length + 1) [] s)
      else some s.stream := by
  rw [collectHeaders]
  split
  · next h =>
    rw [if_pos (by simpa [hc] using h)]
    cases readHeaderLine c (s.stream.length + 1) [] s <;> rfl
  · next h =>
    rw [if_neg (by simpa [hc] using h)]
    rfl

theorem sockRead_head {n : Nat} {stream read rest : Bytes} (h : sockRead n stream = some (read, rest)) :
    read.head? = stream.head? := by
  have hlt := sockRead_shorter h
  unfold sockRead at h
  split at h
  · cases h
  · have happend := readUpTo_append h
    cases read with
    | nil =>
      rw [happend] at hlt
      simp at hlt
    | cons b read => rw [happend]; rfl

theorem continues_noNuls {read : Bytes} (h : continues read = true) :
    continues (noNuls read) = true := by
  cases read with
  | nil => cases h
  | cons b read =>
    have hb : b ≠ Bytes.nul := by
      rintro rfl
      simp [continues, Bytes.nul, Bytes.space, Bytes.tab] at h
    simpa [continues, noNuls, hb] using h

/-- The line in the buffer: `piece` is the part behind the last line feed, and if there is
another part, it starts with a blank. -/
structure InLine (line piece stream : Bytes) : Prop where
  split : ∃ before, line = before ++ piece ∧
    (before = [] ∨ before.getLast? = some Bytes.lf ∧
      (continues piece = true ∨ piece = [] ∧ continues stream = true))

/-- **Refinement.** The loops of the code skim the stream. -/
theorem goOn_readHeaderLine {c : HeaderCtl} (hc : c.line.delimited = false) {s : HeaderLoop}
    {line piece : Bytes} {fuel fuel' : Nat} (hline : InLine line piece s.stream)
    (hfuel : s.stream.length < fuel) (hfuel' : s.stream.length ≤ fuel') :
    goOn c fuel' (readHeaderLine c fuel line s) = skim piece s.stream s.remaining := by
  induction hn : s.stream.length using Nat.strong_induction_on
    generalizing s line piece fuel fuel' with
  | _ n ih =>
    obtain ⟨fuel, rfl⟩ : ∃ k, fuel = k + 1 := ⟨fuel - 1, by omega⟩
    rw [readHeaderLine, skim_eq]
    cases hread : sockRead 8192 s.stream with
    | none => rfl
    | some r =>
      obtain ⟨read, rest⟩ := r
      have hshorter := sockRead_shorter hread
      obtain ⟨before, rfl, hbefore⟩ := hline.split
      -- what continues a line starts with a blank
      have hblank : before = [] ∨ before.getLast? = some Bytes.lf ∧
          continues (piece ++ noNuls read) = true := by
        refine hbefore.imp_right fun hlast => ⟨hlast.1, ?_⟩
        rcases hlast.2 with hpiece | ⟨rfl, hstream⟩
        · cases piece with
          | nil => cases hpiece
          | cons b piece => exact hpiece
        · refine continues_noNuls ?_
          rw [continues, sockRead_head hread]
          exact hstream
      have hchunk : read.filter (· ≠ Bytes.nul) = noNuls read := rfl
      simp only [hchunk]
      by_cases hlf : (noNuls read).getLast? = some Bytes.lf
      · have hne : noNuls read ≠ [] := by
          intro hnil
          simp [hnil] at hlf
        simp only [hne, hlf, ne_eq, not_true_eq_false, if_false]
        have hempty : endOfHeader (before ++ piece ++ fixLineEnd c (noNuls read)) =
            endOfHeader (piece ++ noNuls read) := by
          rw [endOfHeader_fixLineEnd c _ hlf, List.append_assoc]
          rcases hblank with rfl | ⟨hbefore, hblank⟩
          · rfl
          · rw [endOfHeader_append_of_lf hbefore (by simp [hne]), endOfHeader_of_continues hblank]
        have hmessage : endOfMessage c.line.delimited
            (before ++ piece ++ fixLineEnd c (noNuls read)) = false := by simp [endOfMessage, hc]
        rw [hempty, hmessage]
        split
        · rfl
        simp only [Bool.false_eq_true, if_false]
        by_cases hcont : continues rest = true
        · have hhead : rest.head? = some Bytes.space ∨ rest.head? = some Bytes.tab := by
            simpa [continues] using hcont
          rw [if_pos hhead, if_pos (.inl hcont)]
          refine ih rest.length (hn ▸ hshorter) ⟨_, (List.append_nil _).symm, .inr ⟨?_, .inr ⟨rfl, hcont⟩⟩⟩
            (by simp only; omega) (by simp only; omega) rfl
          exact getLast?_append_of_some (getLast?_fixLineEnd c hlf)
        · have hhead : ¬ (rest.head? = some Bytes.space ∨ rest.head? = some Bytes.tab) := by
            simpa [continues] using hcont
          obtain ⟨fuel', rfl⟩ : ∃ k, fuel' = k + 1 := ⟨fuel' - 1, by omega⟩
          rw [if_neg hhead, goOn, collectHeaders_succ hc]
          have hkept := processLine_stream c (before ++ piece ++ fixLineEnd c (noNuls read)) { s with
            stream := rest, remaining := s.remaining - (noNuls read).length
            refuseMail := s.refuseMail ||
              incorrectHeader c (before ++ piece ++ fixLineEnd c (noNuls read)) }
          generalize processLine c _ _ = s' at hkept ⊢
          obtain ⟨hstream, hremaining⟩ := hkept
          simp only at hstream hremaining
          simp only [hcont, Bool.false_eq_true, false_or, hremaining]
          split
          · rw [← hremaining, ← hstream]
            exact ih _ (by rw [hstream]; omega) ⟨[], rfl, .inl rfl⟩ (Nat.lt_succ_self _)
              (by rw [hstream]; omega) rfl
          · rw [hstream]
      · simp only [hlf, ne_eq, not_false_eq_true, if_true]
        have hline' : InLine (before ++ piece ++ noNuls read) (piece ++ noNuls read) rest :=
          ⟨before, List.append_assoc _ _ _, hblank.imp_right fun h => ⟨h.1, .inl h.2⟩⟩
        split
        · next hnil =>
          simp only [hnil, List.append_nil] at hline' ⊢
          exact ih rest.length (hn ▸ hshorter) hline' (by simp only; omega) (by simp only; omega) rfl
        · exact ih rest.length (hn ▸ hshorter) hline' (by simp only; omega) (by simp only; omega) rfl

theorem headersLeft_eq {c : HeaderCtl} (hc : c.line.delimited = false) (stream : Bytes)
    (fetchlen : Int) : headersLeft c stream fetchlen =
      if 0 < fetchlen then skim [] stream fetchlen else some stream := by
  rw [headersLeft, collectHeaders_succ hc]
  split
  · exact goOn_readHeaderLine hc ⟨[], rfl, .inl rfl⟩ (Nat.lt_succ_self _) (Nat.le_refl _)
  · rfl

/-! ## One line -/

theorem noNuls_append (a b : Bytes) : noNuls (a ++ b) = noNuls a ++ noNuls b := List.filter_append ..

theorem length_noNuls (s : Bytes) : (noNuls s).length + nulCount s = s.length := by
  unfold noNuls nulCount
  induction s with
  | nil => rfl
  | cons b s ih =>
    by_cases hb : b = Bytes.nul
    · simp [hb] at ih ⊢
      omega
    · simp [hb] at ih ⊢
      omega

theorem noNuls_line (text : Bytes) : noNuls (text ++ [Bytes.lf]) = noNuls text ++ [Bytes.lf] := by
  simp [noNuls, Bytes.lf, Bytes.nul]

theorem lf_not_mem_noNuls {text : Bytes} (h : Bytes.lf ∉ text) : Bytes.lf ∉ noNuls text :=
  fun hmem => h (List.mem_filter.mp hmem).1

/-- **Step.** A line of any length is read, in pieces if it does not fit into the buffer. -/
theorem skim_line (piece text rest : Bytes) (remaining : Int) (hlf : Bytes.lf ∉ text) :
    skim piece (text ++ Bytes.lf :: rest) remaining =
      if endOfHeader (piece ++ noNuls (text ++ [Bytes.lf])) then some rest
      else if continues rest ∨ 0 < remaining - (noNuls (text ++ [Bytes.lf])).length then
        skim [] rest (remaining - (noNuls (text ++ [Bytes.lf])).length)
      else some rest := by
  -- a line that is too long for the buffer is read in pieces
  induction hn : text.length using Nat.strong_induction_on generalizing piece text remaining with
  | _ n ih =>
    have hread : sockRead 8192 (text ++ Bytes.lf :: rest) =
        some ((text ++ [Bytes.lf]).take 8191, (text ++ [Bytes.lf]).drop 8191 ++ rest) :=
      readUpTo_line hlf
    rw [skim_eq, hread]
    by_cases hlong : text.length < 8191
    · have htake : (text ++ [Bytes.lf]).take 8191 = text ++ [Bytes.lf] :=
        List.take_of_length_le (by rw [List.length_append, List.length_singleton]; omega)
      have hdrop : (text ++ [Bytes.lf]).drop 8191 = [] :=
        List.drop_eq_nil_of_le (by rw [List.length_append, List.length_singleton]; omega)
      have hlast : (noNuls (text ++ [Bytes.lf])).getLast? = some Bytes.lf := by
        rw [noNuls_line, List.getLast?_concat]
      simp only [htake, hdrop, List.nil_append, hlast, ne_eq, not_true_eq_false, if_false]
    · have hle : 8191 ≤ text.length := Nat.not_lt.mp hlong
      have htake : (text ++ [Bytes.lf]).take 8191 = text.take 8191 := List.take_append_of_le_length hle
      have hdrop : (text ++ [Bytes.lf]).drop 8191 = text.drop 8191 ++ [Bytes.lf] :=
        List.drop_append_of_le_length hle
      have hlast : (noNuls (text.take 8191)).getLast? ≠ some Bytes.lf := fun h =>
        lf_not_mem_noNuls (fun hmem => hlf (List.mem_of_mem_take hmem)) (List.mem_of_getLast? h)
      have hsplit : noNuls (text.take 8191) ++ noNuls (text.drop 8191 ++ [Bytes.lf]) =
          noNuls (text ++ [Bytes.lf]) := by
        rw [← noNuls_append, ← List.append_assoc, List.take_append_drop]
      have hlength := congrArg List.length hsplit
      rw [List.length_append] at hlength
      simp only [htake, hdrop, hlast, ne_eq, not_false_eq_true, if_true]
      rw [List.append_assoc, List.singleton_append, ih (text.drop 8191).length
        (by rw [List.length_drop]; omega) _ _ _ (fun hmem => hlf (List.mem_of_mem_drop hmem)) rfl,
        List.append_assoc, hsplit]
      have hremaining : remaining - ((noNuls (text.take 8191)).length : Int) -
          (noNuls (text.drop 8191 ++ [Bytes.lf])).length =
            remaining - (noNuls (text ++ [Bytes.lf])).length := by omega
      rw [hremaining]

/-- Skimming takes something from the stream. -/
theorem skim_shorter {piece stream rest : Bytes} {remaining : Int}
    (h : skim piece stream remaining = some rest) : rest.length < stream.length := by
  induction hn : stream.length using Nat.strong_induction_on
    generalizing piece stream remaining with
  | _ n ih =>
    rw [skim_eq] at h
    cases hread : sockRead 8192 stream with
    | none => simp [hread] at h
    | some r =>
      obtain ⟨read, next⟩ := r
      have hshorter := sockRead_shorter hread
      simp only [hread] at h
      split at h
      · have := ih next.length (hn ▸ hshorter) h rfl
        omega
      split at h
      · cases h
        omega
      split at h
      · have := ih next.length (hn ▸ hshorter) h rfl
        omega
      · cases h
        omega

/-! ## The literal -/

section

variable (e : LiteralExchange)

/-- Skimming stops within the line in which the literal ends. -/
def Stops (stream : Bytes) (remaining : Int) : Prop :=
  ∃ rest, skim [] stream remaining = some rest ∧ e.ReadTo rest

theorem not_continues_completion : continues e.completion = false := by
  obtain ⟨b, rest, hcompletion, hspace, htab⟩ := e.completion_begins
  simp [hcompletion, continues, hspace, htab]

theorem readTo_completion : e.ReadTo e.completion := ⟨[], List.nil_suffix, rfl⟩

theorem readTo_trail : e.ReadTo (e.trail ++ e.completion) := ⟨e.trail, List.suffix_rfl, rfl⟩

/-- The end of the literal, with what the server puts behind it on the line. -/
theorem stops_trail_iff {front : Bytes} (hlf : Bytes.lf ∉ front) (remaining : Int) :
    Stops e (front ++ (e.trail ++ e.completion)) remaining ↔
      remaining - (noNuls front).length ≤ e.trail.length := by
  obtain ⟨text, htext, htrail⟩ := e.trail_line
  have hplain : noNuls e.trail = e.trail := by
    refine List.filter_eq_self.mpr fun b hb => ?_
    rw [decide_eq_true_eq]
    rintro rfl
    exact e.trail_plain hb
  have hstream : front ++ (e.trail ++ e.completion) =
      (front ++ text) ++ Bytes.lf :: e.completion := by simp [htrail]
  have hline : noNuls (front ++ text ++ [Bytes.lf]) = noNuls front ++ e.trail := by
    rw [List.append_assoc, ← htrail, noNuls_append, hplain]
  -- the text behind the literal is no blank line
  have hnoEnd : endOfHeader ([] ++ noNuls (front ++ text ++ [Bytes.lf])) = false := by
    rw [← Bool.not_eq_true, List.nil_append, noNuls_line,
      endOfHeader_iff (lf_not_mem_noNuls (by simp [hlf, htext]))]
    intro hall
    obtain ⟨b, hb, hcr, hbl⟩ := e.trail_text
    have hmem : b ∈ text := by
      rw [htrail] at hb
      simpa [hbl] using hb
    have hnul : b ≠ Bytes.nul := by
      rintro rfl
      exact e.trail_plain hb
    refine hcr (hall b ?_)
    rw [noNuls_append]
    exact List.mem_append_right _ (List.mem_filter.mpr ⟨hmem, by simpa using hnul⟩)
  rw [Stops, hstream, skim_line _ _ _ _ (by simp [hlf, htext]), hnoEnd, hline]
  simp only [Bool.false_eq_true, if_false, not_continues_completion, false_or, List.length_append]
  -- something is left of the literal, and the completion is skimmed, or it is left
  split
  · next hmore =>
    constructor
    · rintro ⟨rest, hskim, hread⟩
      have hshorter := skim_shorter hskim
      have hlength := hread.length
      omega
    · intro hle
      push_cast at hmore
      omega
  · next hdone =>
    push_cast at hdone
    exact ⟨fun _ => by omega, fun _ => ⟨_, rfl, readTo_completion e⟩⟩

theorem lfLines_unfinished {s : Bytes} (hne : s ≠ []) (hlf : Bytes.lf ∉ s) : lfLines s = [s] := by
  induction s with
  | nil => exact absurd rfl hne
  | cons b s ih =>
    have hb : b ≠ Bytes.lf := fun h => hlf (by simp [h])
    have hs : Bytes.lf ∉ s := fun h => hlf (by simp [h])
    rw [lfLines_cons hb]
    by_cases hnil : s = []
    · simp [hnil, lfLines]
    · simp [ih hnil hs]

/-- **Run.** What is left of the literal is read; `z` zero bytes have been dropped. -/
theorem stops_iff (todo : Bytes) (z : Nat) (hne : todo ≠ []) :
    Stops e (todo ++ (e.trail ++ e.completion)) (todo.length + z) ↔
      (∀ l ∈ (lfLines todo).dropLast, endsHeaders l = false) ∧
        ((lfLines todo).getLast?.any endsHeaders = true ∨
          z + nulCount todo ≤ e.trail.length) := by
  induction hn : todo.length using Nat.strong_induction_on generalizing todo z with
  | _ n ih =>
    by_cases hlf : Bytes.lf ∈ todo
    · obtain ⟨text, rest, htext, rfl⟩ := exists_line_append hlf
      have hstream : text ++ Bytes.lf :: rest ++ (e.trail ++ e.completion) =
          text ++ Bytes.lf :: (rest ++ (e.trail ++ e.completion)) := by simp
      have hsum := length_noNuls (text ++ [Bytes.lf])
      have hnuls : nulCount (text ++ Bytes.lf :: rest) =
          nulCount (text ++ [Bytes.lf]) + nulCount rest := by
        rw [List.append_cons, nulCount, List.count_append]
        rfl
      have hremaining : ((text ++ Bytes.lf :: rest).length : Int) + z -
          (noNuls (text ++ [Bytes.lf])).length =
            rest.length + (z + nulCount (text ++ [Bytes.lf]) : Nat) := by
        rw [List.length_append, List.length_singleton] at hsum
        rw [List.length_append, List.length_cons]
        omega
      rw [← hn, Stops, hstream, skim_line _ _ _ _ htext, hremaining, lfLines_line_append rest htext,
        List.nil_append, hnuls]
      change (∃ r, (if endsHeaders (text ++ [Bytes.lf]) = true then _ else _) = some r ∧ _) ↔ _
      by_cases hrest : rest = []
      · subst hrest
        cases hends : endsHeaders (text ++ [Bytes.lf]) with
        | true =>
          simp only [if_true, List.nil_append, lfLines, List.dropLast_singleton,
            List.getLast?_singleton, Option.any_some, hends, List.not_mem_nil, false_imp_iff,
            implies_true, true_or, and_self, iff_true]
          exact ⟨_, rfl, readTo_trail e⟩
        | false =>
          have htrail := stops_trail_iff e List.not_mem_nil
            ((z + nulCount (text ++ [Bytes.lf]) : Nat) : Int)
          simp only [Bool.false_eq_true, if_false, List.nil_append, lfLines,
            List.dropLast_singleton, List.getLast?_singleton, Option.any_some, hends,
            List.not_mem_nil, false_imp_iff, implies_true, true_and, false_or, List.length_nil]
          rw [Int.natCast_zero, Int.zero_add]
          split
          · refine htrail.trans ?_
            simp [noNuls, nulCount]
            omega
          · next hdone =>
            push_cast at hdone
            refine ⟨fun _ => ?_, fun _ => ⟨_, rfl, readTo_trail e⟩⟩
            simp only [nulCount, List.count_nil] at hdone ⊢
            omega
      · obtain ⟨l, ls, hlines⟩ := List.exists_cons_of_ne_nil (mt lfLines_eq_nil.mp hrest)
        have hlength := List.length_pos_iff.mpr hrest
        cases hends : endsHeaders (text ++ [Bytes.lf]) with
        | true =>
          -- the headers end too early
          simp only [if_true, hlines, List.dropLast_cons_cons, List.mem_cons, forall_eq_or_imp, hends]
          constructor
          · rintro ⟨r, hr, hread⟩
            cases hr
            have := hread.length
            rw [List.length_append, List.length_append] at this
            omega
          · rintro ⟨⟨hfalse, -⟩, -⟩
            cases hfalse
        | false =>
          have hrec := ih rest.length (by rw [← hn, List.length_append, List.length_cons]; omega)
            rest (z + nulCount (text ++ [Bytes.lf])) hrest rfl
          simp only [Bool.false_eq_true, if_false]
          rw [if_pos (.inr (by omega))]
          refine hrec.trans ?_
          rw [hlines, List.dropLast_cons_cons, List.getLast?_cons_cons, Nat.add_assoc]
          simp [hends]
    · -- the literal ends without a line feed
      have hlines := lfLines_unfinished hne hlf
      have hends : endsHeaders todo = false :=
        endOfHeader_not_lf (lf_not_mem_noNuls hlf)
      have hlength := length_noNuls todo
      rw [stops_trail_iff e hlf, hlines]
      simp [hends]
      omega

/-- The loop of `readheaders` stops within the line in which the literal ends, if and only if
the literal is framed by its lines as well. -/
theorem headersLeft_iff {c : HeaderCtl} (hc : c.line.delimited = false) :
    (∃ rest, headersLeft c e.sent e.literal.length = some rest ∧ e.ReadTo rest) ↔
      HeadersFramed e := by
  rw [headersLeft_eq hc]
  by_cases hnil : e.literal = []
  · have hframed : HeadersFramed e := by
      constructor <;> simp [hnil, lfLines, nulCount]
    simp only [hnil, List.length_nil, Int.natCast_zero, Int.lt_irrefl, if_false, hframed, iff_true]
    refine ⟨_, rfl, ?_⟩
    rw [LiteralExchange.sent, hnil]
    exact readTo_trail e
  · have hlength := List.length_pos_iff.mpr hnil
    have hstops := stops_iff e e.literal 0 hnil
    rw [Int.natCast_zero, Int.add_zero, Nat.zero_add] at hstops
    rw [if_pos (by omega)]
    refine hstops.trans ⟨fun h => ⟨h.1, h.2⟩, fun h => ⟨h.inner, h.nuls⟩⟩

end

end Fetchmail.Transact
