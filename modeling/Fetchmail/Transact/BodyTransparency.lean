import Fetchmail.Mime.QpSource
import Fetchmail.Transact.BodyFraming

/-!
# Transparency of Decoded Bodies

A quoted-printable body is decoded while it is still dot-stuffed, and what comes out is
shipped as it is, since the protocol is delimited. The units in which it is shipped are lines
joined over soft line breaks. The listener reads the encoded text exactly if every unit is
sound: decoding has produced neither a dot at the start of a line that the server has not
doubled, nor a zero byte behind a line feed, and the unit has fit into the buffer.
-/

namespace Fetchmail.Transact

open Fetchmail.Lib
open Fetchmail.Mime
open Fetchmail.Sink

/-! ## Units -/

/-- The dot ahead of a unit. -/
def unitLead : List QpLine → Bytes
  | [] => []
  | l :: _ => l.lead

/-- What is in the buffer when the lines of a unit are decoded. -/
def gathered (u : List QpLine) : Bytes := unitLead u ++ decodedLines u

/-- A soft line break in the last line does not end the unit. -/
def fits (u : List QpLine) : Bool := (gathered u).length + 201 ≤ bufSize

/-- The units of the lines `ls` when the lines `u` are in the buffer: a unit ends at a line
end that is not soft, or when the buffer is nearly full. -/
def units (u : List QpLine) : List QpLine → List (List QpLine)
  | [] => if u.isEmpty then [] else [u]
  | l :: ls => if l.soft && fits (u ++ [l]) then units (u ++ [l]) ls else (u ++ [l]) :: units [] ls

/-- The unit has no line end of its own. -/
def softEnd (u : List QpLine) : Bool := u.getLast?.any QpLine.soft

/-- The line end that is put behind a unit without one. -/
def closing (u : List QpLine) : Bytes := if softEnd u then [Bytes.lf] else []

/-- What `stuffline` finds in the buffer. -/
def found (u : List QpLine) : Bytes := huntLine (gathered u ++ closing u ++ [Bytes.nul])

/-- A unit that gets to the listener as it is. -/
structure Sound (u : List QpLine) : Prop where
  /-- it has not filled the buffer -/
  hard : softEnd u = false
  /-- it is not cut off at a zero byte -/
  whole : ¬ [Bytes.lf, Bytes.nul] <:+: decodedLines u
  /-- no line of it starts with a dot that is not stuffed -/
  led : WellLed (unitLead u) (decodedLines u)

/-! ## Facts about units -/

theorem decodedLines_append (u v : List QpLine) :
    decodedLines (u ++ v) = decodedLines u ++ decodedLines v :=
  List.flatMap_append

theorem flatMap_units (u ls : List QpLine) :
    (units u ls).flatMap decodedLines = decodedLines (u ++ ls) := by
  induction ls generalizing u with
  | nil =>
    cases u with
    | nil => rfl
    | cons l u => simp [units]
  | cons l ls ih =>
    have hassoc : u ++ l :: ls = u ++ [l] ++ ls := by simp
    rw [units, hassoc]
    split
    · exact ih _
    · rw [List.flatMap_cons, ih, decodedLines_append (u ++ [l]), List.nil_append]

theorem ne_nil_of_mem_units {u ls v : List QpLine} (h : v ∈ units u ls) : v ≠ [] := by
  induction ls generalizing u with
  | nil =>
    cases u with
    | nil => simp [units] at h
    | cons l u =>
      simp only [units, List.isEmpty_cons, Bool.false_eq_true, if_false, List.mem_singleton] at h
      simp [h]
  | cons l ls ih =>
    rw [units] at h
    split at h
    · exact ih h
    · rcases List.mem_cons.mp h with rfl | h
      · simp
      · exact ih h

theorem unitLead_cases (u : List QpLine) : Lead (unitLead u) (decodedLines u) := by
  cases u with
  | nil => exact .inl rfl
  | cons l u => exact Lead.append l.lead_cases _

theorem length_unitLead_le (u : List QpLine) : (unitLead u).length ≤ 1 := by
  rcases unitLead_cases u with h | ⟨h, -⟩ <;> simp [h]

/-- Only the first line of a unit has a dot ahead. -/
theorem gathered_concat (u : List QpLine) (l : QpLine) :
    gathered (u ++ [l]) =
      gathered u ++ ((if u.isEmpty then l.lead else []) ++ l.decoded) := by
  cases u with
  | nil => simp [gathered, unitLead, decodedLines]
  | cons l' u => simp [gathered, unitLead, decodedLines]

theorem softEnd_concat (u : List QpLine) (l : QpLine) : softEnd (u ++ [l]) = l.soft := by
  simp [softEnd]

/-- A unit with its line end ends in a line feed. -/
theorem getLast?_closed {u : List QpLine} (h : u ≠ []) :
    (gathered u ++ closing u).getLast? = some Bytes.lf := by
  obtain ⟨init, l, rfl⟩ : ∃ init l, u = init ++ [l] :=
    ⟨u.dropLast, u.getLast h, (List.dropLast_concat_getLast h).symm⟩
  rw [closing, softEnd_concat]
  cases hsoft : l.soft with
  | true => simp [List.getLast?_append]
  | false => simp [gathered_concat, QpLine.decoded, hsoft, Bytes.crlf, List.getLast?_append]

/-! ## One line -/

/-- The state of the decoder for a text of a single part that is quoted-printable. -/
def decoding : MimeState := ⟨.data, [], true, true⟩

/-- The settings that the transparency is about. -/
structure DecodesBody (c : BodyCtl) : Prop where
  delimited : c.line.delimited = true
  kind : c.line.kind = .socket
  forward : c.forward = true
  decode : c.decode = true
  accepts : ∀ out, c.accepts out = true

/-- The loop between two reads, with the lines `u` in the buffer. -/
structure Holding (u : List QpLine) (s : BodyLoop) : Prop where
  taken : s.mem.take s.off = gathered u
  off : s.off + 201 ≤ bufSize
  soft : s.issoftline = !u.isEmpty
  size : s.mem.length = bufSize
  mime : s.mime = decoding

theorem Holding.length {u : List QpLine} {s : BodyLoop} (h : Holding u s) :
    (gathered u).length = s.off := by
  have hoff := h.off
  rw [← h.taken, List.length_take_of_le (by rw [h.size]; omega)]

theorem cstr_line {w tail : Bytes} (h : Bytes.nul ∉ w) :
    Bytes.cstr (w ++ Bytes.nul :: tail) = w := by
  have hall : ∀ b ∈ w, (b ≠ Bytes.nul) := fun b hb heq => h (heq ▸ hb)
  rw [Bytes.cstr, List.takeWhile_append_of_pos (by simpa using hall)]
  simp

theorem looksLikeEnd_wire (l : QpLine) : looksLikeEnd l.wire = false := by
  have hlen := l.length_wire_le
  have hsize : pieceSize = 8191 := rfl
  apply (clean_short (by omega)).mp
  apply clean_iff_length.mpr
  intro j hj hlength
  have hwire : (stuff l.text).length + 2 = l.wire.length := by simp [QpLine.wire, Bytes.crlf]
  have hmul : pieceSize ≤ pieceSize * j := Nat.le_mul_of_pos_right _ hj
  omega

/-- The buffer with a string stored behind what was in it. -/
theorem store_drop {mem s : Bytes} {off : Nat} (h : off ≤ mem.length) :
    (store mem off s).drop off = s ++ Bytes.nul :: mem.drop (off + s.length + 1) := by
  rw [store, List.append_assoc, List.drop_left' (List.length_take_of_le h)]

theorem store_take {mem s : Bytes} {off : Nat} (h : off ≤ mem.length) :
    (store mem off s).take off = mem.take off := by
  rw [store, List.append_assoc, List.take_left' (List.length_take_of_le h)]

/-- What the decoder has made of a line of the unit. -/
structure DecodedLine (u : List QpLine) (s d : BodyLoop) : Prop where
  mem : ∃ tail, d.mem =
    gathered u ++ (if softEnd u && !fits u then [Bytes.lf] else []) ++ Bytes.nul :: tail
  size : d.mem.length = bufSize
  soft : d.issoftline = (softEnd u && fits u)
  off : softEnd u = true → fits u = true → d.off = (gathered u).length
  mime : d.mime = decoding
  stream : d.stream = s.stream
  out : d.out = s.out

theorem length_gathered_concat_le (u : List QpLine) (l : QpLine) :
    (gathered (u ++ [l])).length ≤ (gathered u).length + 79 := by
  have hlead := l.length_lead_le
  have hdecoded := l.length_decoded_le
  rw [gathered_concat, List.length_append, List.length_append]
  split
  · omega
  · rw [List.length_nil]
    omega

/-- The decoder on a line that comes to those in the buffer. -/
theorem doOneQPLine_unit (u : List QpLine) (l : QpLine) :
    gathered u ++ (doOneQPLine true (!u.isEmpty) l.wire).text = gathered (u ++ [l]) ∧
      (doOneQPLine true (!u.isEmpty) l.wire).soft = l.soft := by
  rw [gathered_concat]
  cases u with
  | nil =>
    obtain ⟨htext, hsoft⟩ := doOneQPLine_first l
    refine ⟨?_, hsoft⟩
    show gathered [] ++ (doOneQPLine true false l.wire).text = gathered [] ++ (l.lead ++ l.decoded)
    rw [htext]
  | cons l' u =>
    have hnext := doOneQPLine_next l
    exact ⟨by simp [hnext], by simp [hnext]⟩

/-- **Decoding.** A line is decoded behind what is in the buffer. -/
theorem decodeLine_line {c : BodyCtl} (hc : DecodesBody c) {u : List QpLine} {s : BodyLoop}
    (hs : Holding u s) (l : QpLine) (stream : Bytes) (len msglen : Int) :
    DecodedLine (u ++ [l]) { s with stream := stream }
      (decodeLine c { s with
        stream := stream, mem := store s.mem s.off l.wire, len := len, msglen := msglen }) := by
  have hoff := hs.off
  have hsize := hs.size
  have hlength := hs.length
  have hwire := l.length_wire_le
  have hgathered := length_gathered_concat_le u l
  have hbuf : bufSize = 8196 := rfl
  have hle : s.off ≤ s.mem.length := by omega
  have hmem : (store s.mem s.off l.wire).length = bufSize := by
    rw [length_store (by omega), hsize]
  -- what the decoder sees, and what it makes of it
  have hstr : Bytes.cstr ((store s.mem s.off l.wire).drop s.off) = l.wire := by
    rw [store_drop hle, cstr_line l.nul_not_mem_wire]
  have hdecode : unMimeBodyline c.bodyHeader c.line.delimited s.issoftline s.mime l.wire =
      (doOneQPLine true (!u.isEmpty) l.wire, decoding) := by
    rw [hs.mime, hs.soft, hc.delimited]
    rfl
  obtain ⟨htext, hsoft⟩ := doOneQPLine_unit u l
  have hadvance := @doOneQPLine_advance true (!u.isEmpty) l.wire
  generalize doOneQPLine true (!u.isEmpty) l.wire = r at hdecode htext hsoft hadvance
  have htextlen := congrArg List.length htext
  rw [List.length_append] at htextlen
  have hstored : store (store s.mem s.off l.wire) s.off r.text = gathered (u ++ [l]) ++
      Bytes.nul :: (store s.mem s.off l.wire).drop (s.off + r.text.length + 1) := by
    rw [store, store_take hle, hs.taken, htext]
  have hstoredlen : (store (store s.mem s.off l.wire) s.off r.text).length = bufSize := by
    rw [length_store (by omega), hmem]
  simp only [decodeLine, hc.decode, if_true, hstr, hdecode]
  generalize hm : store (store s.mem s.off l.wire) s.off r.text = m at hstored hstoredlen
  cases hl : l.soft with
  | false =>
    -- the line end is kept
    rw [hl] at hsoft
    simp only [hsoft, Bool.false_eq_true, false_and, if_false]
    constructor <;> simp [softEnd_concat, hl]
    · exact ⟨_, hstored⟩
    · exact hstoredlen
  | true =>
    rw [hl] at hsoft
    have hr : s.off + r.advance = (gathered (u ++ [l])).length := by
      rw [hadvance hsoft]
      omega
    simp only [hsoft, true_and, hr]
    by_cases hfits : fits (u ++ [l]) = true
    · have hroom : ¬ bufSize < (gathered (u ++ [l])).length + 1 + 200 := by
        simp only [fits, decide_eq_true_eq] at hfits
        omega
      rw [if_neg hroom]
      constructor <;> simp [softEnd_concat, hl, hfits]
      · exact ⟨_, hstored⟩
      · exact hstoredlen
    · -- the soft line break is ignored
      have hroom : bufSize < (gathered (u ++ [l])).length + 1 + 200 := by
        simp only [fits, decide_eq_true_eq] at hfits
        omega
      rw [if_pos hroom]
      constructor <;> simp [softEnd_concat, hl, hfits]
      · have htake : m.take (gathered (u ++ [l])).length = gathered (u ++ [l]) := by
          rw [hstored, List.take_left' rfl]
        refine ⟨m.drop ((gathered (u ++ [l])).length + 1 + 1), ?_⟩
        simp [store, htake]
      · rw [length_store (by rw [hstoredlen, List.length_singleton]; omega), hstoredlen]

/-- Shipping ends a unit. -/
theorem shipLine_unit {c : BodyCtl} (hc : DecodesBody c) {u : List QpLine} (hne : u ≠ [])
    {s d : BodyLoop} (hd : DecodedLine u s d) (hend : (softEnd u && fits u) = false)
    (hlen : (gathered u).length ≤ bufSize - 10) :
    ∃ s', shipLine c d = .more s' ∧ Holding [] s' ∧ s'.stream = s.stream ∧
      s'.out = s.out ++ sinkLine c.line (found u) := by
  obtain ⟨tail, hmem⟩ := hd.mem
  have hclosing : (if softEnd u && !fits u then [Bytes.lf] else []) = closing u := by
    unfold closing
    cases hsoft : softEnd u <;> cases hfits : fits u <;> simp_all
  rw [hclosing] at hmem
  have hlast := getLast?_closed hne
  have hclosinglen : (closing u).length ≤ 1 := by
    unfold closing
    split <;> simp
  have hbuf : bufSize = 8196 := rfl
  -- the guard lies behind the unit
  have hguard : ∃ tail', guardBuffer d.mem = gathered u ++ closing u ++ Bytes.nul :: tail' := by
    refine ⟨(tail.take (8192 - (gathered u ++ closing u).length)) ++
      [Bytes.cr, Bytes.lf, Bytes.nul], ?_⟩
    have htake : (gathered u ++ closing u).take 8193 = gathered u ++ closing u :=
      List.take_of_length_le (by rw [List.length_append]; omega)
    have hroom : 8193 - (gathered u ++ closing u).length =
        8192 - (gathered u ++ closing u).length + 1 := by
      rw [List.length_append]
      omega
    rw [guardBuffer, hmem, List.take_append, htake, hroom, List.take_succ_cons]
    simp
  obtain ⟨tail', htail⟩ := hguard
  have hhunt : huntLine (guardBuffer d.mem) = found u := by
    rw [htail, huntLine_tail tail' hlast, found]
  obtain ⟨rest, hfound, hfoundlast, -, -⟩ := huntLine_spec hlast
  have hfoundne : found u ≠ [] := by
    intro hnil
    rw [found] at hnil
    rw [hnil] at hfoundlast
    cases hfoundlast
  have hfoundlen : (found u).length ≤ (gathered u).length + 1 := by
    have := congrArg List.length hfound
    simp only [List.length_append] at this
    unfold found
    omega
  have hsize : (stuffline c.line (guardBuffer d.mem)).mem.length = bufSize := by
    have hended := length_ended c.line hfoundne
    have hguardlen := length_guardBuffer hd.size
    rw [length_stuffline_mem (by rwa [hhunt]) (by rw [hhunt, hguardlen]; omega), hguardlen]
  have hship : shipLine c d = .more { d with
      off := 0
      mem := (stuffline c.line (guardBuffer d.mem)).mem
      out := d.out ++ (stuffline c.line (guardBuffer d.mem)).written } := by
    simp [shipLine, rbSend, hc.forward, hc.accepts, hd.soft, hend]
  refine ⟨_, hship, ⟨rfl, by simp [bufSize], ?_, hsize, hd.mime⟩, hd.stream, ?_⟩
  · show d.issoftline = false
    rw [hd.soft, hend]
  · have hwritten : (stuffline c.line (guardBuffer d.mem)).written = sinkLine c.line (found u) := by
      rw [← hhunt]
      rfl
    show d.out ++ _ = _
    rw [hwritten, hd.out]

/-- **Step.** One line is read: it stays in the buffer, or the unit is shipped. -/
theorem runBody_qpLine {c : BodyCtl} (hc : DecodesBody c) {u : List QpLine} {s : BodyLoop}
    (hs : Holding u s) {l : QpLine} {rest : Bytes} (hstream : s.stream = l.wire ++ rest) :
    ∃ s', runBody c s = runBody c s' ∧ s'.stream = rest ∧
      if l.soft && fits (u ++ [l]) then Holding (u ++ [l]) s' ∧ s'.out = s.out
      else Holding [] s' ∧ s'.out = s.out ++ sinkLine c.line (found (u ++ [l])) := by
  have hoff := hs.off
  have hsize := hs.size
  have hlength := hs.length
  have hwire := l.length_wire_le
  have hbuf : bufSize = 8196 := rfl
  have hgathered := length_gathered_concat_le u l
  -- the line is read whole, as the room that is left is enough for it
  have hsock : sockRead (bufSize - 4 - s.off) s.stream = some (l.wire, rest) := by
    obtain ⟨text, htext, hl⟩ := l.isLine_wire
    rw [hl] at hwire
    rw [sockRead, if_neg (by omega), hstream, hl, List.append_assoc, List.singleton_append,
      readUpTo_line htext, List.take_of_length_le (by omega), List.drop_eq_nil_of_le (by omega),
      List.nil_append]
  have hclip : clipLine c s l.wire =
      (store s.mem s.off l.wire, (l.wire.length : Int), s.len - l.wire.length) := by
    simp [clipLine, hc.delimited]
  have hend : endOfBody c.line.delimited ((store s.mem s.off l.wire).drop s.off) = false := by
    rw [hc.delimited, store_drop (by omega), endOfBody_piece (.inl l.isLine_wire),
      looksLikeEnd_wire]
  have hrun := runBody_step (c := c) s (.inl hc.delimited)
  simp only [readbodyStep, hsock, hclip, hend, Bool.false_eq_true, if_false] at hrun
  have hd := decodeLine_line hc hs l rest (s.len - l.wire.length)
    (s.msglen - (if c.line.delimited = true ∧
      ((store s.mem s.off l.wire).drop s.off).head? = some Bytes.dot then 1 else 0) + l.wire.length)
  generalize decodeLine c _ = d at hrun hd
  have hsoft := hd.soft
  rw [softEnd_concat] at hsoft
  by_cases hstay : (l.soft && fits (u ++ [l])) = true
  -- a soft line break that leaves room: the decoded text stays in the buffer
  · have hship : shipLine c d = .more d := by simp [shipLine, hsoft, hstay]
    rw [hship] at hrun
    obtain ⟨hl, hfits⟩ := Bool.and_eq_true_iff.mp hstay
    obtain ⟨tail, hmem⟩ := hd.mem
    have hdoff := hd.off (by rwa [softEnd_concat]) hfits
    refine ⟨d, hrun, hd.stream, ?_⟩
    rw [if_pos hstay]
    refine ⟨⟨?_, ?_, ?_, hd.size, hd.mime⟩, hd.out⟩
    · rw [hdoff, hmem, softEnd_concat, hl, hfits]
      simp
    · rw [hdoff]
      simpa [fits] using hfits
    · rw [hsoft, hstay]
      simp
  · have hend : (softEnd (u ++ [l]) && fits (u ++ [l])) = false := by
      rw [softEnd_concat]
      simpa using hstay
    -- the lines that have been gathered are shipped as one
    obtain ⟨s', hship, hholding, hrest, hout⟩ :=
      shipLine_unit hc (by simp) hd hend (by omega)
    rw [hship] at hrun
    refine ⟨s', hrun, hrest, ?_⟩
    rw [if_neg hstay]
    exact ⟨hholding, hout⟩

/-! ## The body -/

/-- What goes to the sink for the units. -/
def shipped (ctl : LineCtl) (us : List (List QpLine)) : Bytes :=
  us.flatMap fun u => sinkLine ctl (found u)

theorem runBody_end {c : BodyCtl} (hc : DecodesBody c) {s : BodyLoop} (hs : Holding [] s)
    {rest : Bytes} (hstream : s.stream = terminator ++ rest) :
    ∃ s', runBody c s = (.success, s') ∧ s'.stream = rest ∧ s'.out = s.out := by
  have hline : IsLine terminator := ⟨[Bytes.dot, Bytes.cr], by decide, rfl⟩
  have hoff : s.off = 0 := hs.length.symm
  have hsock : sockRead (bufSize - 4 - s.off) s.stream = some (terminator, rest) := by
    rw [hoff, hstream]
    exact readUpTo_isLine hline
  have hclip : clipLine c s terminator = (store s.mem s.off terminator,
      (terminator.length : Int), s.len - terminator.length) := by
    simp [clipLine, hc.delimited]
  have hend : endOfBody c.line.delimited ((store s.mem s.off terminator).drop s.off) = true := by
    rw [hc.delimited, hoff, List.drop_zero, store_zero, endOfBody_piece (.inl hline)]
    rfl
  have hhard : s.issoftline = false := hs.soft
  have hrun := runBody_step (c := c) s (.inl hc.delimited)
  simp only [readbodyStep, hsock, hclip, hend, if_true] at hrun
  refine ⟨{ s with
    stream := rest, mem := store s.mem s.off terminator, len := s.len - terminator.length }, ?_,
    rfl, rfl⟩
  rw [hrun]
  simp [flushLine, hhard]

/-- **Run.** All lines, by induction; the lines `u` of a unit that is not complete are in the
buffer. -/
theorem runBody_units {c : BodyCtl} (hc : DecodesBody c) {rest : Bytes} {ls : List QpLine}
    (hlast : ∀ l ∈ ls.getLast?, l.soft = false) {u : List QpLine} (hu : ls = [] → u = [])
    {s : BodyLoop} (hs : Holding u s)
    (hstream : s.stream = ls.flatMap QpLine.wire ++ (terminator ++ rest)) :
    ∃ s', runBody c s = (.success, s') ∧ s'.stream = rest ∧
      s'.out = s.out ++ shipped c.line (units u ls) := by
  induction ls generalizing u s with
  -- no line is left, so no unit is open: what comes is the terminator
  | nil =>
    obtain rfl := hu rfl
    obtain ⟨s', hrun, hrest, hout⟩ := runBody_end hc hs (by simpa using hstream)
    exact ⟨s', hrun, hrest, by simpa [units, shipped] using hout⟩
  | cons l ls ih =>
    rw [List.flatMap_cons, List.append_assoc] at hstream
    obtain ⟨s₁, hrun₁, hstream₁, hstate⟩ := runBody_qpLine hc hs hstream
    have hlast' : ∀ l' ∈ ls.getLast?, l'.soft = false := by
      intro l' hl'
      apply hlast l'
      cases ls with
      | nil => simp at hl'
      | cons l'' ls => rwa [List.getLast?_cons_cons]
    rw [units]
    by_cases hstay : (l.soft && fits (u ++ [l])) = true
    · -- the unit goes on, so there is a line left
      have hne : ls = [] → u ++ [l] = [] := by
        rintro rfl
        have hsoft := hlast l rfl
        simp [hsoft] at hstay
      rw [if_pos hstay] at hstate ⊢
      obtain ⟨s₂, hrun₂, hrest₂, hout₂⟩ := ih hlast' hne hstate.1 hstream₁
      exact ⟨s₂, hrun₁.trans hrun₂, hrest₂, by rw [hout₂, hstate.2]⟩
    -- the unit is complete, and the next line begins another
    · rw [if_neg hstay] at hstate ⊢
      obtain ⟨s₂, hrun₂, hrest₂, hout₂⟩ := ih hlast' (fun _ => rfl) hstate.1 hstream₁
      refine ⟨s₂, hrun₁.trans hrun₂, hrest₂, ?_⟩
      rw [hout₂, hstate.2, List.append_assoc]
      rfl

theorem readbody_units {c : BodyCtl} (hc : DecodesBody c) (body : QpBody) (rest : Bytes)
    {mem : Bytes} (hmem : mem.length = bufSize) (len msglen : Int) :
    ∃ s', readbody c (body.wire ++ (terminator ++ rest)) mem len decoding msglen = (.success, s') ∧
      s'.stream = rest ∧ s'.out = shipped c.line (units [] body.lines) := by
  have hstart : Holding [] ⟨body.wire ++ (terminator ++ rest), mem, 0, false, len, decoding,
      msglen, []⟩ := ⟨rfl, show 0 + 201 ≤ bufSize by decide, rfl, hmem, rfl⟩
  rw [body.wire_eq_flatMap] at hstart ⊢
  obtain ⟨s', hrun, hrest, hout⟩ := runBody_units hc body.hard_last (fun _ => rfl) hstart rfl
  exact ⟨s', hrun, hrest, by simpa using hout⟩

/-! ## What a unit is to the listener -/

theorem weight_closing (u : List QpLine) : weight (closing u) = 0 := by
  unfold closing
  split <;> rfl

/-- A unit that is cut off loses weight. -/
theorem lighter_of_cut {ctl : LineCtl} {u : List QpLine} {kept rest : Bytes}
    (hcut : gathered u ++ closing u = kept ++ Bytes.nul :: rest)
    (hkept : kept.getLast? = some Bytes.lf) :
    weight (unstuffLines (ended ctl kept)) < weight (decodedLines u) := by
  obtain ⟨k, rfl⟩ := List.getLast?_eq_some_iff.mp hkept
  obtain ⟨lineEnd, hended, hlineEnd, -⟩ := ended_lineEnd ctl k
  have hnul : ∀ s, weight (Bytes.nul :: s) = weight s + 1 := fun s => by
    simp [weight, Bytes.nul, Bytes.cr, Bytes.lf]
  have hlead := unitLead_cases u
  -- the zero byte is missing, and the lead, if there is one, is taken off
  have hweight := congrArg weight hcut
  rw [gathered, weight_append, weight_closing, hlead.weight_append, weight_append, hnul,
    weight_append] at hweight
  have hkeptweight : weight (k ++ [Bytes.lf]) = weight (k ++ lineEnd) := by
    rw [weight_append, weight_append, hlineEnd.weight]
    rfl
  rw [hended]
  apply lighter_of_weight (length_unitLead_le u)
  · rcases hlead with h | ⟨h, -⟩
    · exact .inl h
    · right
      rw [gathered, h] at hcut
      cases k with
      | nil =>
        have := (List.cons.inj hcut).1
        exact absurd this (by decide)
      | cons b k =>
        have := (List.cons.inj hcut).1
        simp [dotted, ← this]
  · rw [← hkeptweight, weight_append]
    omega

/-- The lead does not make a zero byte follow a line feed. -/
theorem whole_gathered (u : List QpLine) :
    [Bytes.lf, Bytes.nul] <:+: gathered u ↔ [Bytes.lf, Bytes.nul] <:+: decodedLines u := by
  rw [gathered]
  rcases unitLead_cases u with h | ⟨h, -⟩
  · rw [h, List.nil_append]
  · have hne : ¬ [Bytes.lf, Bytes.nul] <+: Bytes.dot :: decodedLines u := by
      rw [List.cons_prefix_cons]
      exact fun hp => absurd hp.1 (by decide)
    rw [h, List.singleton_append, List.infix_cons_iff]
    exact or_iff_right hne

/-- A unit that ends in a line end of its own. -/
theorem gathered_hard {u : List QpLine} (hne : u ≠ []) (hhard : softEnd u = false) :
    ∃ w, gathered u = w ++ Bytes.crlf := by
  obtain ⟨init, l, rfl⟩ : ∃ init l, u = init ++ [l] :=
    ⟨u.dropLast, u.getLast hne, (List.dropLast_concat_getLast hne).symm⟩
  rw [softEnd_concat] at hhard
  refine ⟨gathered init ++ ((if init.isEmpty then l.lead else []) ++ l.tokens.map QpToken.value), ?_⟩
  simp [gathered_concat, QpLine.decoded, hhard]

/-- **Unit.** A unit is accounted for, and read off exactly if it is sound. -/
theorem accounted_unit {ctl : LineCtl} {u : List QpLine} (hne : u ≠ []) :
    Accounted (ended ctl (found u)) (decodedLines u) ∧
      (Reads (ended ctl (found u)) (decodedLines u) ↔ Sound u) := by
  have hlead := unitLead_cases u
  obtain ⟨rest, hfound, hlast, hrest, hwhole⟩ := huntLine_spec (getLast?_closed hne)
  have hclosed : closing u = if softEnd u then [Bytes.lf] else [] := rfl
  rcases hrest with rfl | hrest
  · -- all of the unit is shipped
    have hw := hwhole.mp rfl
    rw [List.append_nil] at hfound
    rw [found, ← hfound]
    cases hsoft : softEnd u with
    | false =>
      rw [hclosed, hsoft, if_neg Bool.false_ne_true, List.append_nil] at hw ⊢
      obtain ⟨w, hgathered⟩ := gathered_hard hne hsoft
      rw [hgathered, ended_crlf, ← hgathered, gathered]
      refine ⟨hlead.accounted.1, hlead.accounted.2.trans ?_⟩
      exact ⟨fun hled => ⟨hsoft, mt (whole_gathered u).mpr hw, hled⟩, fun hsound => hsound.led⟩
    | true =>
      -- with a line end that is not in the text
      rw [hclosed, hsoft, if_pos rfl]
      obtain ⟨lineEnd, hended, hlineEnd, -⟩ := ended_lineEnd ctl (gathered u)
      rw [hended, gathered, List.append_assoc]
      have hlonger : (decodedLines u).length < (decodedLines u ++ lineEnd).length := by
        have := hlineEnd.length_pos
        rw [List.length_append]
        omega
      obtain ⟨haccounted, hnot⟩ := (hlead.append lineEnd).accounted.1.longer
        (by rw [weight_append, hlineEnd.weight, Nat.add_zero]) hlonger
      refine ⟨haccounted, fun h => absurd h hnot, fun hsound => ?_⟩
      rw [hsound.hard] at hsoft
      cases hsoft
  · -- what follows a zero byte is lost
    obtain ⟨lost, rfl⟩ : ∃ lost, rest = Bytes.nul :: lost := List.head?_eq_some_iff.mp hrest
    have hlighter := @lighter_of_cut ctl _ _ _ hfound hlast
    refine ⟨Accounted.of_lighter hlighter, fun hreads => ?_, fun hsound => ?_⟩
    · have := congrArg weight hreads.1
      exact absurd this (Nat.ne_of_lt hlighter)
    · rw [hclosed, hsound.hard, if_neg Bool.false_ne_true, List.append_nil, whole_gathered] at hwhole
      cases hwhole.mpr hsound.whole

theorem sinkLine_unit {ctl : LineCtl} (hdelimited : ctl.delimited = true)
    (hkind : ctl.kind = .socket) (u : List QpLine) :
    sinkLine ctl (found u) = stripCr ctl (ended ctl (found u)) := by
  simp [sinkLine, stuffing, skipped, hdelimited, hkind]

/-- Units are read off exactly if each of them is sound. -/
theorem accounted_units {ctl : LineCtl} {us : List (List QpLine)} (hne : ∀ u ∈ us, u ≠ []) :
    Accounted (us.flatMap fun u => ended ctl (found u)) (us.flatMap decodedLines) ∧
      (Reads (us.flatMap fun u => ended ctl (found u)) (us.flatMap decodedLines) ↔
        ∀ u ∈ us, Sound u) := by
  induction us with
  | nil => exact ⟨accounted_nil, by simp [Reads, unstuffLines, lfLines, NoLoneDot]⟩
  | cons u us ih =>
    rw [List.forall_mem_cons] at hne
    obtain ⟨haccounted, hsound⟩ := @accounted_unit ctl u hne.1
    obtain ⟨haccounteds, hsounds⟩ := ih hne.2
    obtain ⟨rest, -, hlast, -, -⟩ := huntLine_spec (getLast?_closed hne.1)
    have hterm : Terminated (ended ctl (found u)) := terminated_ended ctl hlast
    rw [List.flatMap_cons, List.flatMap_cons, List.forall_mem_cons]
    refine ⟨haccounted.append hterm haccounteds, ?_⟩
    rw [reads_append_iff hterm haccounted haccounteds, hsound, hsounds]

/-! ## Transparency -/

/-- The listener reads the text of the body, and no line shipped is a lone dot. -/
def Transparent (body : QpBody) (r : Ps × BodyLoop) : Prop :=
  receive r.2.out = body.decoded ∧ NoLoneDot r.2.out

theorem cr_mem_decoded {body : QpBody} (hne : body.lines ≠ []) : Bytes.cr ∈ body.decoded := by
  have hmem := List.getLast_mem hne
  have hhard := body.hard_last _ (List.getLast?_eq_some_getLast hne)
  apply List.mem_flatMap.mpr
  refine ⟨_, hmem, ?_⟩
  simp [QpLine.decoded, hhard, Bytes.crlf]

/-- With carriage returns stripped there is none in what is shipped. -/
theorem cr_not_mem_shipped {ctl : LineCtl} (hdelimited : ctl.delimited = true)
    (hkind : ctl.kind = .socket) (hstrip : ctl.stripcr = true) (us : List (List QpLine)) :
    Bytes.cr ∉ shipped ctl us := by
  intro hmem
  obtain ⟨u, -, hu⟩ := List.mem_flatMap.mp hmem
  rw [sinkLine_unit hdelimited hkind, stripCr, if_pos hstrip] at hu
  simp at hu

theorem shipped_unstripped {ctl : LineCtl} (hdelimited : ctl.delimited = true)
    (hkind : ctl.kind = .socket) (hstrip : ctl.stripcr = false) (us : List (List QpLine)) :
    shipped ctl us = us.flatMap fun u => ended ctl (found u) := by
  unfold shipped
  congr 1
  funext u
  simp [sinkLine_unit hdelimited hkind, stripCr, hstrip]

/-- What the listener gets for the units of a body, without the run that ships them. -/
theorem transparent_shipped_iff {ctl : LineCtl} (hdelimited : ctl.delimited = true)
    (hkind : ctl.kind = .socket) (body : QpBody) :
    (receive (shipped ctl (units [] body.lines)) = body.decoded ∧
        NoLoneDot (shipped ctl (units [] body.lines))) ↔
      (ctl.stripcr = true → body.lines = []) ∧ ∀ u ∈ units [] body.lines, Sound u := by
  cases hstrip : ctl.stripcr with
  | false =>
    have hunits := @accounted_units ctl (units [] body.lines) fun u hu => ne_nil_of_mem_units hu
    rw [flatMap_units, List.nil_append, ← QpBody.decoded] at hunits
    rw [shipped_unstripped hdelimited hkind hstrip, receive_iff]
    simpa using hunits.2
  | true =>
    by_cases hnil : body.lines = []
    · have hdecoded : body.decoded = [] := by
        rw [QpBody.decoded, hnil]
        rfl
      rw [hdecoded, hnil]
      simp [units, shipped, receive, NoLoneDot, lfLines]
    · have hcr := cr_mem_decoded hnil
      constructor
      · rintro ⟨hreceive, -⟩
        rw [← hreceive] at hcr
        exact absurd (mem_of_mem_receive hcr) (cr_not_mem_shipped hdelimited hkind hstrip _)
      · rintro ⟨hlines, -⟩
        exact absurd (hlines rfl) hnil

/-- A decoded body reaches the listener unchanged exactly if no carriage returns are stripped
and all its units are sound. -/
theorem readbody_transparent_iff {c : BodyCtl} (hc : DecodesBody c) (body : QpBody) (rest : Bytes)
    {mem : Bytes} (hmem : mem.length = bufSize) (len msglen : Int) :
    Transparent body (readbody c (body.wire ++ (terminator ++ rest)) mem len decoding msglen) ↔
      (c.line.stripcr = true → body.lines = []) ∧ ∀ u ∈ units [] body.lines, Sound u := by
  obtain ⟨s', hrun, -, hout⟩ := readbody_units hc body rest hmem len msglen
  rw [Transparent, hrun, hout]
  exact transparent_shipped_iff hc.delimited hc.kind body

/-! ## A dot that is not stuffed -/

/-- The line `=2e`: a dot with its second digit in lower case. -/
def lowerCaseDot : QpLine where
  tokens := [.escape 2 14 false false]
  soft := false
  length_le := by decide
  blank_last := by decide

def lowerCaseBody : QpBody where
  lines := [lowerCaseDot]
  hard_last := by decide

/-- Decoding for an SMTP listener. -/
def decodedBody : BodyCtl where
  line := ⟨.socket, true, false, false⟩
  forward := true
  decode := true
  bodyHeader st s := (⟨s, s.length, false⟩, st)
  accepts _ := true

theorem decodesBody_decodedBody : DecodesBody decodedBody :=
  ⟨rfl, rfl, rfl, rfl, fun _ => rfl⟩

theorem lowerCaseBody_not_transparent :
    ¬ Transparent lowerCaseBody
      (readbody decodedBody (lowerCaseBody.wire ++ (terminator ++ []))
        (List.replicate bufSize 0) 0 decoding 0) := by
  have hmem : (List.replicate bufSize (0 : UInt8)).length = bufSize := List.length_replicate
  obtain ⟨s', hrun, -, hout⟩ := readbody_units decodesBody_decodedBody lowerCaseBody [] hmem 0 0
  rw [Transparent, hrun, hout]
  rintro ⟨-, hdot⟩
  exact absurd (hdot terminator (by decide)) (by decide)

theorem readbody_transparent_iff_lowerCase :
    Transparent lowerCaseBody
        (readbody decodedBody (lowerCaseBody.wire ++ (terminator ++ []))
          (List.replicate bufSize 0) 0 decoding 0) ↔
      (decodedBody.line.stripcr = true → lowerCaseBody.lines = []) ∧
        ∀ u ∈ units [] lowerCaseBody.lines, Sound u :=
  readbody_transparent_iff decodesBody_decodedBody lowerCaseBody [] (by simp) 0 0

end Fetchmail.Transact
