import Fetchmail.Sink.Batch

/-!
# Batches Are Sound up to an Interruption

Each operation on the sink either writes its text as a whole or leaves a part of it behind,
and then a write has failed. From the lemmas about the operations follows what a message adds
to the batch: nothing, a transaction, or something that ends no message. Only the last is a
danger, and only for a message that comes after it.
-/

namespace Fetchmail.Sink.Bsmtp

open Fetchmail.Lib

/-! ## Writing -/

/-- The text has been written, with so many writes. -/
structure Wrote (b b' : Batch) (text : Bytes) (writes : Nat) : Prop where
  octets : b'.octets = b.octets ++ text
  sinkfp : b'.sinkfp = b.sinkfp
  ops : b'.ops = b.ops + writes

/-- One of so many writes has failed, and this much has been written. -/
structure Failed (e : Disk) (b b' : Batch) (junk : Bytes) (writes : Nat) : Prop where
  octets : b'.octets = b.octets ++ junk
  sinkfp : b'.sinkfp = some true
  fault : ∃ n, b.ops ≤ n ∧ n < b.ops + writes ∧ e.fault n ≠ none

section

variable {c : BsmtpCtl} {e : Disk} {b b₁ b₂ : Batch} {s t : Bytes} {k l : Nat}

theorem Wrote.trans (h : Wrote b b₁ s k) (h' : Wrote b₁ b₂ t l) : Wrote b b₂ (s ++ t) (k + l) where
  octets := by rw [h'.octets, h.octets, List.append_assoc]
  sinkfp := h'.sinkfp.trans h.sinkfp
  ops := by rw [h'.ops, h.ops, Nat.add_assoc]

theorem Wrote.failed (h : Wrote b b₁ s k) (h' : Failed e b₁ b₂ t l) :
    Failed e b b₂ (s ++ t) (k + l) where
  octets := by rw [h'.octets, h.octets, List.append_assoc]
  sinkfp := h'.sinkfp
  fault := by
    obtain ⟨n, hle, hlt, hn⟩ := h'.fault
    rw [h.ops] at hle hlt
    exact ⟨n, by omega, by omega, hn⟩

/-- The error indicator stays. -/
theorem Failed.append (h : Failed e b b₁ s k) (hoctets : b₂.octets = b₁.octets ++ t)
    (hsinkfp : b₂.sinkfp = some true) : Failed e b b₂ (s ++ t) (k + l) where
  octets := by rw [hoctets, h.octets, List.append_assoc]
  sinkfp := hsinkfp
  fault := by
    obtain ⟨n, hle, hlt, hn⟩ := h.fault
    exact ⟨n, hle, by omega, hn⟩

theorem Failed.mono (h : Failed e b b₁ s k) (hkl : k ≤ l) : Failed e b b₁ s l where
  octets := h.octets
  sinkfp := h.sinkfp
  fault := by
    obtain ⟨n, hle, hlt, hn⟩ := h.fault
    exact ⟨n, hle, by omega, hn⟩

theorem write_spec (e : Disk) (b : Batch) (text : Bytes) : Wrote b (b.write e text) text 1 ∨
    ∃ junk, junk <+: text ∧ (text ≠ [] → junk ≠ text) ∧ Failed e b (b.write e text) junk 1 := by
  cases hfault : e.fault b.ops with
  | none =>
    left
    constructor <;> simp [Batch.write, hfault]
  | some n =>
    right
    refine ⟨text.take (min n (text.length - 1)), List.take_prefix _ _, ?_, ?_⟩
    · intro hne heq
      have hlen := congrArg List.length heq
      have hpos := List.length_pos_iff.mpr hne
      rw [List.length_take] at hlen
      omega
    · constructor
      · simp [Batch.write, hfault]
      · simp [Batch.write, hfault]
      · exact ⟨b.ops, Nat.le_refl _, Nat.lt_succ_self _, by simp [hfault]⟩

/-- A write after an error. -/
theorem write_failed (e : Disk) {b : Batch} (h : b.sinkfp = some true) (text : Bytes) :
    ∃ junk, junk <+: text ∧ (b.write e text).octets = b.octets ++ junk ∧
      (b.write e text).sinkfp = some true := by
  rcases write_spec e b text with hw | ⟨junk, hjunk, -, hf⟩
  · exact ⟨text, List.prefix_rfl, hw.octets, hw.sinkfp.trans h⟩
  · exact ⟨junk, hjunk, hf.octets, hf.sinkfp⟩

/-- The texts of which parts are written have no line that starts with a dot. -/
theorem writeAll_failed (e : Disk) {texts : List Bytes} (htexts : ∀ t ∈ texts, Undotted t)
    {b : Batch} (h : b.sinkfp = some true) : ∃ junk, Undotted junk ∧
      (b.writeAll e texts).octets = b.octets ++ junk ∧ (b.writeAll e texts).sinkfp = some true := by
  induction texts generalizing b with
  | nil => exact ⟨[], by simp [Undotted, lfLines], by simp [Batch.writeAll], h⟩
  | cons text texts ih =>
    obtain ⟨junk, hjunk, hoctets, hsinkfp⟩ := write_failed e h text
    obtain ⟨junk', hjunk', hoctets', hsinkfp'⟩ := ih (fun t ht => htexts t (by simp [ht])) hsinkfp
    have hundotted := (htexts text (by simp)).part hjunk
    refine ⟨junk ++ junk', hundotted.append hjunk', ?_, hsinkfp'⟩
    rw [← List.append_assoc, ← hoctets]
    exact hoctets'

theorem writeAll_spec (e : Disk) {texts : List Bytes} (htexts : ∀ t ∈ texts, Undotted t)
    (b : Batch) : Wrote b (b.writeAll e texts) texts.flatten texts.length ∨
      ∃ junk, Undotted junk ∧ Failed e b (b.writeAll e texts) junk texts.length := by
  induction texts generalizing b with
  | nil => exact .inl ⟨by simp [Batch.writeAll], rfl, rfl⟩
  | cons text texts ih =>
    have hrest : ∀ t ∈ texts, Undotted t := fun t ht => htexts t (by simp [ht])
    have hlen : (text :: texts).length = 1 + texts.length := by simp [Nat.add_comm]
    rw [hlen]
    rcases write_spec e b text with hw | ⟨junk, hjunk, -, hf⟩
    · rcases ih hrest (b.write e text) with hw' | ⟨junk, hjunk, hf⟩
      · exact .inl (hw.trans hw')
      · exact .inr ⟨text ++ junk, (htexts text (by simp)).append hjunk, hw.failed hf⟩
    · -- what comes after the error is written all the same
      obtain ⟨junk', hjunk', hoctets, hsinkfp⟩ := writeAll_failed e hrest hf.sinkfp
      have hundotted := (htexts text (by simp)).part hjunk
      exact .inr ⟨junk ++ junk', hundotted.append hjunk', hf.append hoctets hsinkfp⟩

/-! ## Opening -/

theorem undotted_of_isLine {l : Bytes} (h : IsLine l) (hdot : dotted l = false) : Undotted l := by
  obtain ⟨text, htext, rfl⟩ := h
  intro l hl
  rw [lfLines_line_append [] htext] at hl
  simp only [lfLines, List.mem_singleton] at hl
  exact hl ▸ hdot

theorem openStream_octets (c : BsmtpCtl) (e : Disk) (b : Batch) :
    (openStream c e b).octets = b.octets := by
  unfold openStream
  split <;> rfl

theorem openStream_sinkfp {m : Message} (h : m.Opens c e b) :
    (openStream c e b).sinkfp = some false := by
  obtain ⟨-, h⟩ := h
  unfold openStream
  split at h
  · next hdash =>
    rw [if_pos hdash]
    rcases hb : b.sinkfp with _ | _ | _
    · rfl
    · rfl
    · exact absurd hb h
  · next hdash =>
    rw [if_neg hdash]
    simp [h]

/-- No part of the preamble starts with a dot. -/
theorem undotted_preamble {m : Message} (hmail : IsLine (mailLine c m))
    (hrcpts : ∀ l ∈ rcptLines c m.msg, IsLine l) :
    ∀ t ∈ preamble c m.msg m.mime ++ [[]], Undotted t := by
  have hnil : Undotted [] := by simp [Undotted, lfLines]
  have hmails : ∀ t ∈ mailWrites c m.msg m.mime, Undotted t := by
    intro t ht
    simp only [mailWrites, List.mem_append, List.mem_singleton] at ht
    rcases ht with (rfl | ht) | rfl
    · -- the start of the line
      have hline : Undotted (mailLine c m) := undotted_of_isLine hmail rfl
      refine hline.part ?_
      rw [mailLine, mailWrites, List.singleton_append, List.cons_append, List.flatten_cons]
      exact List.prefix_append _ _
    · have hbody : t = Bytes.lit " BODY=8BITMIME" ∨ t = Bytes.lit " BODY=7BIT" := by
        split at ht
        · exact .inl (List.mem_singleton.mp ht)
        · split at ht
          · exact .inr (List.mem_singleton.mp ht)
          · cases ht
      rcases hbody with rfl | rfl <;> unfold Undotted <;> decide
    · unfold Undotted
      decide
  intro t ht
  simp only [preamble, List.mem_append, List.mem_singleton] at ht
  rcases ht with ((ht | ht) | rfl) | rfl
  · exact hmails t ht
  · obtain ⟨r, -, hr⟩ := List.mem_map.mp ht
    refine undotted_of_isLine (hrcpts t ht) ?_
    rw [← hr]
    rfl
  · exact undotted_of_isLine ⟨Bytes.lit "DATA\r", by decide, by decide⟩ (by decide)
  · exact hnil

theorem openBsmtpSink_spec {m : Message} (hopens : m.Opens c e b)
    (hmail : IsLine (mailLine c m)) (hrcpts : ∀ l ∈ rcptLines c m.msg, IsLine l) :
    ((openBsmtpSink c e m.msg m.mime b).1 = .success ∧
      Wrote (openStream c e b) (openBsmtpSink c e m.msg m.mime b).2
        (preamble c m.msg m.mime).flatten ((preamble c m.msg m.mime).length + 1)) ∨
    ((openBsmtpSink c e m.msg m.mime b).1 = .bsmtp ∧ ∃ junk, Undotted junk ∧
      Failed e (openStream c e b) (openBsmtpSink c e m.msg m.mime b).2 junk
        ((preamble c m.msg m.mime).length + 1)) := by
  have hsinkfp := openStream_sinkfp hopens
  -- the flush is a write of nothing
  have hall : ((openStream c e b).writeAll e (preamble c m.msg m.mime)).write e [] =
      (openStream c e b).writeAll e (preamble c m.msg m.mime ++ [[]]) := by
    rw [Batch.writeAll, Batch.writeAll, List.foldl_append]
    rfl
  have hresult : openBsmtpSink c e m.msg m.mime b =
      (if ((openStream c e b).writeAll e (preamble c m.msg m.mime ++ [[]])).ferror then .bsmtp
        else .success, (openStream c e b).writeAll e (preamble c m.msg m.mime ++ [[]])) := by
    simp only [openBsmtpSink, hsinkfp, ne_eq, not_true_eq_false, if_false, hall]
  have hwrites := writeAll_spec e (undotted_preamble hmail hrcpts) (openStream c e b)
  rw [List.flatten_append, List.length_append] at hwrites
  rw [hresult]
  rcases hwrites with hw | ⟨junk, hjunk, hf⟩
  · left
    refine ⟨?_, by simpa using hw⟩
    simp [Batch.ferror, hw.sinkfp, hsinkfp]
  · right
    refine ⟨?_, junk, hjunk, hf⟩
    simp [Batch.ferror, hf.sinkfp]

/-! ## Lines -/

/-- The two writes of `stuffline`, the first of which may not be needed. -/
theorem stuff_eq (c : BsmtpCtl) (e : Disk) (mem : Bytes) (b : Batch) : ∃ dot line,
    (stuffline c.line mem).written = dot ++ line ∧
    stuffWrites c mem = (if dot = [] then 1 else 2) ∧
    b.stuff c e mem =
      if dot = [] then (!(b.write e line).ferror, b.write e line)
      else if (b.write e dot).ferror then (false, b.write e dot)
      else (!((b.write e dot).write e line).ferror, (b.write e dot).write e line) := by
  refine ⟨stuffing c.line (ended c.line (huntLine mem)), stripCr c.line
    ((ended c.line (huntLine mem)).drop (skipped c.line (ended c.line (huntLine mem)))),
    rfl, rfl, ?_⟩
  by_cases hdot : stuffing c.line (ended c.line (huntLine mem)) = []
  · simp only [Batch.stuff, hdot, if_true, ne_eq, not_true_eq_false, false_and, if_false]
  · simp only [Batch.stuff, hdot, if_false, ne_eq, not_false_eq_true, true_and]

theorem stuff_spec (mem : Bytes) (h : b.sinkfp = some false) :
    ((b.stuff c e mem).1 = true ∧
      Wrote b (b.stuff c e mem).2 (stuffline c.line mem).written (stuffWrites c mem)) ∨
    ((b.stuff c e mem).1 = false ∧ ∃ junk, junk <+: (stuffline c.line mem).written ∧
      Failed e b (b.stuff c e mem).2 junk (stuffWrites c mem)) := by
  obtain ⟨dot, line, hwritten, hwrites, hstuff⟩ := stuff_eq c e mem b
  rw [hwritten, hwrites, hstuff]
  by_cases hdot : dot = []
  · rw [if_pos hdot, if_pos hdot, hdot, List.nil_append]
    rcases write_spec e b line with hw | ⟨junk, hjunk, -, hf⟩
    · exact .inl ⟨by simp [Batch.ferror, hw.sinkfp, h], hw⟩
    · exact .inr ⟨by simp [Batch.ferror, hf.sinkfp], junk, hjunk, hf⟩
  · rw [if_neg hdot, if_neg hdot]
    rcases write_spec e b dot with hw | ⟨junk, hjunk, -, hf⟩
    · have hgoes : (b.write e dot).ferror = false := by simp [Batch.ferror, hw.sinkfp, h]
      rw [if_neg (by simp [hgoes])]
      rcases write_spec e (b.write e dot) line with hw' | ⟨junk, hjunk, -, hf⟩
      · exact .inl ⟨by simp [Batch.ferror, hw'.sinkfp, hw.sinkfp, h], hw.trans hw'⟩
      · exact .inr ⟨by simp [Batch.ferror, hf.sinkfp], dot ++ junk,
          (List.prefix_append_right_inj dot).mpr hjunk, hw.failed hf⟩
    · -- the line is not written without its dot
      have hstops : (b.write e dot).ferror = true := by simp [Batch.ferror, hf.sinkfp]
      rw [if_pos hstops]
      exact .inr ⟨rfl, junk, hjunk.trans (List.prefix_append _ _), hf.mono (by omega)⟩

/-- A line after an error. -/
theorem stuff_failed (c : BsmtpCtl) (e : Disk) (mem : Bytes) (h : b.sinkfp = some true) :
    (b.stuff c e mem).1 = false ∧ (b.stuff c e mem).2.sinkfp = some true ∧
      ∃ junk, junk <+: (stuffline c.line mem).written ∧
        (b.stuff c e mem).2.octets = b.octets ++ junk := by
  obtain ⟨dot, line, hwritten, -, hstuff⟩ := stuff_eq c e mem b
  rw [hwritten, hstuff]
  by_cases hdot : dot = []
  · rw [if_pos hdot, hdot, List.nil_append]
    obtain ⟨junk, hjunk, hoctets, hsinkfp⟩ := write_failed e h line
    exact ⟨by simp [Batch.ferror, hsinkfp], hsinkfp, junk, hjunk, hoctets⟩
  · rw [if_neg hdot]
    obtain ⟨junk, hjunk, hoctets, hsinkfp⟩ := write_failed e h dot
    have hstops : (b.write e dot).ferror = true := by simp [Batch.ferror, hsinkfp]
    rw [if_pos hstops]
    exact ⟨rfl, hsinkfp, junk, hjunk.trans (List.prefix_append _ _), hoctets⟩

theorem releaseSink_octets (c : BsmtpCtl) (b : Batch) : (releaseSink c b).octets = b.octets := by
  unfold releaseSink
  split <;> rfl

theorem shipTexts_spec (texts : List Bytes) (h : b.sinkfp = some false) :
    ((shipTexts c e texts b).1 = true ∧
      Wrote b (shipTexts c e texts b).2 (written c texts) (texts.map (stuffWrites c)).sum) ∨
    ((shipTexts c e texts b).1 = false ∧ ∃ junk b', junk <+: written c texts ∧
      Failed e b b' junk (texts.map (stuffWrites c)).sum ∧
        (shipTexts c e texts b).2 = releaseSink c b') := by
  induction texts generalizing b with
  | nil => exact .inl ⟨rfl, by simp [shipTexts, written], rfl, rfl⟩
  | cons text texts ih =>
    simp only [shipTexts, List.map_cons, List.sum_cons]
    rcases stuff_spec (c := c) (e := e) text h with ⟨hok, hw⟩ | ⟨hno, junk, hjunk, hf⟩
    · rw [if_pos hok]
      rcases ih (hw.sinkfp.trans h) with ⟨hok', hw'⟩ | ⟨hno, junk, b', hjunk, hf, hrelease⟩
      · exact .inl ⟨hok', hw.trans hw'⟩
      · exact .inr ⟨hno, _, b', (List.prefix_append_right_inj _).mpr hjunk, hw.failed hf, hrelease⟩
    · rw [if_neg (by simp [hno])]
      exact .inr ⟨rfl, junk, _, hjunk.trans (List.prefix_append _ _), hf.mono (by omega), rfl⟩

/-! ## One message -/

/-- What the headers and the body of the message add to the batch. -/
theorem written_append (c : BsmtpCtl) (texts texts' : List Bytes) :
    written c (texts ++ texts') = written c texts ++ written c texts' := List.flatMap_append

theorem written_spec {texts : List Bytes} (h : ∀ mem ∈ texts, Lined c mem) :
    Terminated (written c texts) ∧ Endless (written c texts) := by
  induction texts with
  | nil => exact ⟨.inl rfl, by simp [written, Endless, lfLines]⟩
  | cons text texts ih =>
    obtain ⟨hterm, hdot⟩ := h text (by simp)
    obtain ⟨hterm', hend⟩ := ih fun mem hmem => h mem (by simp [hmem])
    exact ⟨hterm.append hterm', (endless_of_noLoneDot hdot).append hterm hend⟩

theorem undotted_delimiterLine (ctl : LineCtl) : Undotted (stuffline ctl delimiterLine).written := by
  unfold Undotted
  rcases ctl with ⟨kind, delimited, forcecr, stripcr⟩
  cases kind <;> cases delimited <;> cases forcecr <;> cases stripcr <;> decide

theorem preamble_flatten {m : Message} (hmail : IsLine (mailLine c m))
    (hrcpts : ∀ l ∈ rcptLines c m.msg, IsLine l) :
    Terminated (preamble c m.msg m.mime).flatten ∧ Endless (preamble c m.msg m.mime).flatten := by
  have hparts := undotted_preamble hmail hrcpts
  have hflatten : ∀ texts : List Bytes, (∀ t ∈ texts, Undotted t) → Undotted texts.flatten := by
    intro texts
    induction texts with
    | nil => exact fun _ => by simp [Undotted, lfLines]
    | cons text texts ih =>
      intro h
      exact (h text (by simp)).append (ih fun t ht => h t (by simp [ht]))
  constructor
  · right
    rw [preamble, List.flatten_append, List.getLast?_append]
    rfl
  · exact (hflatten _ fun t ht => hparts t (by simp [ht])).endless

/-- Octets that end no message are added, by so many writes of which one has failed. -/
structure Torn (e : Disk) (b b' : Batch) (writes : Nat) : Prop where
  junk : ∃ junk, Endless junk ∧ b'.octets = b.octets ++ junk
  fault : ∃ n, b.ops ≤ n ∧ n < b.ops + writes ∧ e.fault n ≠ none

theorem Failed.torn (h : Failed e b b₁ s k) (hs : Endless s) : Torn e b b₁ k :=
  ⟨⟨s, hs, h.octets⟩, h.fault⟩

theorem Torn.release (h : Torn e b b₁ k) : Torn e b (releaseSink c b₁) k :=
  ⟨by rw [releaseSink_octets]; exact h.junk, h.fault⟩

theorem shipWarning_spec (warning : Option Bytes)
    (hwarning : ∀ mem ∈ warning, Undotted (stuffline c.line mem).written)
    (h : b.sinkfp = some false) :
    Wrote b (shipWarning c e warning b) (written c warning.toList)
        (warning.toList.map (stuffWrites c)).sum ∨
      ∃ junk, Undotted junk ∧
        Failed e b (shipWarning c e warning b) junk (warning.toList.map (stuffWrites c)).sum := by
  cases warning with
  | none => exact .inl ⟨by simp [written, shipWarning], rfl, rfl⟩
  | some text =>
    simp only [Option.toList_some, written, List.flatMap_cons, List.flatMap_nil, List.append_nil,
      List.map_cons, List.map_nil, List.sum_cons, List.sum_nil, Nat.add_zero, shipWarning]
    rcases stuff_spec (c := c) (e := e) text h with ⟨-, hw⟩ | ⟨-, junk, hjunk, hf⟩
    · exact .inl hw
    · exact .inr ⟨junk, (hwarning text rfl).part hjunk, hf⟩

theorem readheaders_spec {m : Message} {texts : List Bytes} {warning : Option Bytes}
    (hheaders : m.headers = .addressed texts warning) (hopens : m.Opens c e b)
    (hmail : IsLine (mailLine c m)) (hrcpts : ∀ l ∈ rcptLines c m.msg, IsLine l)
    (htexts : ∀ mem ∈ texts ++ warning.toList ++ [delimiterLine], Lined c mem)
    (hwarning : ∀ mem ∈ warning, Undotted (stuffline c.line mem).written) :
    ((readheaders c e m b).1 = .success ∧
      Wrote (openStream c e b) (readheaders c e m b).2
        ((preamble c m.msg m.mime).flatten ++ written c (texts ++ warning.toList ++ [delimiterLine]))
        ((preamble c m.msg m.mime).length + 1 +
          ((texts ++ warning.toList ++ [delimiterLine]).map (stuffWrites c)).sum)) ∨
    ((readheaders c e m b).1 ≠ .success ∧ suppressesForward (readheaders c e m b).1 = false ∧
      Torn e (openStream c e b) (readheaders c e m b).2
        ((preamble c m.msg m.mime).length + 1 +
          ((texts ++ warning.toList ++ [delimiterLine]).map (stuffWrites c)).sum)) := by
  obtain ⟨hpreTerm, hpreEnd⟩ := preamble_flatten hmail hrcpts
  have hshipped : Terminated (written c texts) ∧ Endless (written c texts) :=
    written_spec fun mem hmem => htexts mem (by simp [hmem])
  have hwarned : Terminated (written c warning.toList) ∧ Endless (written c warning.toList) :=
    written_spec fun mem hmem => htexts mem (by simp_all)
  have hdelimiter : written c [delimiterLine] = (stuffline c.line delimiterLine).written := by
    simp [written]
  have hsinkfp := openStream_sinkfp hopens
  simp only [written_append, List.map_append, List.sum_append]
  unfold readheaders
  rw [hheaders]
  -- where a write fails, what is in the stream up to there has no end of a message
  rcases openBsmtpSink_spec hopens hmail hrcpts with ⟨hok, hw⟩ | ⟨hno, junk, hjunk, hf⟩
  · simp only [hok, ne_eq, not_true_eq_false, if_false]
    have hopen := hw.sinkfp.trans hsinkfp
    generalize (openBsmtpSink c e m.msg m.mime b).2 = b₁ at *
    rcases shipTexts_spec (c := c) (e := e) texts hopen with
      ⟨hship, hw₂⟩ | ⟨hship, junk, b', hjunk, hf, hrelease⟩
    · simp only [hship, if_true]
      have hopen₂ := hw₂.sinkfp.trans hopen
      generalize (shipTexts c e texts b₁).2 = b₂ at *
      have hwarn := shipWarning_spec (c := c) (e := e) warning hwarning hopen₂
      generalize shipWarning c e warning b₂ = b₃ at *
      rcases hwarn with hw₃ | ⟨junk, hjunk, hf⟩
      · rcases stuff_spec (c := c) (e := e) delimiterLine (hw₃.sinkfp.trans hopen₂) with
          ⟨hdelim, hw₄⟩ | ⟨hdelim, junk, hjunk, hf⟩
        · left
          simp only [hdelim, if_true, true_and]
          have hall := hw.trans ((hw₂.trans hw₃).trans hw₄)
          rw [hdelimiter]
          exact hall
        · right
          simp only [hdelim, Bool.false_eq_true, if_false]
          refine ⟨by simp, rfl, ?_⟩
          have hend := hpreEnd.append hpreTerm ((hshipped.2.append hshipped.1 hwarned.2).append
            (hshipped.1.append hwarned.1) ((undotted_delimiterLine c.line).part hjunk).endless)
          exact (hw.failed ((hw₂.trans hw₃).failed hf)).torn hend
      · -- the line behind the warning is written all the same
        right
        obtain ⟨hdelim, hsinkfp₄, junk', hjunk', hoctets⟩ :=
          stuff_failed c e delimiterLine hf.sinkfp
        simp only [hdelim, Bool.false_eq_true, if_false]
        refine ⟨by simp, rfl, ?_⟩
        have hundotted := hjunk.append ((undotted_delimiterLine c.line).part hjunk')
        have hend := hpreEnd.append hpreTerm (hshipped.2.append hshipped.1 hundotted.endless)
        have hf₄ : Failed e b₂ _ _ _ := hf.append (l := 0) hoctets hsinkfp₄
        exact ((hw.failed (hw₂.failed hf₄)).mono (by omega)).torn hend
    · simp only [hship, Bool.false_eq_true, if_false]
      right
      refine ⟨by simp, rfl, ?_⟩
      rw [hrelease]
      have hend := hpreEnd.append hpreTerm (hshipped.2.part hjunk)
      exact (((hw.failed hf).mono (by omega)).torn hend).release
  · have hstop : (openBsmtpSink c e m.msg m.mime b).1 ≠ .success := by simp [hno]
    right
    simp only [if_pos hstop]
    exact ⟨hstop, by rw [hno]; rfl, (hf.mono (by omega)).torn hjunk.endless⟩

theorem readbody_spec {m : Message} (hbody : ∀ mem ∈ m.body, Lined c mem)
    (h : b.sinkfp = some false) :
    ((readbody c e true m b).1 = .success ∧
      Wrote b (readbody c e true m b).2 (written c m.body) (m.body.map (stuffWrites c)).sum) ∨
    ((readbody c e true m b).1 ≠ .success ∧
      (∃ junk, Endless junk ∧ (readbody c e true m b).2.octets = b.octets ++ junk) ∧
      (m.breaks = true ∨ ∃ n, b.ops ≤ n ∧ n < b.ops + (m.body.map (stuffWrites c)).sum ∧
        e.fault n ≠ none)) := by
  have hend := (written_spec hbody).2
  unfold readbody
  simp only [if_true]
  rcases shipTexts_spec (c := c) (e := e) m.body h with
    ⟨hship, hw⟩ | ⟨hship, junk, b', hjunk, hf, hrelease⟩
  · simp only [hship, Bool.not_true, Bool.false_eq_true, if_false]
    cases hbreaks : m.breaks with
    | false => exact .inl ⟨rfl, hw⟩
    | true =>
      right
      refine ⟨by simp, ⟨_, hend, ?_⟩, .inl rfl⟩
      simp only [if_true]
      rw [releaseSink_octets, hw.octets]
  · simp only [hship, Bool.not_false, if_true]
    right
    refine ⟨by simp, ⟨junk, hend.part hjunk, ?_⟩, .inr hf.fault⟩
    rw [hrelease, releaseSink_octets, hf.octets]

/-- A part of the terminator ends nothing. -/
theorem endless_terminator {p : Bytes} (hp : p <+: terminator) (hne : p ≠ terminator) :
    Endless p := by
  have hparts : ∀ n < 3, Endless (terminator.take n) := by
    unfold Endless
    decide
  have htake := List.prefix_iff_eq_take.mp hp
  have hlen : p.length < 3 := by
    refine Nat.lt_of_le_of_ne hp.length_le fun heq => hne ?_
    rw [htake, heq]
    rfl
  exact htake ▸ hparts p.length hlen

theorem closeSink_spec (c : BsmtpCtl) (e : Disk) (h : b.sinkfp = some false) :
    (closeSink c e b).2.octets = b.octets ++ terminator ∨
      (closeSink c e b).1 = false ∧
        (∃ junk, Endless junk ∧ (closeSink c e b).2.octets = b.octets ++ junk) ∧
        e.fault b.ops ≠ none := by
  have hoctets : (closeSink c e b).2.octets = (b.write e terminator).octets := by
    simp only [closeSink, h, ne_eq, reduceCtorEq, not_false_eq_true, if_true]
    split <;> rfl
  rw [hoctets]
  rcases write_spec e b terminator with hw | ⟨junk, hjunk, hne, hf⟩
  · exact .inl hw.octets
  · right
    have hno : (closeSink c e b).1 = false := by
      have hferror : (b.write e terminator).ferror = true := by simp [Batch.ferror, hf.sinkfp]
      simp only [closeSink, h, ne_eq, reduceCtorEq, not_false_eq_true, if_true, hferror]
      split <;> rfl
    refine ⟨hno, ⟨junk, endless_terminator hjunk (hne (by decide)), hf.octets⟩, ?_⟩
    obtain ⟨n, hle, hlt, hn⟩ := hf.fault
    have heq : n = b.ops := by omega
    exact heq ▸ hn

/-- A message that gets to the batch is a transaction there, or it is cut, and adds what ends no
message. -/
theorem deliver_opens {m : Message} (hopens : m.Opens c e b) (hcalm : m.Calm c b) :
    (deliver c e m b).2.octets =
        b.octets ++ ((preamble c m.msg m.mime).flatten ++ written c m.texts ++ terminator) ∨
      m.Cut c e b ∧ delivered c e m b = false ∧
        ∃ junk, Endless junk ∧ (deliver c e m b).2.octets = b.octets ++ junk := by
  obtain ⟨⟨texts, warning, hheaders⟩, -⟩ := id hopens
  simp only [Message.Calm, hheaders] at hcalm
  obtain ⟨hmail, hrcpts, hlined, hwarning⟩ := hcalm
  have htexts : m.texts = texts ++ warning.toList ++ [delimiterLine] ++ m.body := by
    simp only [Message.texts, hheaders]
  rw [htexts] at hlined
  have hbody : ∀ mem ∈ m.body, Lined c mem := fun mem hmem =>
    hlined mem (List.mem_append_right _ hmem)
  have hhead : ∀ mem ∈ texts ++ warning.toList ++ [delimiterLine], Lined c mem :=
    fun mem hmem => hlined mem (List.mem_append_left _ hmem)
  have hsinkfp := openStream_sinkfp hopens
  have hoctets := openStream_octets c e b
  have hwrites : m.writes c = (preamble c m.msg m.mime).length + 1 +
      ((texts ++ warning.toList ++ [delimiterLine]).map (stuffWrites c)).sum +
      (m.body.map (stuffWrites c)).sum + 1 := by
    rw [Message.writes, htexts, List.map_append, List.sum_append]
    omega
  obtain ⟨hpreTerm, hpreEnd⟩ := preamble_flatten hmail hrcpts
  obtain ⟨hheadTerm, hheadEnd⟩ := written_spec hhead
  obtain ⟨hbodyTerm, hbodyEnd⟩ := written_spec hbody
  rw [htexts, written_append]
  -- the three parts of the message, each of which may be cut
  rcases readheaders_spec hheaders hopens hmail hrcpts hhead hwarning with
    ⟨hok, hw⟩ | ⟨hno, hforward, htorn⟩
  · have hopen := hw.sinkfp.trans hsinkfp
    rcases readbody_spec (c := c) (e := e) hbody hopen with ⟨hread, hw₂⟩ | ⟨hread, hjunk, hcut⟩
    · have hdeliver : deliver c e m b =
          (some ((closeSink c e (readbody c e true m (readheaders c e m b).2).2).1, true),
            (closeSink c e (readbody c e true m (readheaders c e m b).2).2).2) := by
        simp [deliver, hok, hread]
      have hw₃ := hw.trans hw₂
      -- the dot may be cut as well, and then it does not end the message
      rcases closeSink_spec c e (hw₃.sinkfp.trans hsinkfp) with hclose | ⟨hno, ⟨junk, hjunk, hadds⟩, hn⟩
      · left
        rw [hdeliver, hclose, hw₃.octets, hoctets]
        simp only [List.append_assoc]
      · right
        rw [hw₃.ops] at hn
        have hend := ((hpreEnd.append hpreTerm hheadEnd).append (hpreTerm.append hheadTerm)
          hbodyEnd).append ((hpreTerm.append hheadTerm).append hbodyTerm) hjunk
        refine ⟨⟨hopens, .inr ⟨_, by omega, by omega, hn⟩⟩, by simp [delivered, hdeliver, hno],
          _, hend, ?_⟩
        rw [hdeliver, hadds, hw₃.octets, hoctets, List.append_assoc]
    · have hdeliver : deliver c e m b =
          (none, releaseSink c (readbody c e true m (readheaders c e m b).2).2) := by
        simp [deliver, hok, hread]
      right
      obtain ⟨junk, hjunk, hadds⟩ := hjunk
      have hfault : m.Cut c e b := by
        refine ⟨hopens, hcut.imp id ?_⟩
        rintro ⟨n, hle, hlt, hn⟩
        rw [hw.ops] at hle hlt
        exact ⟨n, by omega, by omega, hn⟩
      have hend := (hpreEnd.append hpreTerm hheadEnd).append (hpreTerm.append hheadTerm) hjunk
      refine ⟨hfault, by simp [delivered, hdeliver], _, hend, ?_⟩
      rw [hdeliver, releaseSink_octets, hadds, hw.octets, hoctets, List.append_assoc]
  · have hdeliver : deliver c e m b = (none, releaseSink c (readheaders c e m b).2) := by
      simp [deliver, hno, hforward]
    right
    obtain ⟨⟨junk, hjunk, hadds⟩, n, hle, hlt, hn⟩ := htorn
    refine ⟨⟨hopens, .inr ⟨n, hle, by omega, hn⟩⟩, by simp [delivered, hdeliver], junk, hjunk, ?_⟩
    rw [hdeliver, releaseSink_octets, hadds, hoctets]

/-- A message that does not get to the batch leaves the octets as they are. -/
theorem deliver_not_opens {m : Message} (hopens : ¬ m.Opens c e b) (hcalm : m.Calm c b)
    (hsinkfp : c.dash = false → b.sinkfp = none) :
    (deliver c e m b).2.octets = b.octets ∧ delivered c e m b = false := by
  cases hheaders : m.headers with
  -- the body may be read, but it is not forwarded
  | stopped status failed =>
    have hread : readheaders c e m b = (status, b) := by simp [readheaders, hheaders]
    cases hforward : suppressesForward status with
    | false =>
      have hdeliver : deliver c e m b = (none, releaseSink c b) := by
        simp [deliver, hread, hforward, failed]
      rw [delivered, hdeliver]
      exact ⟨releaseSink_octets c b, by simp⟩
    | true =>
      have hbody : readbody c e false m b =
          if m.breaks then (.socket, releaseSink c b) else (.success, b) := by
        simp [readbody]
      have hdeliver : deliver c e m b = (none, releaseSink c (releaseSink c b)) ∨
          deliver c e m b = (some (true, false), b) := by
        by_cases hbroken : m.reads = true ∧ m.breaks = true
        · left
          simp [deliver, hread, hforward, failed, hbroken, hbody]
        · -- `close_sink` is called, but no sink is open
          right
          have hnone : b.sinkfp = none := by
            cases hdash : c.dash with
            | false => exact hsinkfp hdash
            | true =>
              simp only [Message.Calm, hheaders] at hcalm
              by_contra hopen
              exact hbroken (hcalm hforward hdash hopen)
          cases hreads : m.reads <;> cases hbreaks : m.breaks <;>
            simp_all [deliver, closeSink]
      rcases hdeliver with hdeliver | hdeliver
      · rw [delivered, hdeliver]
        exact ⟨by rw [releaseSink_octets, releaseSink_octets], by simp⟩
      · rw [delivered, hdeliver]
        exact ⟨rfl, by simp⟩
  -- the stream could not be opened
  | addressed texts warning =>
    have hstream : (openStream c e b).sinkfp ≠ some false := by
      intro hstream
      refine hopens ⟨⟨texts, warning, hheaders⟩, ?_⟩
      unfold openStream at hstream
      split at hstream
      · next hdash =>
        rw [if_pos hdash]
        intro htrue
        simp [htrue] at hstream
      · next hdash =>
        rw [if_neg hdash]
        by_contra hno
        simp [hno] at hstream
    have hdeliver : deliver c e m b = (none, releaseSink c (openStream c e b)) := by
      simp [deliver, readheaders, hheaders, openBsmtpSink, hstream, suppressesForward]
    rw [delivered, hdeliver]
    exact ⟨by rw [releaseSink_octets, openStream_octets], by simp⟩

theorem releaseSink_sinkfp (hdash : c.dash = false) (b : Batch) : (releaseSink c b).sinkfp = none := by
  unfold releaseSink
  split
  · rfl
  · next h => simpa [hdash] using h

theorem closeSink_sinkfp (hdash : c.dash = false) (e : Disk) (b : Batch) :
    (closeSink c e b).2.sinkfp = none := by
  unfold closeSink
  split
  · simp [hdash]
  · next h => simpa using h

/-- Between messages a file is not open. -/
theorem deliver_sinkfp (hdash : c.dash = false) (e : Disk) (m : Message) (b : Batch) :
    (deliver c e m b).2.sinkfp = none := by
  have hends : ∀ (forward : Bool) (r : Ps × Batch),
      (if r.1 ≠ .success then (none, releaseSink c r.2)
        else (some ((closeSink c e r.2).1, forward), (closeSink c e r.2).2) :
          Option (Bool × Bool) × Batch).2.sinkfp = none := by
    intro forward r
    split
    · exact releaseSink_sinkfp hdash _
    · exact closeSink_sinkfp hdash e _
  unfold deliver
  simp only
  split
  · exact releaseSink_sinkfp hdash _
  · exact hends _ _

end

/-! ## The consumer -/

theorem Consumer.read_endless {s : Consumer} {x : Bytes} (h : Endless x) :
    (s.read x).accepted = s.accepted ∧ (s.read x).stray = s.stray := by
  have hlines : ∀ (ls : List Bytes) (s : Consumer), (∀ l ∈ ls, isEnd l = false) →
      (ls.foldl Consumer.line s).accepted = s.accepted ∧
        (ls.foldl Consumer.line s).stray = s.stray := by
    intro ls
    induction ls with
    | nil => exact fun _ _ => ⟨rfl, rfl⟩
    | cons l ls ih =>
      intro s hls
      obtain ⟨haccepted, hstray⟩ := ih (s.line l) fun l' hl' => hls l' (by simp [hl'])
      have hl := hls l (by simp)
      rw [List.foldl_cons, haccepted, hstray]
      unfold Consumer.line
      split <;> simp [hl]
  exact hlines _ s h

/-- The content of a message is taken in. -/
theorem Consumer.read_content {mail : Bytes} {rcpts : List Bytes} {x : Bytes} (h : Endless x)
    {s : Consumer} {content : Bytes} (hs : s.phase = .data mail rcpts content) :
    s.read x = { s with phase := .data mail rcpts (content ++ unstuffLines x) } := by
  have hlines : ∀ (ls : List Bytes) (s : Consumer) (content : Bytes), (∀ l ∈ ls, isEnd l = false) →
      s.phase = .data mail rcpts content → ls.foldl Consumer.line s =
        { s with phase := .data mail rcpts (content ++ (ls.map unstuff).flatten) } := by
    intro ls
    induction ls with
    | nil =>
      intro s content _ hs
      simp [← hs]
    | cons l ls ih =>
      intro s content hls hs
      have hl := hls l (by simp)
      have hline : s.line l = { s with phase := .data mail rcpts (content ++ unstuff l) } := by
        simp [Consumer.line, hs, hl]
      rw [List.foldl_cons, hline, ih _ _ (fun l' hl' => hls l' (by simp [hl'])) rfl]
      simp
  exact hlines _ s content h hs

theorem lfLines_isLine {l : Bytes} (h : IsLine l) : lfLines l = [l] := by
  obtain ⟨text, htext, rfl⟩ := h
  rw [lfLines_line_append [] htext]
  rfl

theorem IsLine.terminated {l : Bytes} (h : IsLine l) : Terminated l := by
  obtain ⟨text, -, rfl⟩ := h
  exact terminated_line text

theorem Consumer.read_isLine {l : Bytes} (h : IsLine l) (s : Consumer) : s.read l = s.line l := by
  rw [Consumer.read, lfLines_isLine h]
  rfl

section

variable {c : BsmtpCtl}

/-- The envelope is taken in. -/
theorem Consumer.read_rcptLines {rcpts : List Bytes} (hlines : ∀ l ∈ rcpts, IsLine l)
    (hrcpts : ∀ l ∈ rcpts, ∃ rest, l = Bytes.lit "RCPT TO:<" ++ rest) {s : Consumer} {mail : Bytes}
    {done : List Bytes} (hs : s.phase = .envelope mail done) :
    s.read rcpts.flatten = { s with phase := .envelope mail (done ++ rcpts) } := by
  induction rcpts generalizing s done with
  | nil => simp [Consumer.read, lfLines, ← hs]
  | cons l rcpts ih =>
    have hl := hlines l (by simp)
    obtain ⟨rest, hrest⟩ := hrcpts l (by simp)
    have hend : isEnd l = false := by
      rw [hrest]
      rfl
    have hcommand : (Bytes.lit "MAIL FROM:").isPrefixOf l = false ∧
        (Bytes.lit "RCPT TO:").isPrefixOf l = true := by
      rw [hrest]
      exact ⟨rfl, rfl⟩
    have hline : s.line l = { s with phase := .envelope mail (done ++ [l]) } := by
      simp [Consumer.line, hs, hend, Phase.command, hcommand]
    rw [List.flatten_cons, Consumer.read_append s _ (IsLine.terminated hl), Consumer.read_isLine hl, hline,
      ih (fun l' hl' => hlines l' (by simp [hl'])) (fun l' hl' => hrcpts l' (by simp [hl'])) rfl]
    simp

theorem Consumer.read_preamble {m : Message} (hmail : IsLine (mailLine c m))
    (hrcpts : ∀ l ∈ rcptLines c m.msg, IsLine l) {s : Consumer} (hs : s.phase = .idle) :
    s.read (preamble c m.msg m.mime).flatten =
      { s with phase := .data (mailLine c m) (rcptLines c m.msg) [] } := by
  have hpreamble : (preamble c m.msg m.mime).flatten =
      mailLine c m ++ ((rcptLines c m.msg).flatten ++ dataLine) := by
    simp [preamble, mailLine]
  have hdata : IsLine dataLine := ⟨Bytes.lit "DATA\r", by decide, by decide⟩
  -- the recipients are whole lines, so that reading goes on behind them at the start of a line
  have hterm : Terminated (rcptLines c m.msg).flatten := by
    have hflatten : ∀ ls : List Bytes, (∀ l ∈ ls, IsLine l) → Terminated ls.flatten := by
      intro ls
      induction ls with
      | nil => exact fun _ => .inl rfl
      | cons l ls ih =>
        intro h
        exact (IsLine.terminated (h l (by simp))).append (ih fun l' hl' => h l' (by simp [hl']))
    exact hflatten _ hrcpts
  have hline : s.line (mailLine c m) = { s with phase := .envelope (mailLine c m) [] } := by
    have hcommand : (Bytes.lit "MAIL FROM:").isPrefixOf (mailLine c m) = true := rfl
    have hend : isEnd (mailLine c m) = false := rfl
    simp [Consumer.line, hs, hend, Phase.command, hcommand]
  have hnames : ∀ l ∈ rcptLines c m.msg, ∃ rest, l = Bytes.lit "RCPT TO:<" ++ rest := by
    intro l hl
    obtain ⟨r, -, hr⟩ := List.mem_map.mp hl
    exact ⟨_, by rw [← hr, List.append_assoc, List.append_assoc]⟩
  rw [hpreamble, Consumer.read_append s _ (IsLine.terminated hmail), Consumer.read_isLine hmail, hline,
    Consumer.read_append _ _ hterm, Consumer.read_rcptLines hrcpts hnames rfl,
    Consumer.read_isLine hdata]
  rfl

/-- A message that is written as a whole is accepted. -/
theorem Consumer.read_message {m : Message} (hmail : IsLine (mailLine c m))
    (hrcpts : ∀ l ∈ rcptLines c m.msg, IsLine l) (htexts : ∀ mem ∈ m.texts, Lined c mem)
    {s : Consumer} (hs : s.phase = .idle) :
    s.read ((preamble c m.msg m.mime).flatten ++ written c m.texts ++ terminator) =
      ⟨.idle, s.accepted ++ [m.transaction c], s.stray⟩ := by
  obtain ⟨hpreTerm, -⟩ := preamble_flatten hmail hrcpts
  obtain ⟨hterm, hend⟩ := written_spec htexts
  have hdot : IsLine terminator := ⟨[Bytes.dot, Bytes.cr], by decide, rfl⟩
  rw [Consumer.read_append s _ (hpreTerm.append hterm), Consumer.read_append s _ hpreTerm,
    Consumer.read_preamble hmail hrcpts hs, Consumer.read_content hend rfl,
    Consumer.read_isLine hdot]
  rfl

/-! ## Runs -/

variable {e : Disk}

theorem BatchSound.mono {ms ms' : List Message} {l : Ledger} (h : BatchSound c ms l)
    (hms : ∀ m ∈ ms, m ∈ ms') : BatchSound c ms' l where
  accepted t ht := by
    obtain ⟨m, hm, hmt⟩ := h.accepted t ht
    exact ⟨m, hms m hm, hmt⟩
  reported := h.reported
  dots := h.dots

/-- The batch is sound, and another message can be appended to it. -/
structure Settled (c : BsmtpCtl) (ms : List Message) (l : Ledger) : Prop where
  sound : BatchSound c ms l
  terminated : Terminated l.batch.octets
  idle : (consume l.batch.octets).phase = .idle
  closed : c.dash = false → l.batch.sinkfp = none

theorem settled_start (c : BsmtpCtl) : Settled c [] Ledger.start where
  sound := ⟨fun _ ht => absurd ht List.not_mem_nil, List.Sublist.refl _, rfl⟩
  terminated := .inl rfl
  idle := rfl
  closed _ := rfl

/-- A message that is not reported, and adds nothing that ends a message. -/
theorem BatchSound.next_endless {ms : List Message} {l : Ledger} {m : Message} {junk : Bytes}
    (h : BatchSound c ms l) (hterm : Terminated l.batch.octets)
    (hadds : (deliver c e m l.batch).2.octets = l.batch.octets ++ junk) (hjunk : Endless junk)
    (hno : delivered c e m l.batch = false) : BatchSound c (ms ++ [m]) (l.next c e m) := by
  have hconsume : consume (l.next c e m).batch.octets = (consume l.batch.octets).read junk := by
    rw [Ledger.next, hadds]
    exact Consumer.read_append _ _ hterm
  obtain ⟨haccepted, hstray⟩ := Consumer.read_endless (s := consume l.batch.octets) hjunk
  constructor
  · intro t ht
    rw [hconsume, haccepted] at ht
    obtain ⟨m', hm', hmt⟩ := h.accepted t ht
    exact ⟨m', by simp [hm'], hmt⟩
  · rw [hconsume, haccepted]
    simp only [Ledger.next, hno, Bool.false_eq_true, if_false]
    exact h.reported
  · rw [hconsume, hstray]
    exact h.dots

/-- A message is appended to a settled batch: it is settled again, or the message is cut. -/
theorem Settled.next {ms : List Message} {l : Ledger} {m : Message} (h : Settled c ms l)
    (hcalm : m.Calm c l.batch) : Settled c (ms ++ [m]) (l.next c e m) ∨
      m.Cut c e l.batch ∧ BatchSound c (ms ++ [m]) (l.next c e m) := by
  by_cases hopens : m.Opens c e l.batch
  -- all of the message is in the stream, or a part that ends no message
  · rcases deliver_opens hopens hcalm with hwhole | ⟨hcut, hno, junk, hjunk, hadds⟩
    · left
      obtain ⟨⟨texts, warning, hheaders⟩, -⟩ := id hopens
      simp only [Message.Calm, hheaders] at hcalm
      obtain ⟨hmail, hrcpts, hlined, -⟩ := hcalm
      have hconsume : consume (l.next c e m).batch.octets =
          ⟨.idle, (consume l.batch.octets).accepted ++ [m.transaction c],
            (consume l.batch.octets).stray⟩ := by
        rw [Ledger.next, hwhole]
        exact (Consumer.read_append _ _ h.terminated).trans
          (Consumer.read_message hmail hrcpts hlined h.idle)
      refine ⟨⟨?_, ?_, ?_⟩, ?_, by rw [hconsume], fun hdash => deliver_sinkfp hdash e m l.batch⟩
      · intro t ht
        rw [hconsume, List.mem_append, List.mem_singleton] at ht
        rcases ht with ht | rfl
        · obtain ⟨m', hm', hmt⟩ := h.sound.accepted t ht
          exact ⟨m', by simp [hm'], hmt⟩
        · exact ⟨m, by simp, rfl⟩
      · rw [hconsume]
        simp only [Ledger.next]
        split
        · exact h.sound.reported.append (List.Sublist.refl _)
        · exact h.sound.reported.trans (List.sublist_append_left _ _)
      · rw [hconsume]
        exact h.sound.dots
      · right
        rw [Ledger.next, hwhole, ← List.append_assoc, List.getLast?_append]
        rfl
    · exact .inr ⟨hcut, h.sound.next_endless h.terminated hadds hjunk hno⟩
  · -- nothing is added
    left
    obtain ⟨hsame, hno⟩ := deliver_not_opens hopens hcalm h.closed
    have hend : Endless [] := by simp [Endless, lfLines]
    have hoctets : (l.next c e m).batch.octets = l.batch.octets := hsame
    refine ⟨h.sound.next_endless h.terminated (by simpa using hsame) hend hno, ?_, ?_,
      fun hdash => deliver_sinkfp hdash e m l.batch⟩
    · rw [hoctets]
      exact h.terminated
    · rw [hoctets]
      exact h.idle

/-- What does not get to the batch does no harm, wherever the batch ends. -/
theorem BatchSound.run_aloof {rest : List Message} {ms : List Message} {l : Ledger}
    (h : BatchSound c ms l) (hclosed : c.dash = false → l.batch.sinkfp = none)
    (haloof : Aloof c e rest l.batch) (horderly : Orderly c e rest l.batch) :
    BatchSound c (ms ++ rest) (l.run c e rest) := by
  induction rest generalizing ms l with
  | nil => exact h.mono fun m hm => by simp [hm]
  | cons m rest ih =>
    obtain ⟨hopens, haloof⟩ := haloof
    obtain ⟨hcalm, -, horderly⟩ := horderly
    obtain ⟨hsame, hno⟩ := deliver_not_opens hopens hcalm hclosed
    have hnext : BatchSound c (ms ++ [m]) (l.next c e m) := by
      have hbatch : (l.next c e m).batch.octets = l.batch.octets := hsame
      have hreported : (l.next c e m).reported = l.reported := by simp [Ledger.next, hno]
      refine ⟨?_, ?_, ?_⟩
      · rw [hbatch]
        exact (h.mono fun m' hm' => by simp [hm']).accepted
      · rw [hbatch, hreported]
        exact h.reported
      · rw [hbatch]
        exact h.dots
    have hrun := ih hnext (fun hdash => deliver_sinkfp hdash e m l.batch) haloof horderly
    rwa [List.append_assoc] at hrun

theorem Settled.run {rest : List Message} {ms : List Message} {l : Ledger} (h : Settled c ms l)
    (horderly : Orderly c e rest l.batch) : BatchSound c (ms ++ rest) (l.run c e rest) := by
  induction rest generalizing ms l with
  | nil => exact h.sound.mono fun m hm => by simp [hm]
  | cons m rest ih =>
    obtain ⟨hcalm, hcut, horderly⟩ := horderly
    have hsplit : ms ++ m :: rest = ms ++ [m] ++ rest := by simp
    rw [hsplit]
    rcases h.next (e := e) hcalm with hnext | ⟨his, hnext⟩
    · exact ih hnext horderly
    · exact hnext.run_aloof (fun hdash => deliver_sinkfp hdash e m l.batch) (hcut his) horderly

theorem Aloof.part {done rest : List Message} {b : Batch} (h : Aloof c e (done ++ rest) b) :
    Aloof c e done b := by
  induction done generalizing b with
  | nil => exact trivial
  | cons m done ih => exact ⟨h.1, ih h.2⟩

theorem Orderly.part {done rest : List Message} {b : Batch} (h : Orderly c e (done ++ rest) b) :
    Orderly c e done b := by
  induction done generalizing b with
  | nil => exact trivial
  | cons m done ih =>
    obtain ⟨hcalm, hcut, hrest⟩ := h
    exact ⟨hcalm, fun his => (hcut his).part, ih hrest⟩

end

/-! ## Examples -/

/-- An account that delivers to a file. -/
def fileCtl : BsmtpCtl where
  line := ⟨.bsmtp, false, false, false⟩
  dash := false
  user := Bytes.lit "fetch"
  smtpaddress := none
  smtpname := none
  pass8bits := false

/-- Nothing goes wrong with files. -/
def sturdy : Disk := ⟨fun _ => none, fun _ => true, fun _ => true⟩

/-- A message for one user. -/
def wholeMessage : Message where
  msg := ⟨none, [⟨Bytes.lit "joe", .accept⟩], Bytes.lit "<amy@host>"⟩
  mime := ⟨false, true⟩
  headers := .addressed [Bytes.lit "Subject: hello\r\n\x00"] none
  reads := true
  body := [Bytes.lit ".\r\n\x00"]
  breaks := false

/-- A message whose body breaks off. -/
def brokenMessage : Message := { wholeMessage with body := [], breaks := true }

/-- A message that the user's filters refuse. -/
def refusedMessage : Message :=
  { wholeMessage with headers := .stopped .refused (by decide) }

/-- The connection breaks in the second message, and the third is refused. -/
theorem orderly_broken :
    Orderly fileCtl sturdy [wholeMessage, brokenMessage, refusedMessage] Ledger.start.batch := by
  have hmail : IsLine (mailLine fileCtl wholeMessage) :=
    ⟨Bytes.lit "MAIL FROM:<amy@host> BODY=7BIT\r", by decide, by decide⟩
  have hrcpts : ∀ l ∈ rcptLines fileCtl wholeMessage.msg, IsLine l := by
    intro l hl
    have hline : rcptLines fileCtl wholeMessage.msg =
        [Bytes.lit "RCPT TO:<joe@localhost>\r" ++ [Bytes.lf]] := by decide
    rw [hline, List.mem_singleton] at hl
    exact ⟨_, by decide, hl⟩
  have hlined : ∀ mem ∈ wholeMessage.texts, Lined fileCtl mem := by
    unfold Lined Terminated NoLoneDot
    decide +kernel
  have hbroken : ∀ mem ∈ brokenMessage.texts, Lined fileCtl mem := by
    unfold Lined Terminated NoLoneDot
    decide +kernel
  have hstopped : ∀ b, ¬ refusedMessage.Opens fileCtl sturdy b := by
    rintro b ⟨⟨texts, warning, h⟩, -⟩
    cases h
  have hrefused : ∀ b, refusedMessage.Calm fileCtl b := fun _ _ hdash => by cases hdash
  refine ⟨⟨hmail, hrcpts, hlined, by simp⟩, ?_, ⟨hmail, hrcpts, hbroken, by simp⟩, ?_, ?_⟩
  · -- the first is not cut
    rintro ⟨-, hbreaks | ⟨n, -, -, hn⟩⟩
    · cases hbreaks
    · exact absurd rfl hn
  · exact fun _ => ⟨hstopped _, trivial⟩
  · exact ⟨hrefused _, fun hcut => absurd hcut.1 (hstopped _), trivial⟩

end Fetchmail.Sink.Bsmtp
