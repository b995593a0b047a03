import Fetchmail.Sink.Stuffline

/-!
# Transparency of One Line

What the receiver of a line written by `stuffline` makes of it, against the line that came
from the server. The dot at the start of a line is looked for before the carriage returns
are taken out, so a dot that comes to the start only then is not doubled.
-/

namespace Fetchmail.Sink

open Fetchmail.Lib

section

variable (ctl : LineCtl)

/-- What the line of a source says: a delimited protocol has stuffed it. -/
def contentOf (line : Bytes) : Bytes := if ctl.delimited then unstuff line else line

/-- A line with the line end that the flags ask for. Taking out carriage returns comes last. -/
def normalised (line : Bytes) : Bytes :=
  if ctl.stripcr then line.filter (· ≠ Bytes.cr)
  else if ctl.forcecr then forceCr line
  else line

/-- The sink gets the text: an MDA as it is, the others by taking the stuffing off. -/
def Conveys (written text : Bytes) : Prop :=
  match ctl.kind with
  | .mda => written = text
  | .bsmtp | .socket => Reads written text

/-- Carriage returns at the start of the line, and behind them a dot. -/
def hiddenDot (line : Bytes) : Bool := !dotted line && dotted (line.dropWhile (· = Bytes.cr))

/-- The line that a delimited source ends its messages with, also if it is that only once the
carriage returns are gone. -/
def endMark (line : Bytes) : Bool :=
  ctl.delimited &&
    if ctl.stripcr then line.filter (· ≠ Bytes.cr) = [Bytes.dot, Bytes.lf] else loneDot line

/-- Nothing is wrong with the dots of a line for this sink. -/
def DotsInPlace (line : Bytes) : Prop :=
  ctl.kind ≠ .mda → ¬ (ctl.stripcr = true ∧ hiddenDot line = true) ∧ endMark ctl line = false

end

/-! ## One line with a line end -/

variable {ctl : LineCtl}

theorem forceCr_line (text : Bytes) : forceCr (text ++ [Bytes.lf]) =
    if text.getLast? = some Bytes.cr then text ++ [Bytes.lf] else text ++ Bytes.crlf := by
  simp only [forceCr, List.dropLast_concat]

theorem stripCr_ended (line : Bytes) (hline : IsLine line) :
    stripCr ctl (ended ctl line) = normalised ctl line := by
  obtain ⟨text, -, rfl⟩ := hline
  unfold stripCr normalised ended
  cases ctl.stripcr with
  | false => cases ctl.forcecr <;> rfl
  | true =>
    cases ctl.forcecr with
    | false => rfl
    | true =>
      simp only [if_true, forceCr_line]
      split
      · rfl
      · -- the carriage return that was put in goes out again
        simp [Bytes.crlf, Bytes.cr, Bytes.lf]

theorem isLine_normalised {line : Bytes} (hline : IsLine line) : IsLine (normalised ctl line) := by
  obtain ⟨text, htext, rfl⟩ := hline
  unfold normalised
  split
  · refine ⟨text.filter (· ≠ Bytes.cr), fun hmem => htext (List.mem_filter.mp hmem).1, ?_⟩
    simp [Bytes.cr, Bytes.lf]
  · split
    · rw [forceCr_line]
      split
      · exact ⟨text, htext, rfl⟩
      · refine ⟨text ++ [Bytes.cr], ?_, by simp [Bytes.crlf]⟩
        have hne : Bytes.lf ≠ Bytes.cr := by decide
        simp [htext, hne]
    · exact ⟨text, htext, rfl⟩

theorem dotted_ended {line : Bytes} (hline : IsLine line) :
    dotted (ended ctl line) = dotted line := by
  obtain ⟨text, -, rfl⟩ := hline
  obtain ⟨e, hended, he, -⟩ := ended_lineEnd ctl text
  rw [hended]
  cases text with
  | nil => rcases he with rfl | rfl <;> rfl
  | cons b text => rfl

/-- The dot stays at the start when the line end is set right. -/
theorem normalised_dot_cons {l : Bytes} (hl : IsLine l) :
    normalised ctl (Bytes.dot :: l) = Bytes.dot :: normalised ctl l := by
  obtain ⟨text, -, rfl⟩ := hl
  unfold normalised
  split
  · simp [Bytes.dot, Bytes.cr]
  · split
    -- whether there is a carriage return at the end does not depend on the dot
    · rw [← List.cons_append, forceCr_line, forceCr_line]
      cases text with
      | nil => rfl
      | cons b text =>
        rw [List.getLast?_cons_cons]
        split <;> rfl
    · rfl

/-- A line with a dot at its start is the dot and the rest of the line. -/
theorem exists_dot_cons {line : Bytes} (hline : IsLine line) (hdot : dotted line = true) :
    ∃ l, line = Bytes.dot :: l ∧ IsLine l := by
  obtain ⟨text, htext, rfl⟩ := hline
  cases text with
  | nil => simp [dotted, Bytes.dot, Bytes.lf] at hdot
  | cons b text =>
    have hb : b = Bytes.dot := by simpa [dotted] using hdot
    exact ⟨text ++ [Bytes.lf], by rw [hb]; rfl, text, fun hmem => htext (by simp [hmem]), rfl⟩

theorem dotted_normalised_of_dotted {line : Bytes} (hline : IsLine line)
    (hdot : dotted line = true) : dotted (normalised ctl line) = true := by
  obtain ⟨l, rfl, hl⟩ := exists_dot_cons hline hdot
  rw [normalised_dot_cons hl]
  simp [dotted]

/-- A dot that is at the start afterwards was there before, or behind carriage returns. -/
theorem dotted_filter_cr (line : Bytes) :
    dotted (line.filter (· ≠ Bytes.cr)) = dotted (line.dropWhile (· = Bytes.cr)) := by
  induction line with
  | nil => rfl
  | cons b line ih =>
    -- what comes before the first other character is taken out, either way
    by_cases hb : b = Bytes.cr
    · simpa [hb] using ih
    · simp [hb, dotted]

theorem dotted_normalised {line : Bytes} (hline : IsLine line) :
    (dotted (normalised ctl line) = true → dotted line = true) ↔
      ¬ (ctl.stripcr = true ∧ hiddenDot line = true) := by
  cases hstrip : ctl.stripcr with
  | true =>
    rw [normalised, hstrip, if_pos rfl, dotted_filter_cr]
    unfold hiddenDot
    cases dotted line <;> simp
  | false =>
    -- the start of the line stays
    have hnorm : normalised ctl line = ended ctl line := by
      rw [normalised, hstrip]
      rfl
    rw [hnorm, dotted_ended hline]
    simp

theorem loneDot_normalised {line : Bytes} (hline : IsLine line) (hdelim : ctl.delimited = true) :
    loneDot (normalised ctl line) = endMark ctl line := by
  obtain ⟨text, htext, rfl⟩ := hline
  unfold endMark normalised
  rw [hdelim, Bool.true_and]
  cases ctl.stripcr with
  | true =>
    simp only [if_true]
    have hcr : Bytes.cr ∉ (text ++ [Bytes.lf]).filter (· ≠ Bytes.cr) := by simp
    have hlf : Bytes.lf ∈ (text ++ [Bytes.lf]).filter (· ≠ Bytes.cr) := by
      simp [Bytes.cr, Bytes.lf]
    generalize (text ++ [Bytes.lf]).filter (· ≠ Bytes.cr) = l at hcr hlf
    have hcrlf : l ≠ [Bytes.dot, Bytes.cr, Bytes.lf] := by
      rintro rfl
      simp at hcr
    have hnone : l ≠ [Bytes.dot] := by
      rintro rfl
      simp [Bytes.dot, Bytes.lf] at hlf
    simp [loneDot, hcrlf, hnone]
  | false =>
    simp only [Bool.false_eq_true, if_false]
    cases ctl.forcecr with
    | false => rfl
    | true =>
      simp only [if_true, forceCr_line]
      split
      · rfl
      · next hcr =>
        -- `.\n` becomes `.\r\n`
        have hiff : ∀ e : Bytes, e = [Bytes.lf] ∨ e = Bytes.crlf →
            (loneDot (text ++ e) = true ↔ text = [Bytes.dot]) := by
          intro e he
          constructor
          · intro hlone
            rcases text with _ | ⟨b, _ | ⟨c, _ | ⟨d, text⟩⟩⟩
            · rcases he with rfl | rfl <;> simp [loneDot, Bytes.crlf, Bytes.lf,
                Bytes.cr, Bytes.dot] at hlone
            · rcases he with rfl | rfl <;> simp [loneDot, Bytes.crlf, Bytes.lf,
                Bytes.cr, Bytes.dot] at hlone ⊢ <;> exact hlone
            · have hc : c ≠ Bytes.cr := by simpa using hcr
              rcases he with rfl | rfl <;> simp [loneDot, Bytes.crlf] at hlone
              exact absurd hlone.2 hc
            · rcases he with rfl | rfl <;> simp [loneDot, Bytes.crlf] at hlone
          · rintro rfl
            rcases he with rfl | rfl <;> rfl
        rw [Bool.eq_iff_iff, hiff _ (.inr rfl), hiff _ (.inl rfl)]

/-! ## What is read of the line -/

theorem lfLines_line {l : Bytes} (hl : IsLine l) : lfLines l = [l] := by
  obtain ⟨text, htext, rfl⟩ := hl
  have h := lfLines_line_append [] htext
  simpa [lfLines] using h

theorem reads_line {l text : Bytes} (hl : IsLine l) :
    Reads l text ↔ unstuff l = text ∧ loneDot l = false := by
  unfold Reads unstuffLines NoLoneDot
  rw [lfLines_line hl]
  simp

/-- From an undelimited source: the dot is doubled if the line had it at its start. -/
theorem reads_undelimited {line : Bytes} (hline : IsLine line) :
    Reads ((if dotted line then [Bytes.dot] else []) ++ normalised ctl line)
        (normalised ctl line) ↔
      ¬ (ctl.stripcr = true ∧ hiddenDot line = true) := by
  rw [← dotted_normalised hline]
  have hlead : Lead (if dotted line then [Bytes.dot] else []) (normalised ctl line) := by
    split
    · next hdot => exact .inr ⟨rfl, dotted_normalised_of_dotted hline hdot⟩
    · exact .inl rfl
  -- the receiver takes off the dot that was put in, and no other
  rw [hlead.accounted.2]
  constructor
  · intro hled hdot
    -- a dot that was not doubled would be taken off
    have hfirst := hled.first hdot
    by_contra hnot
    simp [hnot] at hfirst
  · intro hdot
    constructor
    · intro hnorm
      simp [hdot hnorm]
    · rw [lfLines_line (isLine_normalised hline)]
      simp

/-- From a delimited source: the dot of the source is the stuffing. -/
theorem reads_delimited {line : Bytes} (hline : IsLine line) (hdelim : ctl.delimited = true) :
    Reads (normalised ctl line) (normalised ctl (unstuff line)) ↔
      ¬ (ctl.stripcr = true ∧ hiddenDot line = true) ∧ endMark ctl line = false := by
  rw [reads_line (isLine_normalised hline), loneDot_normalised hline hdelim,
    ← dotted_normalised hline]
  apply and_congr_left
  intro _
  -- a dot of the source is taken off, whoever takes it
  cases hdot : dotted line with
  | true =>
    obtain ⟨l, rfl, hl⟩ := exists_dot_cons hline hdot
    have hunstuff : ∀ l, unstuff (Bytes.dot :: l) = l := fun l => by simp [unstuff]
    simp [normalised_dot_cons hl, hunstuff]
  | false =>
    have hunstuff : ∀ l, dotted l = false → unstuff l = l := by
      intro l hl
      simp only [dotted, decide_eq_false_iff_not] at hl
      simp [unstuff, hl]
    rw [hunstuff line hdot]
    constructor
    · intro heq hnorm
      -- a dot would be taken off
      have hlength := congrArg List.length heq
      obtain ⟨l, hl, -⟩ := exists_dot_cons (isLine_normalised hline) hnorm
      rw [hl] at hlength
      simp [unstuff] at hlength
    · intro hnorm
      apply hunstuff
      simpa using hnorm

/-- An MDA gets what the source says. -/
theorem stripCr_contentOf {line : Bytes} (hline : IsLine line) (hkind : ctl.kind = .mda) :
    stripCr ctl ((ended ctl line).drop (skipped ctl (ended ctl line))) =
      normalised ctl (contentOf ctl line) := by
  have hended := @dotted_ended ctl _ hline
  unfold skipped contentOf
  simp only [hkind, and_true]
  cases hdelim : ctl.delimited with
  | false => simpa using stripCr_ended line hline
  -- the dot is skipped
  | true =>
    cases hdot : dotted line with
    | false =>
      rw [hdot] at hended
      simp only [dotted, decide_eq_false_iff_not] at hended hdot
      simpa [hended, unstuff, hdot] using stripCr_ended line hline
    | true =>
      rw [hdot] at hended
      simp only [dotted, decide_eq_true_eq] at hended
      obtain ⟨l, rfl, hl⟩ := exists_dot_cons hline hdot
      have hnorm := @stripCr_ended ctl (Bytes.dot :: l) hline
      rw [normalised_dot_cons hl] at hnorm
      obtain ⟨r, hr⟩ : ∃ r, ended ctl (Bytes.dot :: l) = Bytes.dot :: r :=
        ⟨_, (List.cons_head?_tail hended).symm⟩
      have hstrip : stripCr ctl (Bytes.dot :: r) = Bytes.dot :: stripCr ctl r := by
        unfold stripCr
        split
        · simp [Bytes.dot, Bytes.cr]
        · rfl
      rw [hr, hstrip] at hnorm
      rw [hr]
      simpa [unstuff] using hnorm

/-- What is written for a line of the buffer reaches the receiver as what the source says,
with the line end that the flags ask for, exactly if the dots are in place. What lies in the
buffer behind the line has no part in it. -/
theorem stuffline_transparent (ctl : LineCtl) (line tail : Bytes) (hline : IsLine line) :
    Conveys ctl (stuffline ctl (line ++ Bytes.nul :: tail)).written
        (normalised ctl (contentOf ctl line)) ↔
      DotsInPlace ctl line := by
  have hfound : huntLine (line ++ Bytes.nul :: tail) = line := huntLine_line hline
  have hwritten : (stuffline ctl (line ++ Bytes.nul :: tail)).written = sinkLine ctl line := by
    simp only [stuffline, hfound]
  have hended := @dotted_ended ctl _ hline
  rw [hwritten]
  unfold Conveys DotsInPlace sinkLine
  -- an MDA takes what is written as it is
  by_cases hkind : ctl.kind = .mda
  · have hcontent := stripCr_contentOf hline hkind
    simp only [hcontent, hkind, stuffing]
    simp
  · -- the other sinks take the stuffing off
    have hskip : skipped ctl (ended ctl line) = 0 := by simp [skipped, hkind]
    have hlead : stuffing ctl (ended ctl line) =
        if dotted line && !ctl.delimited then [Bytes.dot] else [] := by
      rw [← hended]
      cases hdelim : ctl.delimited <;> simp [stuffing, dotted, hkind, hdelim]
    have hreads : Reads (stuffing ctl (ended ctl line) ++
          stripCr ctl ((ended ctl line).drop (skipped ctl (ended ctl line))))
          (normalised ctl (contentOf ctl line)) ↔
        ¬ (ctl.stripcr = true ∧ hiddenDot line = true) ∧ endMark ctl line = false := by
      rw [hskip, hlead, List.drop_zero, stripCr_ended line hline]
      cases hdelim : ctl.delimited with
      | false =>
        have hundelim := @reads_undelimited ctl _ hline
        simpa [contentOf, endMark, hdelim] using hundelim
      | true =>
        have hread := @reads_delimited ctl _ hline hdelim
        simpa [contentOf, hdelim] using hread
    have hnot : ctl.kind ≠ .mda := hkind
    cases hk : ctl.kind with
    | mda => exact absurd hk hkind
    | bsmtp => simpa [hk] using hreads
    | socket => simpa [hk] using hreads

/-- `\r.a` from a source that does not stuff, for a sink that wants no carriage returns: the
dot is taken for stuffing. -/
theorem stuffline_loses_dot :
    let ctl : LineCtl := { kind := .socket, delimited := false, forcecr := false, stripcr := true }
    let line : Bytes := [Bytes.cr, Bytes.dot, 97, Bytes.lf]
    (stuffline ctl (line ++ [Bytes.nul])).written = [Bytes.dot, 97, Bytes.lf] ∧
      normalised ctl (contentOf ctl line) = [Bytes.dot, 97, Bytes.lf] ∧
      ¬ Conveys ctl (stuffline ctl (line ++ [Bytes.nul])).written
        (normalised ctl (contentOf ctl line)) := by
  refine ⟨by decide, by decide, ?_⟩
  rintro ⟨heq, -⟩
  exact absurd heq (by decide)

theorem stuffline_transparent_dotted :
    let ctl : LineCtl := { kind := .socket, delimited := false, forcecr := true, stripcr := false }
    Conveys ctl (stuffline ctl [Bytes.dot, 97, Bytes.lf, Bytes.nul, 7]).written
      (normalised ctl (contentOf ctl [Bytes.dot, 97, Bytes.lf])) :=
  (stuffline_transparent _ [Bytes.dot, 97, Bytes.lf] [7] ⟨[Bytes.dot, 97], by decide, rfl⟩).mpr
    fun _ => by decide

end Fetchmail.Sink
