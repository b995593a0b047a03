import Fetchmail.Lib.Storage

/-!
# Messages in Parts

`report.c`: messages that are built from parts in a buffer that grows, and printed when they are
complete, when they are flushed, or when another message comes between. What the formats give is
taken as text, so `vsnprintf` does not fail, and the texts are shorter than the `2^31` bytes that
its result can tell. What `malloc` and `realloc` leave in new storage is arbitrary. A write outside
of the buffer has no result.

Over every run of calls, each part is printed once, in order.
-/

namespace Fetchmail.Report

open Fetchmail.Lib

/-- What is printed. -/
inductive Out where
  /-- the program's name -/
  | tag
  | newline
  | text (s : Bytes)
  /-- `" (log message incomplete)\n"` -/
  | incomplete
  deriving DecidableEq, Repr

/-- The static variables. -/
structure Vars where
  /-- `partial_message`, of `partial_message_size` bytes -/
  partialMessage : Bytes
  /-- `partial_message_size_used` -/
  used : Nat
  /-- `partial_suppress_tag` -/
  suppressTag : Bool
  unbuffered : Bool
  useSyslog : Bool
  deriving DecidableEq, Repr

/-- The variables at the start of the program. -/
def Vars.start : Vars := ⟨[], 0, false, false, false⟩

/-- New storage. -/
def fresh (junk : Nat → UInt8) (n : Nat) : Bytes := (List.range n).map junk

/-- `rep_ensuresize` -/
def repEnsuresize (junk : Nat → UInt8) (v : Vars) : Vars :=
  if v.partialMessage.length = 0 then { v with partialMessage := fresh junk 2048, used := 0 }
  else if v.partialMessage.length - v.used < 1024 then
    { v with partialMessage := v.partialMessage ++ fresh junk 2048 }
  else v

/-- `report_vbuild`, with `vsnprintf` again after each growth. The fuel bounds the number of
attempts. -/
def reportVbuild (junk : Nat → UInt8) (text : Bytes) : Nat → Vars → Option Vars
  | 0, _ => none
  | fuel + 1, v =>
    let room := v.partialMessage.length - v.used
    (Storage.snprintf v.partialMessage v.used room text).bind fun mem =>
      if text.length < room then some { v with partialMessage := mem, used := v.used + text.length }
      else reportVbuild junk text fuel { v with partialMessage := mem ++ fresh junk 2048 }

/-- `printf`, or `vsyslog`, of a message; `lead` says that its format starts with a newline. -/
def print (v : Vars) (lead : Bool) (body : List Out) : Vars × List Out :=
  let lead := if lead then [Out.newline] else []
  if v.useSyslog then (v, lead ++ body)
  else ({ v with suppressTag := false },
    lead ++ (if v.suppressTag then [] else [Out.tag]) ++ body)

/-- `partial_message`, as it is printed. -/
def Vars.message (v : Vars) : Out := .text (Bytes.cstr v.partialMessage)

/-- `report` -/
def report (v : Vars) (lead : Bool) (text : Bytes) : Vars × List Out :=
  if v.used ≠ 0 then
    -- a partially built message is printed so that it is not lost
    let first := print { v with used := 0 } false [v.message, .incomplete]
    let second := print first.1 lead [.text text]
    (second.1, first.2 ++ second.2)
  else print v lead [.text text]

/-- `rep_ensuresize` and `report_vbuild` -/
def addPart (junk : Nat → UInt8) (v : Vars) (text : Bytes) : Option Vars :=
  reportVbuild junk text (text.length + 1) (repEnsuresize junk v)

/-- `report_build` -/
def reportBuild (junk : Nat → UInt8) (v : Vars) (text : Bytes) : Option (Vars × List Out) :=
  (addPart junk v text).map fun v =>
    if v.unbuffered && v.used ≠ 0 then ({ v with used := 0 }, [v.message]) else (v, [])

/-- `report_flush` -/
def reportFlush (v : Vars) : Vars × List Out :=
  if v.used ≠ 0 then
    let printed := report { v with used := 0 } false (Bytes.cstr v.partialMessage)
    ({ printed.1 with suppressTag := true }, printed.2)
  else (v, [])

/-- `report_complete` -/
def reportComplete (junk : Nat → UInt8) (v : Vars) (text : Bytes) : Option (Vars × List Out) :=
  (addPart junk v text).map fun v =>
    if v.unbuffered then ({ v with used := 0 }, [v.message])
    else report { v with used := 0 } false (Bytes.cstr v.partialMessage)

/-- `report_init` -/
def reportInit (v : Vars) (mode : Int) : Vars :=
  { v with unbuffered := mode = 1, useSyslog := mode = -1 }

/-- The calls that the program makes. -/
inductive Call where
  | report (lead : Bool) (text : Bytes)
  | build (text : Bytes)
  | flush
  | complete (text : Bytes)
  | init (mode : Int)
  deriving DecidableEq, Repr

/-- One call. -/
def call (junk : Nat → UInt8) (v : Vars) : Call → Option (Vars × List Out)
  | .report lead text => some (report v lead text)
  | .build text => reportBuild junk v text
  | .flush => some (reportFlush v)
  | .complete text => reportComplete junk v text
  | .init mode => some (reportInit v mode, [])

/-- A run of calls, and all that is printed. -/
def run (junk : Nat → UInt8) (v : Vars) : List Call → Option (Vars × List Out)
  | [] => some (v, [])
  | c :: cs =>
    (call junk v c).bind fun first =>
      (run junk first.1 cs).map fun rest => (rest.1, first.2 ++ rest.2)

/-! ## Parts and what is shown of them -/

/-- The text of a call. -/
def Call.text : Call → Bytes
  | .report lead text => (if lead then [Bytes.lf] else []) ++ text
  | .build text => text
  | .complete text => text
  | .flush => []
  | .init _ => []

/-- The text in the output, without tags and markers. -/
def shown (out : List Out) : Bytes :=
  out.flatMap fun o =>
    match o with
    | .tag => []
    | .newline => [Bytes.lf]
    | .text s => s
    | .incomplete => []

/-- The parts that have not been printed. -/
def Vars.pending (v : Vars) : Bytes := v.partialMessage.take v.used

/-- The pending parts stand in the buffer as a string. -/
structure Inv (v : Vars) : Prop where
  plain : Bytes.nul ∉ v.pending
  ends : v.used = 0 ∨ v.pending ++ [Bytes.nul] <+: v.partialMessage
  fits : v.used ≤ v.partialMessage.length

section

variable {junk : Nat → UInt8} {v : Vars} {text : Bytes}

@[simp]
theorem shown_append (a b : List Out) : shown (a ++ b) = shown a ++ shown b := List.flatMap_append

@[simp]
theorem length_fresh (n : Nat) : (fresh junk n).length = n := by simp [fresh]

theorem Inv.message (h : Inv v) (hused : v.used ≠ 0) : v.message = .text v.pending := by
  obtain ⟨rest, hrest⟩ := h.ends.resolve_left hused
  have hall : ∀ b ∈ v.pending, decide (b ≠ Bytes.nul) = true := fun b hb =>
    decide_eq_true fun heq => h.plain (heq ▸ hb)
  rw [Vars.message, ← hrest, Bytes.cstr, List.append_assoc, List.takeWhile_append_of_pos hall]
  simp

theorem inv_used_zero (v : Vars) (h : v.used = 0) : Inv v where
  plain := by simp [Vars.pending, h]
  ends := Or.inl h
  fits := by omega

/-- There is room, and what is pending stays. -/
theorem repEnsuresize_spec (junk : Nat → UInt8) (h : Inv v) :
    1024 ≤ (repEnsuresize junk v).partialMessage.length - (repEnsuresize junk v).used ∧
      (repEnsuresize junk v).pending = v.pending ∧
      (repEnsuresize junk v).used = v.used := by
  have hfits := h.fits
  unfold repEnsuresize
  split_ifs with h0 hroom
  · have hused : v.used = 0 := by omega
    refine ⟨by simp, by simp [Vars.pending, hused], hused.symm⟩
  · refine ⟨?_, ?_, rfl⟩
    · simp only [List.length_append, length_fresh]
      omega
    · exact List.take_append_of_le_length hfits
  · exact ⟨by omega, rfl, rfl⟩

/-- One attempt of `vsnprintf`: it keeps what is pending, and writes as much of the text as there
is room for. -/
theorem snprintf_room (hroom : 0 < v.partialMessage.length - v.used) (text : Bytes) :
    ∃ mem, Storage.snprintf v.partialMessage v.used (v.partialMessage.length - v.used) text =
        some mem ∧ mem.length = v.partialMessage.length ∧
      v.pending ++ (text.take (v.partialMessage.length - v.used - 1) ++ [Bytes.nul]) <+: mem := by
  have hcut : v.used + (text.take (v.partialMessage.length - v.used - 1) ++ [Bytes.nul]).length ≤
      v.partialMessage.length := by
    rw [List.length_append, List.length_take, List.length_singleton]
    omega
  obtain ⟨mem, hwrite, hlen, hstart⟩ := Storage.write_fits hcut
  refine ⟨mem, by rw [Storage.snprintf, if_neg (by omega), hwrite], hlen, ?_⟩
  rw [Vars.pending, ← hstart]
  exact List.take_prefix _ _

/-- The buffer grows until the part fits, and then holds it behind what is pending. -/
theorem reportVbuild_spec (junk : Nat → UInt8) (text : Bytes) (fuel : Nat) {v : Vars}
    (hroom : 0 < v.partialMessage.length - v.used)
    (hfuel : text.length < v.partialMessage.length - v.used + 2048 * fuel) :
    ∃ mem, reportVbuild junk text (fuel + 1) v =
        some { v with partialMessage := mem, used := v.used + text.length } ∧
      v.pending ++ text ++ [Bytes.nul] <+: mem := by
  induction fuel generalizing v with
  | zero =>
    obtain ⟨mem, hprint, -, hstart⟩ := snprintf_room hroom text
    rw [List.take_of_length_le (by omega), ← List.append_assoc] at hstart
    refine ⟨mem, ?_, hstart⟩
    simp only [reportVbuild, hprint, Option.bind_some]
    rw [if_pos (by omega)]
  | succ fuel ih =>
    obtain ⟨mem, hprint, hlen, hstart⟩ := snprintf_room hroom text
    by_cases hfit : text.length < v.partialMessage.length - v.used
    · rw [List.take_of_length_le (by omega), ← List.append_assoc] at hstart
      refine ⟨mem, ?_, hstart⟩
      rw [reportVbuild]
      simp only [hprint, Option.bind_some, if_pos hfit]
    · -- the next attempt has room for 2048 bytes more
      have hgrown : (mem ++ fresh junk 2048).length = v.partialMessage.length + 2048 := by
        rw [List.length_append, length_fresh, hlen]
      have hpending : (mem ++ fresh junk 2048).take v.used = v.pending := by
        obtain ⟨rest, hrest⟩ := hstart
        have hlength : v.pending.length = v.used := by
          rw [Vars.pending, List.length_take]
          omega
        rw [← hrest, List.append_assoc, List.append_assoc, List.take_left' hlength]
      obtain ⟨mem', hrun, hends⟩ := ih (v := { v with partialMessage := mem ++ fresh junk 2048 })
        (by dsimp only; omega) (by dsimp only; omega)
      refine ⟨mem', ?_, ?_⟩
      · rw [reportVbuild]
        simp only [hprint, Option.bind_some, if_neg hfit]
        exact hrun
      · rwa [← hpending]

/-- A part is added behind what is pending. -/
theorem addPart_spec (junk : Nat → UInt8) (h : Inv v) (hplain : Bytes.nul ∉ text) :
    ∃ v', addPart junk v text = some v' ∧ Inv v' ∧ v'.pending = v.pending ++ text ∧
      v'.message = .text (v.pending ++ text) := by
  obtain ⟨hroom, hpending, hused⟩ := repEnsuresize_spec junk h
  -- there is room behind what is pending, so that the text is printed whole
  obtain ⟨mem, hrun, hends⟩ := reportVbuild_spec junk text text.length
    (v := repEnsuresize junk v) (by omega) (by omega)
  have hlength : (v.pending ++ text).length = v.used + text.length := by
    have hfits := h.fits
    rw [List.length_append, Vars.pending, List.length_take]
    omega
  obtain ⟨rest, hrest⟩ := hends
  rw [hpending] at hrest
  have hnul : Bytes.nul ∉ v.pending ++ text := by
    rw [List.mem_append]
    exact not_or.mpr ⟨h.plain, hplain⟩
  have htake : mem.take ((repEnsuresize junk v).used + text.length) = v.pending ++ text := by
    rw [hused, ← hrest, List.append_assoc, List.take_left' hlength]
  -- neither part has a NUL in it, so that the message is both of them
  have hmessage : Bytes.cstr mem = v.pending ++ text := by
    have hall : ∀ b ∈ v.pending ++ text, decide (b ≠ Bytes.nul) = true := fun b hb =>
      decide_eq_true fun heq => hnul (heq ▸ hb)
    rw [← hrest, Bytes.cstr, List.append_assoc, List.takeWhile_append_of_pos hall]
    simp
  refine ⟨_, hrun, ⟨?_, Or.inr ?_, ?_⟩, htake, congrArg Out.text hmessage⟩
  · rwa [Vars.pending, htake]
  · rw [Vars.pending, htake]
    exact ⟨rest, hrest⟩
  · have hfit := congrArg List.length hrest
    simp only [List.length_append, List.length_singleton] at hfit hlength
    dsimp only
    omega

/-! ## Runs -/

/-- What is printed for a message is its text, and nothing else of the variables changes than the
flag for the tag. -/
theorem print_spec (v : Vars) (lead : Bool) (body : List Out) :
    shown (print v lead body).2 = (if lead then [Bytes.lf] else []) ++ shown body ∧
      (print v lead body).1.used = v.used ∧
      (print v lead body).1.partialMessage = v.partialMessage := by
  unfold print
  cases lead <;> cases v.useSyslog <;> cases v.suppressTag <;> simp [shown]

/-- A message from elsewhere comes behind what is pending. -/
theorem report_spec (h : Inv v) (lead : Bool) (text : Bytes) :
    shown (report v lead text).2 = v.pending ++ ((if lead then [Bytes.lf] else []) ++ text) ∧
      (report v lead text).1.used = 0 := by
  unfold report
  by_cases hused : v.used ≠ 0
  · rw [if_pos hused, h.message hused]
    have hfirst := print_spec { v with used := 0 } false [.text v.pending, .incomplete]
    have hsecond := print_spec (print { v with used := 0 } false [.text v.pending, .incomplete]).1
      lead [.text text]
    refine ⟨?_, hsecond.2.1.trans hfirst.2.1⟩
    rw [shown_append, hfirst.1, hsecond.1]
    simp [shown]
  · rw [if_neg hused]
    have hzero : v.used = 0 := not_not.mp hused
    have hprint := print_spec v lead [.text text]
    refine ⟨?_, hprint.2.1.trans hzero⟩
    rw [hprint.1]
    simp [shown, Vars.pending, hzero]

/-- A message that is printed whole leaves nothing pending. -/
theorem report_whole (v : Vars) (text : Bytes) :
    shown (report { v with used := 0 } false text).2 = text ∧
      (report { v with used := 0 } false text).1.used = 0 := by
  have h := report_spec (inv_used_zero { v with used := 0 } rfl) false text
  refine ⟨h.1.trans ?_, h.2⟩
  simp [Vars.pending]

theorem pending_used_zero (h : v.used = 0) : v.pending = [] := by simp [Vars.pending, h]

theorem reportBuild_spec (junk : Nat → UInt8) (h : Inv v) (hplain : Bytes.nul ∉ text) :
    ∃ v' out, reportBuild junk v text = some (v', out) ∧ Inv v' ∧
      shown out ++ v'.pending = v.pending ++ text := by
  obtain ⟨w, hadd, hinv, hpending, hmessage⟩ := addPart_spec junk h hplain
  by_cases hprint : (w.unbuffered && w.used ≠ 0) = true
  · refine ⟨{ w with used := 0 }, [w.message], ?_, inv_used_zero _ rfl, ?_⟩
    · rw [reportBuild, hadd, Option.map_some, if_pos hprint]
    · rw [pending_used_zero rfl, hmessage, List.append_nil]
      simp [shown]
  · refine ⟨w, [], ?_, hinv, hpending⟩
    rw [reportBuild, hadd, Option.map_some, if_neg hprint]

theorem reportComplete_spec (junk : Nat → UInt8) (h : Inv v) (hplain : Bytes.nul ∉ text) :
    ∃ v' out, reportComplete junk v text = some (v', out) ∧ Inv v' ∧
      shown out ++ v'.pending = v.pending ++ text := by
  obtain ⟨w, hadd, -, -, hmessage⟩ := addPart_spec junk h hplain
  by_cases hprint : w.unbuffered = true
  · refine ⟨{ w with used := 0 }, [w.message], ?_, inv_used_zero _ rfl, ?_⟩
    · rw [reportComplete, hadd, Option.map_some, if_pos hprint]
    · rw [pending_used_zero rfl, hmessage, List.append_nil]
      simp [shown]
  · have hwhole := report_whole w (Bytes.cstr w.partialMessage)
    refine ⟨(report { w with used := 0 } false (Bytes.cstr w.partialMessage)).1,
      (report { w with used := 0 } false (Bytes.cstr w.partialMessage)).2, ?_,
      inv_used_zero _ hwhole.2, ?_⟩
    · rw [reportComplete, hadd, Option.map_some, if_neg hprint]
    · rw [pending_used_zero hwhole.2, hwhole.1, List.append_nil]
      exact Out.text.inj hmessage

theorem reportFlush_spec (h : Inv v) :
    Inv (reportFlush v).1 ∧ shown (reportFlush v).2 ++ (reportFlush v).1.pending = v.pending := by
  by_cases hused : v.used ≠ 0
  · have hwhole := report_whole v (Bytes.cstr v.partialMessage)
    have hmessage : Bytes.cstr v.partialMessage = v.pending := Out.text.inj (h.message hused)
    have hzero : (reportFlush v).1.used = 0 := by
      rw [reportFlush, if_pos hused]
      exact hwhole.2
    refine ⟨inv_used_zero _ hzero, ?_⟩
    rw [pending_used_zero hzero, List.append_nil, reportFlush, if_pos hused]
    exact hwhole.1.trans hmessage
  · rw [reportFlush, if_neg hused]
    exact ⟨h, rfl⟩

/-- A call shows what was pending and its own text, up to what is pending then. -/
theorem call_spec (junk : Nat → UInt8) (h : Inv v) {c : Call} (hplain : Bytes.nul ∉ c.text) :
    ∃ v' out, call junk v c = some (v', out) ∧ Inv v' ∧
      shown out ++ v'.pending = v.pending ++ c.text := by
  cases c with
  | report lead text =>
    obtain ⟨hshown, hused⟩ := report_spec h lead text
    refine ⟨(report v lead text).1, (report v lead text).2, rfl, inv_used_zero _ hused, ?_⟩
    rw [hshown, pending_used_zero hused, List.append_nil]
    rfl
  | build text => exact reportBuild_spec junk h hplain
  | flush =>
    refine ⟨(reportFlush v).1, (reportFlush v).2, rfl, (reportFlush_spec h).1, ?_⟩
    rw [(reportFlush_spec h).2]
    exact (List.append_nil _).symm
  | complete text => exact reportComplete_spec junk h hplain
  | init mode =>
    refine ⟨reportInit v mode, [], rfl, ⟨h.plain, h.ends, h.fits⟩, ?_⟩
    simp [shown, Call.text, Vars.pending, reportInit]

/-- Over every run of calls no write leaves the buffer, and each part is printed once and in order:
what has been printed, and what is pending, is the texts of the calls one after the other. -/
theorem run_spec (junk : Nat → UInt8) (h : Inv v) {calls : List Call}
    (hplain : ∀ c ∈ calls, Bytes.nul ∉ c.text) :
    ∃ v' out, run junk v calls = some (v', out) ∧ Inv v' ∧
      shown out ++ v'.pending = v.pending ++ calls.flatMap Call.text := by
  induction calls generalizing v with
  | nil => exact ⟨v, [], rfl, h, by simp [shown]⟩
  | cons c calls ih =>
    obtain ⟨v₁, out₁, hcall, h₁, hshown₁⟩ := call_spec junk h (hplain c (List.mem_cons_self ..))
    obtain ⟨v₂, out₂, hrun, h₂, hshown₂⟩ := ih h₁ fun d hd => hplain d (List.mem_cons_of_mem _ hd)
    refine ⟨v₂, out₁ ++ out₂, ?_, h₂, ?_⟩
    · rw [run, hcall]
      simp only [Option.bind_some, hrun, Option.map_some]
    · rw [shown_append, List.append_assoc, hshown₂, ← List.append_assoc, hshown₁,
        List.flatMap_cons, List.append_assoc]

end

end Fetchmail.Report
