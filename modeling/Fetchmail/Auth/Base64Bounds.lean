import Fetchmail.Auth.Base64
import Mathlib.Data.List.GetD
import Mathlib.Data.List.Nodup
import Mathlib.Tactic.IntervalCases

/-!
# Base 64 in Memory

`from64tobits` with each byte that it reads and writes. The memory from the start of the text to
its terminator is a list; what is behind it cannot be read, so a run that has a result has read
nothing there. The value `-1` and the bytes that were written before it are a result like others.

Lengths are natural numbers: a caller's `int` counts no more than `2^31 - 1` bytes.
-/

namespace Fetchmail.Auth

open Fetchmail.Lib

/-! ## The decoder -/

/-- The result of `from64tobits`, and what it wrote. -/
structure Decoded where
  result : Int
  written : Bytes
  deriving DecidableEq, Repr

/-- `digit = in[i]; if (DECODE64(digit) == BAD) return(-1);` -/
def readDigit (mem : Bytes) (i : Nat) (out : Bytes) (next : UInt8 → Option Decoded) :
    Option Decoded :=
  match mem[i]? with
  | none => none
  | some c =>
    match decode64 c with
    | none => some ⟨-1, out⟩
    | some d => next d

/-- `digit = in[i]; if (digit != '=' && DECODE64(digit) == BAD) return(-1);` -/
def readDigitOrPad (mem : Bytes) (i : Nat) (out : Bytes) (next : Option UInt8 → Option Decoded) :
    Option Decoded :=
  match mem[i]? with
  | none => none
  | some c =>
    match decodeOrPad c with
    | none => some ⟨-1, out⟩
    | some d => next d

/-- `++len; if (maxlen && len > maxlen) return(-1); *out++ = b;` -/
def putByte (maxlen : Nat) (b : UInt8) (len : Nat) (out : Bytes)
    (next : Nat → Bytes → Option Decoded) : Option Decoded :=
  if maxlen ≠ 0 ∧ maxlen < len + 1 then some ⟨-1, out⟩ else next (len + 1) (out ++ [b])

/-- The stores of one round. -/
def putGroup (maxlen : Nat) : Bytes → (len : Nat) → (out : Bytes) →
    (next : Nat → Bytes → Option Decoded) → Option Decoded
  | [], len, out, next => next len out
  | b :: group, len, out, next =>
    putByte maxlen b len out fun len out => putGroup maxlen group len out next

/-- `while (*in && *in != '\r' && digit4 != '=')`, with `again` for another round. -/
def decodeNext (again : Bytes → Nat → Bytes → Option Decoded) (mem : Bytes) (d₄ : Option UInt8)
    (len : Nat) (out : Bytes) : Option Decoded :=
  match mem[0]? with
  | none => none
  | some c =>
    if c ≠ Bytes.nul ∧ c ≠ Bytes.cr ∧ d₄ ≠ none then again mem len out else some ⟨len, out⟩

/-- The loop of `from64tobits`. A round takes four bytes, so the size of the memory is fuel
enough. -/
def decodeLoop (maxlen : Nat) : (fuel : Nat) → (mem : Bytes) → (len : Nat) → (out : Bytes) →
    Option Decoded
  | 0, _, _, _ => none
  | fuel + 1, mem, len, out =>
    readDigit mem 0 out fun d₁ =>
    readDigit mem 1 out fun d₂ =>
    readDigitOrPad mem 2 out fun d₃ =>
    readDigitOrPad mem 3 out fun d₄ =>
    putGroup maxlen (decodeGroup d₁ d₂ d₃ d₄) len out
      (decodeNext (decodeLoop maxlen fuel) (mem.drop 4) d₄)

/-- `in[0] == '+' && in[1] == ' '` -/
def skipsReady (mem : Bytes) : Option Bool :=
  match mem[0]? with
  | none => none
  | some c => if c = 43 then (mem[1]?).map fun c => decide (c = Bytes.space) else some false

/-- `from64tobits` on a text in memory; `none` if a byte is read that is not there. -/
def from64tobitsMem (mem : Bytes) (maxlen : Nat) : Option Decoded :=
  (skipsReady mem).bind fun skip =>
    let mem := if skip then mem.drop 2 else mem
    (mem[0]?).bind fun c =>
      if c = Bytes.cr then some ⟨0, []⟩ else decodeLoop maxlen mem.length mem 0 []

/-! ## Bounds -/

/-- The memory ends with the terminator of the text. -/
def Terminated (mem : Bytes) : Prop := ∃ t ∈ mem.getLast?, t = Bytes.nul ∨ t = Bytes.cr

/-- No more than `maxlen` bytes were written, and the result is their number or `-1`. -/
structure Decoded.Sound (maxlen : Nat) (r : Decoded) : Prop where
  fits : maxlen ≠ 0 → r.written.length ≤ maxlen
  counts : r.result = -1 ∨ r.result = r.written.length

/-- A run that reads only what is there, and is sound. -/
def Runs (maxlen : Nat) (run : Option Decoded) : Prop := ∃ r, run = some r ∧ r.Sound maxlen

variable {maxlen i len : Nat} {mem out : Bytes}

/-- The characters around the digits are none. -/
theorem decode64_eq_none :
    ∀ c ∈ [Bytes.nul, Bytes.cr, Bytes.space, Bytes.equals], decode64 c = none := by decide +kernel

theorem decode64_terminator {t : UInt8} (ht : t = Bytes.nul ∨ t = Bytes.cr) :
    decode64 t = none ∧ decodeOrPad t = none := by
  have hnone : decode64 t = none := decode64_eq_none t (by rcases ht with rfl | rfl <;> simp)
  have hpad : t ≠ Bytes.equals := by
    rcases ht with rfl | rfl
    · decide
    · decide
  rw [decodeOrPad, if_neg hpad, hnone]
  exact ⟨rfl, rfl⟩

theorem Terminated.drop (h : Terminated mem) {n : Nat} (hn : n < mem.length) :
    Terminated (mem.drop n) := by
  obtain ⟨t, hlast, ht⟩ := h
  refine ⟨t, ?_, ht⟩
  rw [List.getLast?_drop, if_neg (Nat.not_le.mpr hn)]
  exact hlast

theorem Terminated.length_pos (h : Terminated mem) : 0 < mem.length := by
  obtain ⟨t, hlast, -⟩ := h
  exact List.length_pos_iff.mpr fun hnil => by simp [hnil] at hlast

/-- What is read is the terminator, or there is more to read. -/
theorem Terminated.read (h : Terminated mem) (hi : i < mem.length) :
    ∃ c, mem[i]? = some c ∧ ((c = Bytes.nul ∨ c = Bytes.cr) ∨ i + 1 < mem.length) := by
  refine ⟨mem[i], List.getElem?_eq_getElem hi, ?_⟩
  by_cases hlast : i + 1 < mem.length
  · exact .inr hlast
  · obtain ⟨t, heq, ht⟩ := h
    have hindex : i = mem.length - 1 := by omega
    rw [List.getLast?_eq_getElem?, ← hindex, List.getElem?_eq_getElem hi] at heq
    obtain rfl := Option.some.inj heq
    exact .inl ht

/-- The decoder stops at the terminator. -/
theorem runs_readDigit {next : UInt8 → Option Decoded} (h : Terminated mem) (hi : i < mem.length)
    (hout : (⟨-1, out⟩ : Decoded).Sound maxlen)
    (hnext : i + 1 < mem.length → ∀ d, Runs maxlen (next d)) :
    Runs maxlen (readDigit mem i out next) := by
  obtain ⟨c, hc, hmore⟩ := h.read hi
  rw [readDigit, hc]
  dsimp only
  cases hd : decode64 c with
  | none => exact ⟨_, rfl, hout⟩
  | some d =>
    refine hnext (hmore.resolve_left fun hend => ?_) d
    exact Option.some_ne_none d (hd.symm.trans (decode64_terminator hend).1)

theorem runs_readDigitOrPad {next : Option UInt8 → Option Decoded} (h : Terminated mem)
    (hi : i < mem.length) (hout : (⟨-1, out⟩ : Decoded).Sound maxlen)
    (hnext : i + 1 < mem.length → ∀ d, Runs maxlen (next d)) :
    Runs maxlen (readDigitOrPad mem i out next) := by
  obtain ⟨c, hc, hmore⟩ := h.read hi
  rw [readDigitOrPad, hc]
  dsimp only
  cases hd : decodeOrPad c with
  | none => exact ⟨_, rfl, hout⟩
  | some d =>
    refine hnext (hmore.resolve_left fun hend => ?_) d
    exact Option.some_ne_none d (hd.symm.trans (decode64_terminator hend).2)

/-- What is written so far fits. -/
def Fits (maxlen : Nat) (out : Bytes) : Prop := maxlen ≠ 0 → out.length ≤ maxlen

theorem Fits.sound (h : Fits maxlen out) : (⟨-1, out⟩ : Decoded).Sound maxlen := ⟨h, .inl rfl⟩

/-- Each store is preceded by its check. -/
theorem runs_putGroup {next : Nat → Bytes → Option Decoded} (group : Bytes)
    (hout : Fits maxlen out)
    (hnext : ∀ out', Fits maxlen out' → Runs maxlen (next out'.length out')) :
    Runs maxlen (putGroup maxlen group out.length out next) := by
  induction group generalizing out with
  | nil => exact hnext out hout
  | cons b group ih =>
    unfold putGroup putByte
    by_cases hfull : maxlen ≠ 0 ∧ maxlen < out.length + 1
    · rw [if_pos hfull]
      exact ⟨_, rfl, hout.sound⟩
    · rw [if_neg hfull]
      have hout' : Fits maxlen (out ++ [b]) := by
        intro hne
        rw [List.length_append, List.length_singleton]
        exact Nat.not_lt.mp fun hlt => hfull ⟨hne, hlt⟩
      have hlen : out.length + 1 = (out ++ [b]).length := by simp
      rw [hlen]
      exact ih hout'

/-- **The loop.** Each round ends in front of the terminator, or with it. -/
theorem runs_decodeLoop (fuel : Nat) (h : Terminated mem) (hfuel : mem.length ≤ fuel)
    (hout : Fits maxlen out) : Runs maxlen (decodeLoop maxlen fuel mem out.length out) := by
  induction fuel generalizing mem out with
  | zero =>
    have hpos := h.length_pos
    omega
  | succ fuel ih =>
    unfold decodeLoop
    refine runs_readDigit h h.length_pos hout.sound fun h₁ d₁ => ?_
    refine runs_readDigit h h₁ hout.sound fun h₂ d₂ => ?_
    refine runs_readDigitOrPad h h₂ hout.sound fun h₃ d₃ => ?_
    refine runs_readDigitOrPad h h₃ hout.sound fun h₄ d₄ => ?_
    refine runs_putGroup _ hout fun out' hout' => ?_
    have hrest := h.drop h₄
    obtain ⟨c, hc, -⟩ := hrest.read hrest.length_pos
    rw [decodeNext, hc]
    dsimp only
    split
    · refine ih hrest ?_ hout'
      rw [List.length_drop]
      omega
    · exact ⟨_, rfl, hout', .inr rfl⟩

/-- `from64tobits` reads nothing behind the terminator. -/
theorem runs_from64tobitsMem (h : Terminated mem) (maxlen : Nat) :
    Runs maxlen (from64tobitsMem mem maxlen) := by
  have hstart : ∀ mem : Bytes, Terminated mem → Runs maxlen ((mem[0]?).bind fun c =>
      if c = Bytes.cr then some ⟨0, []⟩ else decodeLoop maxlen mem.length mem 0 []) := by
    intro mem h
    obtain ⟨c, hc, -⟩ := h.read h.length_pos
    rw [hc, Option.bind_some]
    split
    · exact ⟨_, rfl, fun _ => Nat.zero_le _, .inr rfl⟩
    · exact @runs_decodeLoop maxlen _ [] _ h (Nat.le_refl _) fun _ => Nat.zero_le _
  unfold from64tobitsMem skipsReady
  obtain ⟨c, hc, hmore⟩ := h.read h.length_pos
  rw [hc]
  dsimp only
  by_cases hplus : c = 43
  · -- a plus sign is not the terminator
    have hlen : 0 + 1 < mem.length := by
      rcases hmore with (rfl | rfl) | hmore
      · cases hplus
      · cases hplus
      · exact hmore
    obtain ⟨c', hc', hmore'⟩ := h.read hlen
    rw [if_pos hplus, hc', Option.map_some, Option.bind_some]
    by_cases hspace : c' = Bytes.space
    · have hlen' : 2 < mem.length := by
        rcases hmore' with (rfl | rfl) | hmore'
        · cases hspace
        · cases hspace
        · exact hmore'
      simp only [hspace, decide_true, if_true]
      exact hstart _ (h.drop hlen')
    · simp only [hspace, decide_false, Bool.false_eq_true, if_false]
      exact hstart _ h
  · rw [if_neg hplus, Option.bind_some]
    exact hstart _ h

/-! ## The value -/

/-- What the caller gets. -/
def Decoded.value (r : Decoded) : Option Bytes := if r.result = -1 then none else some r.written

theorem Fits.of_append {group : Bytes} (h : Fits maxlen (out ++ group)) : Fits maxlen out := by
  intro hne
  have hle := h hne
  rw [List.length_append] at hle
  omega

/-- Either the bytes of a round are all written, or the result is `-1`. -/
theorem putGroup_eq {next : Nat → Bytes → Option Decoded} (group : Bytes) (hout : Fits maxlen out) :
    (Fits maxlen (out ++ group) →
      putGroup maxlen group out.length out next = next (out ++ group).length (out ++ group)) ∧
    (¬ Fits maxlen (out ++ group) →
      ∃ w, putGroup maxlen group out.length out next = some ⟨-1, w⟩) := by
  induction group generalizing out with
  | nil =>
    rw [List.append_nil]
    exact ⟨fun _ => rfl, fun hnot => absurd hout hnot⟩
  | cons b group ih =>
    unfold putGroup putByte
    have hassoc : out ++ b :: group = (out ++ [b]) ++ group := by simp
    have hlen : out.length + 1 = (out ++ [b]).length := by simp
    rw [hassoc, hlen]
    by_cases hfull : maxlen ≠ 0 ∧ maxlen < (out ++ [b]).length
    · rw [if_pos hfull]
      refine ⟨fun hfits => ?_, fun _ => ⟨_, rfl⟩⟩
      exact absurd (hfits.of_append hfull.1) (Nat.not_le.mpr hfull.2)
    · rw [if_neg hfull]
      exact ih fun hne => Nat.not_lt.mp fun hlt => hfull ⟨hne, hlt⟩

theorem decodeOrPad_eq_none {c : UInt8} : decodeOrPad c = some none ↔ c = Bytes.equals := by
  unfold decodeOrPad
  split
  · simp_all
  · simp_all

/-- What follows a round whose bytes are written. -/
theorem value_decodeNext {rest group : Bytes} {c₄ : UInt8} {d₄ : Option UInt8}
    {again : Bytes → Nat → Bytes → Option Decoded} (hrest : Bytes.nul ∉ rest)
    (hfits : Fits maxlen (out ++ group)) (hpad : d₄ = none ↔ c₄ = Bytes.equals)
    (hagain : (again (rest ++ [Bytes.nul]) (out ++ group).length (out ++ group)).bind Decoded.value =
      ((decodeGroups rest).map (out ++ group ++ ·)).filter
        fun o => maxlen = 0 ∨ o.length ≤ maxlen) :
    (decodeNext again (rest ++ [Bytes.nul]) d₄ (out ++ group).length (out ++ group)).bind
        Decoded.value =
      ((if rest.head?.all (· = Bytes.cr) ∨ c₄ = Bytes.equals then some group
        else (decodeGroups rest).bind fun r => some (group ++ r)).map (out ++ ·)).filter
          fun o => maxlen = 0 ∨ o.length ≤ maxlen := by
  have hkeep : maxlen = 0 ∨ (out ++ group).length ≤ maxlen := by
    by_cases hzero : maxlen = 0
    · exact .inl hzero
    · exact .inr (hfits hzero)
  have hstop : ((some (⟨(out ++ group).length, out ++ group⟩ : Decoded)).bind Decoded.value) =
      (some (out ++ group)).filter fun o => maxlen = 0 ∨ o.length ≤ maxlen := by
    rw [Option.filter_some, if_pos (by simpa using hkeep)]
    rw [Option.bind_some, Decoded.value, if_neg (by simp only; omega)]
  cases rest with
  | nil =>
    rw [decodeNext, List.nil_append, List.getElem?_cons_zero]
    simp only [ne_eq, not_true_eq_false, false_and, if_false, List.head?_nil, Option.all_none,
      true_or, if_true, Option.map_some]
    exact hstop
  | cons c rest =>
    have hc : c ≠ Bytes.nul := fun heq => hrest (heq ▸ List.mem_cons_self)
    rw [decodeNext, List.cons_append, List.getElem?_cons_zero]
    simp only [ne_eq, hc, not_false_eq_true, true_and, hpad, List.head?_cons, Option.all_some,
      decide_eq_true_eq]
    -- the loop ends at a CR, at a NUL and behind a padded group
    by_cases hgo : ¬ c = Bytes.cr ∧ ¬ c₄ = Bytes.equals
    · rw [if_pos hgo, if_neg (not_or.mpr hgo)]
      refine hagain.trans (congrArg _ ?_)
      cases decodeGroups (c :: rest) with
      | none => rfl
      | some r => simp
    · rw [if_neg hgo, if_pos (by rwa [not_and_or, not_not, not_not] at hgo), Option.map_some]
      exact hstop

/-- Where a group does not fit, no text that begins with it does. -/
theorem filter_of_not_fits {group : Bytes} {decoded : Option Bytes}
    (hfull : ¬ Fits maxlen (out ++ group)) (hgroup : ∀ o, decoded = some o → group <+: o) :
    (decoded.map (out ++ ·)).filter (fun o => maxlen = 0 ∨ o.length ≤ maxlen) = none := by
  cases hdecoded : decoded with
  | none => rfl
  | some o =>
    obtain ⟨more, rfl⟩ := hgroup o hdecoded
    have hlong : ¬ (maxlen = 0 ∨ (out ++ (group ++ more)).length ≤ maxlen) := by
      intro hshort
      rw [← List.append_assoc] at hshort
      exact hfull (@Fits.of_append maxlen _ more fun hne => hshort.resolve_left hne)
    rw [Option.map_some, Option.filter_some, if_neg (by simpa using hlong)]

/-- What follows the four digits of a round. -/
theorem value_putGroup {rest : Bytes} {c₄ : UInt8} {d₄ : Option UInt8}
    {again : Bytes → Nat → Bytes → Option Decoded} (group : Bytes) (hrest : Bytes.nul ∉ rest)
    (hout : Fits maxlen out) (hpad : d₄ = none ↔ c₄ = Bytes.equals)
    (hagain : Fits maxlen (out ++ group) →
      (again (rest ++ [Bytes.nul]) (out ++ group).length (out ++ group)).bind Decoded.value =
        ((decodeGroups rest).map (out ++ group ++ ·)).filter
          fun o => maxlen = 0 ∨ o.length ≤ maxlen) :
    (putGroup maxlen group out.length out
        (decodeNext again (rest ++ [Bytes.nul]) d₄)).bind Decoded.value =
      ((if rest.head?.all (· = Bytes.cr) ∨ c₄ = Bytes.equals then some group
        else (decodeGroups rest).bind fun r => some (group ++ r)).map (out ++ ·)).filter
          fun o => maxlen = 0 ∨ o.length ≤ maxlen := by
  obtain ⟨hput, hfull⟩ := @putGroup_eq _ _ (decodeNext again (rest ++ [Bytes.nul]) d₄) group hout
  by_cases hfits : Fits maxlen (out ++ group)
  · rw [hput hfits]
    exact value_decodeNext hrest hfits hpad (hagain hfits)
  · obtain ⟨w, hw⟩ := hfull hfits
    rw [hw, filter_of_not_fits hfits]
    · rfl
    · intro o ho
      split at ho
      · obtain rfl := Option.some.inj ho
        exact List.prefix_rfl
      · obtain ⟨more, -, hmore⟩ := Option.bind_eq_some_iff.mp ho
        exact ⟨more, Option.some.inj hmore⟩

/-- The terminator stands within a group. -/
theorem value_decodeLoop_short {s : Bytes} (hshort : s.length < 4) (fuel : Nat) :
    (decodeLoop maxlen (fuel + 1) (s ++ [Bytes.nul]) out.length out).bind Decoded.value =
      ((decodeGroups s).map (out ++ ·)).filter fun o => maxlen = 0 ∨ o.length ≤ maxlen := by
  have hnul : decode64 Bytes.nul = none ∧ decodeOrPad Bytes.nul = none :=
    decode64_terminator (.inl rfl)
  unfold decodeLoop
  match s, hshort with
  | [], _ => simp [readDigit, hnul, Decoded.value, decodeGroups]
  | [c₁], _ =>
    cases h₁ : decode64 c₁ <;> simp [readDigit, h₁, hnul, Decoded.value, decodeGroups]
  | [c₁, c₂], _ =>
    cases h₁ : decode64 c₁ <;> cases h₂ : decode64 c₂ <;>
      simp [readDigit, readDigitOrPad, h₁, h₂, hnul, Decoded.value, decodeGroups]
  | [c₁, c₂, c₃], _ =>
    cases h₁ : decode64 c₁ <;> cases h₂ : decode64 c₂ <;> cases h₃ : decodeOrPad c₃ <;>
      simp [readDigit, readDigitOrPad, h₁, h₂, h₃, hnul, Decoded.value, decodeGroups]

/-- The loop computes `decodeGroups`, as far as `maxlen` allows. -/
theorem value_decodeLoop {s : Bytes} (hs : Bytes.nul ∉ s) (fuel : Nat) (hfuel : s.length < fuel)
    (hout : Fits maxlen out) :
    (decodeLoop maxlen fuel (s ++ [Bytes.nul]) out.length out).bind Decoded.value =
      ((decodeGroups s).map (out ++ ·)).filter fun o => maxlen = 0 ∨ o.length ≤ maxlen := by
  induction fuel generalizing s out with
  | zero => omega
  | succ fuel ih =>
    match s, hs, hfuel with
    | [], _, _ => exact value_decodeLoop_short (by simp) fuel
    | [c₁], _, _ => exact value_decodeLoop_short (by simp) fuel
    | [c₁, c₂], _, _ => exact value_decodeLoop_short (by simp) fuel
    | [c₁, c₂, c₃], _, _ => exact value_decodeLoop_short (by simp) fuel
    | c₁ :: c₂ :: c₃ :: c₄ :: rest, hs, hfuel =>
      have hrest : Bytes.nul ∉ rest := by
        simp only [List.mem_cons, not_or] at hs
        exact hs.2.2.2.2
      have hfuel' : rest.length < fuel := by
        simp only [List.length_cons] at hfuel
        omega
      simp only [decodeLoop, readDigit, readDigitOrPad, List.cons_append, List.getElem?_cons_zero,
        List.getElem?_cons_succ, decodeGroups]
      -- a byte that is no digit
      cases h₁ : decode64 c₁ with
      | none => simp [Decoded.value]
      | some d₁ =>
      cases h₂ : decode64 c₂ with
      | none => simp [Decoded.value]
      | some d₂ =>
      cases h₃ : decodeOrPad c₃ with
      | none => simp [Decoded.value]
      | some d₃ =>
      cases h₄ : decodeOrPad c₄ with
      | none => simp [Decoded.value]
      | some d₄ =>
      have hpad : d₄ = none ↔ c₄ = Bytes.equals := by
        rw [← decodeOrPad_eq_none, h₄, Option.some.injEq]
      have htail : List.drop 4 (c₁ :: c₂ :: c₃ :: c₄ :: (rest ++ [Bytes.nul])) =
        rest ++ [Bytes.nul] := rfl
      simp only [htail, Option.bind_eq_bind, Option.bind_some, Option.pure_def]
      exact value_putGroup _ hrest hout hpad fun hfits => ih hrest hfuel' hfits

/-- The loop is not entered in front of a carriage return. -/
theorem value_start {s : Bytes} (hs : Bytes.nul ∉ s) (maxlen : Nat) :
    ((((s ++ [Bytes.nul])[0]?).bind fun c => if c = Bytes.cr then some ⟨0, []⟩
      else decodeLoop maxlen (s ++ [Bytes.nul]).length (s ++ [Bytes.nul]) 0 []).bind
        Decoded.value) =
      if s.head? = some Bytes.cr then some []
      else (decodeGroups s).filter fun out => maxlen = 0 ∨ out.length ≤ maxlen := by
  have hloop := @value_decodeLoop maxlen [] s hs (s ++ [Bytes.nul]).length (by simp)
    fun _ => Nat.zero_le _
  simp only [List.nil_append, Option.map_id_fun'] at hloop
  cases s with
  | nil => exact hloop
  | cons c s =>
    rw [List.cons_append, List.getElem?_cons_zero, Option.bind_some, List.head?_cons]
    by_cases hc : c = Bytes.cr
    · rw [if_pos hc, if_pos (congrArg some hc)]
      rfl
    · rw [if_neg hc, if_neg fun heq => hc (Option.some.inj heq)]
      exact hloop

/-- `from64tobitsMem` and `from64tobits` skip the same prompt. -/
theorem skipsReady_eq (s : Bytes) :
    skipsReady (s ++ [Bytes.nul]) = some (decide (s.take 2 = Bytes.lit "+ ")) := by
  have hlit : Bytes.lit "+ " = [43, Bytes.space] := by decide
  have hnul : ¬ Bytes.nul = Bytes.space := by decide
  rw [hlit, skipsReady]
  match s with
  | [] => rfl
  | [c] => simp [hnul]
  | c :: d :: s => by_cases hplus : c = 43 <;> simp [hplus]

/-- `from64tobitsMem` and `from64tobits` agree on C strings. -/
theorem value_from64tobitsMem {s : Bytes} (hs : Bytes.nul ∉ s) (maxlen : Nat) :
    (from64tobitsMem (s ++ [Bytes.nul]) maxlen).bind Decoded.value = from64tobits s maxlen := by
  rw [from64tobitsMem, from64tobits, skipsReady_eq, Option.bind_some]
  by_cases hskip : s.take 2 = Bytes.lit "+ "
  · have hlen : 2 ≤ s.length := by
      have htake := congrArg List.length hskip
      have htwo : (Bytes.lit "+ ").length = 2 := rfl
      rw [List.length_take, htwo] at htake
      omega
    rw [decide_eq_true hskip, if_pos hskip]
    simp only [if_true, List.drop_append_of_le_length hlen]
    exact value_start (fun hmem => hs (List.mem_of_mem_drop hmem)) maxlen
  · rw [decide_eq_false hskip, if_neg hskip]
    exact value_start hs maxlen

/-! ## The round trip -/

theorem nodup_base64digits : base64digits.Nodup := by decide +kernel

theorem decode64_encode64 {v : UInt8} (h : v &&& 0x3f = v) : decode64 (encode64 v) = some v := by
  have hlength : base64digits.length = 64 := by decide +kernel
  have hlt : v.toNat < base64digits.length := by
    rw [hlength, ← h, UInt8.toNat_and]
    exact Nat.lt_succ_of_le Nat.and_le_right
  have hdigit : encode64 v = base64digits[v.toNat] := List.getD_eq_getElem _ _ hlt
  have hfind : base64digits.findIdx? (· = encode64 v) = some v.toNat := by
    refine List.findIdx?_eq_some_iff_getElem.mpr ⟨hlt, decide_eq_true hdigit.symm, ?_⟩
    intro j hj heq
    rw [decide_eq_true_eq, hdigit, nodup_base64digits.getElem_inj_iff] at heq
    omega
  rw [decode64, hfind, Option.map_some, UInt8.ofNat_toNat]

theorem encode64_ne {v c : UInt8} (h : v &&& 0x3f = v) (hc : decode64 c = none) :
    encode64 v ≠ c := by
  rintro rfl
  rw [decode64_encode64 h] at hc
  cases hc

theorem decodeOrPad_encode64 {v : UInt8} (h : v &&& 0x3f = v) :
    decodeOrPad (encode64 v) = some (some v) := by
  rw [decodeOrPad, if_neg (encode64_ne h (decode64_eq_none _ (by simp))), decode64_encode64 h]
  rfl

section

variable (a b c : UInt8)

/-- Bytes with the same bits. -/
theorem eq_of_bits {x y : UInt8} (h : ∀ i < 8, x.toBitVec.getLsbD i = y.toBitVec.getLsbD i) :
    x = y := UInt8.eq_of_toBitVec_eq (BitVec.eq_of_getLsbD_eq h)

/-! The four digits of three bytes have six bits each. -/

theorem digit₁ : (a >>> 2) &&& (0x3f : UInt8) = a >>> 2 := by
  apply eq_of_bits
  intro i hi
  interval_cases i <;> simp

theorem digit₂ : (((a <<< 4) &&& (0x30 : UInt8)) ||| (b >>> 4)) &&& (0x3f : UInt8) =
    ((a <<< 4) &&& (0x30 : UInt8)) ||| (b >>> 4) := by
  apply eq_of_bits
  intro i hi
  interval_cases i <;> simp

theorem digit₃ : (((b <<< 2) &&& (0x3c : UInt8)) ||| (c >>> 6)) &&& (0x3f : UInt8) =
    ((b <<< 2) &&& (0x3c : UInt8)) ||| (c >>> 6) := by
  apply eq_of_bits
  intro i hi
  interval_cases i <;> simp

theorem digit₄ : (c &&& (0x3f : UInt8)) &&& (0x3f : UInt8) = c &&& (0x3f : UInt8) := by
  apply eq_of_bits
  intro i hi
  interval_cases i <;> simp

/-! The three bytes are put together again. -/

theorem byte₁ :
    ((a >>> 2) <<< 2) ||| ((((a <<< 4) &&& (0x30 : UInt8)) ||| (b >>> 4)) >>> 4) = a := by
  apply eq_of_bits
  intro i hi
  interval_cases i <;> simp

theorem byte₂ : (((((a <<< 4) &&& (0x30 : UInt8)) ||| (b >>> 4)) <<< 4) &&& (0xf0 : UInt8)) |||
    ((((b <<< 2) &&& (0x3c : UInt8)) ||| (c >>> 6)) >>> 2) = b := by
  apply eq_of_bits
  intro i hi
  interval_cases i <;> simp

theorem byte₃ : (((((b <<< 2) &&& (0x3c : UInt8)) ||| (c >>> 6)) <<< 6) &&& (0xc0 : UInt8)) |||
    (c &&& (0x3f : UInt8)) = c := by
  apply eq_of_bits
  intro i hi
  interval_cases i <;> simp

end

/-- Text that is encoded begins with a digit, if there is any. -/
theorem head_to64frombits {x : Bytes} (hx : x ≠ []) :
    ∃ v s, v &&& 0x3f = v ∧ to64frombits x = encode64 v :: s := by
  match x, hx with
  | [a], _ => exact ⟨a >>> 2, _, digit₁ a, rfl⟩
  | [a, b], _ => exact ⟨a >>> 2, _, digit₁ a, rfl⟩
  | a :: b :: c :: rest, _ => exact ⟨a >>> 2, _, digit₁ a, rfl⟩

/-- One case for each of the three lengths of the last group. -/
theorem decodeGroups_to64frombits {x : Bytes} (hx : x ≠ []) :
    decodeGroups (to64frombits x) = some x := by
  have hpad : decodeOrPad Bytes.equals = some none := rfl
  have hequals : decode64 Bytes.equals = none := decode64_eq_none _ (by simp)
  induction x using to64frombits.induct with
  | case1 a b c rest ih =>
    rw [to64frombits, decodeGroups, decode64_encode64 (digit₁ a), decode64_encode64 (digit₂ a b),
      decodeOrPad_encode64 (digit₃ b c), decodeOrPad_encode64 (digit₄ c)]
    simp only [Option.bind_eq_bind, Option.bind_some, decodeGroup, byte₁, byte₂, byte₃,
      encode64_ne (digit₄ c) hequals, or_false]
    -- another group follows unless this is the end: a digit is neither CR nor padding
    cases rest with
    | nil => rfl
    | cons d rest =>
      obtain ⟨v, s, hv, hs⟩ := head_to64frombits (List.cons_ne_nil d rest)
      have hcr : encode64 v ≠ Bytes.cr := encode64_ne hv (decode64_eq_none _ (by simp))
      rw [ih (List.cons_ne_nil _ _), hs]
      simp [hcr]
  | case2 a b =>
    have hdigit := digit₃ b 0
    have hbyte := byte₂ a b 0
    simp only [UInt8.zero_shiftRight, UInt8.or_zero] at hdigit hbyte
    rw [to64frombits, decodeGroups, decode64_encode64 (digit₁ a), decode64_encode64 (digit₂ a b),
      decodeOrPad_encode64 hdigit, hpad]
    simp [decodeGroup, byte₁, hbyte]
  | case3 a =>
    have hdigit := digit₂ a 0
    have hbyte := byte₁ a 0
    simp only [UInt8.zero_shiftRight, UInt8.or_zero] at hdigit hbyte
    rw [to64frombits, decodeGroups, decode64_encode64 (digit₁ a), decode64_encode64 hdigit, hpad]
    simp [decodeGroup, hbyte]
  | case4 => exact absurd rfl hx

/-- Encoded text has only digits and padding in it. -/
theorem notMem_to64frombits {c : UInt8} (hc : decode64 c = none) (hpad : c ≠ Bytes.equals)
    (x : Bytes) : c ∉ to64frombits x := by
  have hdigit : ∀ {v : UInt8}, v &&& 0x3f = v → c ≠ encode64 v := fun hv heq =>
    encode64_ne hv hc heq.symm
  induction x using to64frombits.induct with
  | case1 a b c' rest ih =>
    simp only [to64frombits, List.mem_cons, not_or]
    exact ⟨hdigit (digit₁ a), hdigit (digit₂ a b), hdigit (digit₃ b c'), hdigit (digit₄ c'), ih⟩
  | case2 a b =>
    have h₃ := digit₃ b 0
    simp only [UInt8.zero_shiftRight, UInt8.or_zero] at h₃
    simp only [to64frombits, List.mem_cons, not_or]
    exact ⟨hdigit (digit₁ a), hdigit (digit₂ a b), hdigit h₃, hpad, List.not_mem_nil⟩
  | case3 a =>
    have h₂ := digit₂ a 0
    simp only [UInt8.zero_shiftRight, UInt8.or_zero] at h₂
    simp only [to64frombits, List.mem_cons, not_or]
    exact ⟨hdigit (digit₁ a), hdigit h₂, hpad, hpad, List.not_mem_nil⟩
  | case4 => exact List.not_mem_nil

theorem nul_notMem_to64frombits (x : Bytes) : Bytes.nul ∉ to64frombits x :=
  notMem_to64frombits (decode64_eq_none _ (by simp)) (by decide) x

theorem from64tobits_to64frombits {x : Bytes} (hx : x ≠ []) {maxlen : Nat}
    (hmax : maxlen = 0 ∨ x.length ≤ maxlen) : from64tobits (to64frombits x) maxlen = some x := by
  obtain ⟨v, s, hv, hs⟩ := head_to64frombits hx
  have hskip : ¬ (to64frombits x).take 2 = Bytes.lit "+ " := by
    intro heq
    have hmem : Bytes.space ∈ (to64frombits x).take 2 := by
      rw [heq]
      decide
    exact notMem_to64frombits (decode64_eq_none _ (by simp)) (by decide) x
      (List.mem_of_mem_take hmem)
  have hcr : ¬ (to64frombits x).head? = some Bytes.cr := by
    rw [hs, List.head?_cons, Option.some.injEq]
    exact encode64_ne hv (decode64_eq_none _ (by simp))
  unfold from64tobits
  rw [if_neg hskip, if_neg hcr, decodeGroups_to64frombits hx, Option.filter_some,
    if_pos (by simpa using hmax)]

/-- The decoder gives back what was encoded, and for any text in memory it stays within the text
and the array. -/
theorem from64tobits_roundTrip :
    (∀ (x : Bytes) (maxlen : Nat), x ≠ [] → (maxlen = 0 ∨ x.length ≤ maxlen) →
      from64tobitsMem (to64frombits x ++ [Bytes.nul]) maxlen = some ⟨x.length, x⟩) ∧
    ∀ (s : Bytes) (t : UInt8) (maxlen : Nat), t = Bytes.nul ∨ t = Bytes.cr → 0 < maxlen →
      ∃ r, from64tobitsMem (s ++ [t]) maxlen = some r ∧ r.written.length ≤ maxlen ∧
        (r.result = -1 ∨ r.result = r.written.length) := by
  refine ⟨fun x maxlen hx hmax => ?_, fun s t maxlen ht hmax => ?_⟩
  · have hvalue := value_from64tobitsMem (nul_notMem_to64frombits x) maxlen
    rw [from64tobits_to64frombits hx hmax] at hvalue
    obtain ⟨r, hrun, hsound⟩ := @runs_from64tobitsMem (to64frombits x ++ [Bytes.nul])
      ⟨_, List.getLast?_concat, .inl rfl⟩ maxlen
    rw [hrun, Option.bind_some, Decoded.value] at hvalue
    split at hvalue
    · cases hvalue
    · next hne =>
      have hwritten := Option.some.inj hvalue
      have hresult := hsound.counts.resolve_left hne
      rw [hrun, ← hwritten, ← hresult]
  · obtain ⟨r, hrun, hsound⟩ := @runs_from64tobitsMem (s ++ [t])
      ⟨_, List.getLast?_concat, ht⟩ maxlen
    exact ⟨r, hrun, hsound.fits (Nat.pos_iff_ne_zero.mp hmax), hsound.counts⟩

/-- `"Hi!"`, into an array of three bytes, and a text that breaks off. -/
theorem from64tobits_roundTrip_hi :
    from64tobitsMem (to64frombits (Bytes.lit "Hi!") ++ [Bytes.nul]) 3 =
      some ⟨3, Bytes.lit "Hi!"⟩ ∧
    ∃ r, from64tobitsMem (Bytes.lit "SGk" ++ [Bytes.cr]) 3 = some r ∧ r.written.length ≤ 3 ∧
      (r.result = -1 ∨ r.result = r.written.length) :=
  ⟨from64tobits_roundTrip.1 (Bytes.lit "Hi!") 3 (by decide) (.inr (by decide)),
    from64tobits_roundTrip.2 (Bytes.lit "SGk") Bytes.cr 3 (.inr rfl) (by decide)⟩

end Fetchmail.Auth
