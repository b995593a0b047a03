import Fetchmail.Lib.Storage
import Fetchmail.Lib.Buffer

/-!
# Strings of the Configuration Dump

`visbuf` of `env.c`, and what its result means between double quotes in Python. The character
class `isprint` is that of the locale; in any locale the control characters of ASCII are not in it.
`char` is signed, so that a byte from 128 on is a negative index.
-/

namespace Fetchmail.Config

open Fetchmail.Lib

/-! ## `visbuf` -/

/-- `hex[n]` -/
def hexDigit (n : Nat) : UInt8 := Bytes.charAt (Bytes.lit "0123456789abcdef") n

/-- The letters for the characters `\a` to `\r`. -/
def visLetter (c : UInt8) : Option UInt8 :=
  if c = 7 then some 97
  else if c = 8 then some 98
  else if c = 12 then some 102
  else if c = Bytes.lf then some 110
  else if c = Bytes.cr then some 114
  else if c = Bytes.tab then some 116
  else if c = 11 then some 118
  else none

/-- What is written for one character; `none` if `hex[*buf >> 4]` is read outside of the array. -/
def visChar (isprint : UInt8 → Bool) (c : UInt8) : Option Bytes :=
  if c = 34 then some [92, 34]
  else if c = 92 then some [92, 92]
  else if isprint c = true ∨ c = Bytes.space then some [c]
  else
    match visLetter c with
    | some d => some [92, d]
    | none =>
      if c < 128 then some [92, 48, 120, hexDigit (c.toNat >>> 4), hexDigit (c.toNat &&& 0xf)]
      else none

/-- The loop of `visbuf`, with the terminator. -/
def visLoop (isprint : UInt8 → Bool) : (buf : Bytes) → (vbuf : Bytes) → (tp : Nat) → Option Bytes
  | [], vbuf, tp => Storage.write vbuf tp [Bytes.nul]
  | c :: buf, vbuf, tp =>
    (visChar isprint c).bind fun out =>
      (Storage.write vbuf tp out).bind fun vbuf => visLoop isprint buf vbuf (tp + out.length)

/-- `visbuf`: what the static buffer holds then. If it is too small, `xrealloc` makes it longer,
with anything behind what was in it. -/
def visbuf (isprint : UInt8 → Bool) (fresh : Nat → UInt8) (vbuf buf : Bytes) : Option Bytes :=
  visLoop isprint buf
    (vbuf ++ (List.range (buf.length * 5 + 1 - vbuf.length)).map fresh) 0

/-! ## String literals of Python -/

/-- Where a literal is read. -/
inductive PyState where
  | text
  /-- behind a backslash -/
  | escape
  /-- in an octal escape that may have more digits -/
  | octal (left value : Nat)
  /-- in a hexadecimal escape that must have more digits -/
  | hex (left value : Nat)
  deriving DecidableEq, Repr

/-- The character that a letter behind a backslash stands for. -/
def pyNamed (c : UInt8) : Option UInt8 :=
  if c = 92 ∨ c = 34 ∨ c = 39 then some c
  else if c = 97 then some 7
  else if c = 98 then some 8
  else if c = 102 then some 12
  else if c = 110 then some Bytes.lf
  else if c = 114 then some Bytes.cr
  else if c = 116 then some Bytes.tab
  else if c = 118 then some 11
  else none

/-- The value of a hexadecimal digit. -/
def pyHex (c : UInt8) : Option Nat :=
  if 48 ≤ c ∧ c ≤ 57 then some (c.toNat - 48)
  else if 97 ≤ c ∧ c ≤ 102 then some (c.toNat - 97 + 10)
  else if 65 ≤ c ∧ c ≤ 70 then some (c.toNat - 65 + 10)
  else none

/-- What the body of a string literal in double quotes denotes, if it is one. -/
def pyRead : PyState → Bytes → Option Bytes
  | .text, [] => some []
  | .octal _ value, [] => some [UInt8.ofNat value]
  | .escape, [] => none
  | .hex _ _, [] => none
  | .text, c :: s =>
    if c = 34 ∨ c = Bytes.lf ∨ c = Bytes.cr then none
    else if c = 92 then pyRead .escape s
    else (pyRead .text s).map (c :: ·)
  | .escape, c :: s =>
    if 48 ≤ c ∧ c ≤ 55 then pyRead (.octal 2 (c.toNat - 48)) s
    else if c = 120 then pyRead (.hex 2 0) s
    -- the line goes on
    else if c = Bytes.lf then pyRead .text s
    else
      match pyNamed c with
      | some b => (pyRead .text s).map (b :: ·)
      -- a backslash before another character stays
      | none => (pyRead .text s).map (92 :: c :: ·)
  | .octal left value, c :: s =>
    if left ≠ 0 ∧ 48 ≤ c ∧ c ≤ 55 then pyRead (.octal (left - 1) (value * 8 + (c.toNat - 48))) s
    else if c = 34 ∨ c = Bytes.lf ∨ c = Bytes.cr then none
    else if c = 92 then (pyRead .escape s).map (UInt8.ofNat value :: ·)
    else (pyRead .text s).map (UInt8.ofNat value :: c :: ·)
  | .hex left value, c :: s =>
    match pyHex c with
    | none => none
    | some d =>
      if left = 1 then (pyRead .text s).map (UInt8.ofNat (value * 16 + d) :: ·)
      else pyRead (.hex (left - 1) (value * 16 + d)) s

/-- The body of a string literal. -/
def pyString (s : Bytes) : Option Bytes := pyRead .text s

/-! ## What is written -/

variable {isprint : UInt8 → Bool} {fresh : Nat → UInt8} {vbuf s out : Bytes} {c : UInt8}

/-- The characters that are written as themselves or as escapes of Python. -/
def Legible (isprint : UInt8 → Bool) (c : UInt8) : Prop :=
  isprint c = true ∨ c = Bytes.space ∨ c = 34 ∨ c = 92 ∨ (7 ≤ c ∧ c ≤ 13)

/-- What Python makes of what is written for a character. -/
def denoted (isprint : UInt8 → Bool) (c : UInt8) : Bytes :=
  if c = 34 ∨ c = 92 ∨ isprint c = true ∨ c = Bytes.space ∨ (7 ≤ c ∧ c ≤ 13) then [c]
  else [0, 120, hexDigit (c.toNat >>> 4), hexDigit (c.toNat &&& 0xf)]

/-- Behind what is written, the reading of the literal goes on. -/
def Reads (out text : Bytes) : Prop :=
  ∀ t, pyString (out ++ t) = (pyString t).map (text ++ ·)

theorem Reads.append {out' text' text : Bytes} (h : Reads out text) (h' : Reads out' text') :
    Reads (out ++ out') (text ++ text') := by
  intro t
  rw [List.append_assoc, h, h', Option.map_map]
  congr 1
  funext rest
  exact (List.append_assoc text text' rest).symm

/-- A character that stands for itself. -/
theorem reads_plain (hquote : c ≠ 34) (hback : c ≠ 92) (hlf : c ≠ Bytes.lf) (hcr : c ≠ Bytes.cr) :
    Reads [c] [c] := by
  intro t
  show pyRead .text (c :: t) = _
  rw [pyRead, if_neg (by simp [hquote, hlf, hcr]), if_neg hback]
  rfl

/-- A backslash and a letter. -/
theorem reads_named {b d : UInt8} (hoct : ¬(48 ≤ d ∧ d ≤ 55)) (hx : d ≠ 120) (hlf : d ≠ Bytes.lf)
    (hd : pyNamed d = some b) : Reads [92, d] [b] := by
  intro t
  show pyRead .text (92 :: d :: t) = _
  rw [pyRead, if_neg (by decide), if_pos rfl, pyRead, if_neg hoct, if_neg hx, if_neg hlf, hd]
  rfl

/-- Python takes `\0` for an octal escape, which ends at the `x`. -/
theorem reads_zero : Reads [92, 48, 120] [0, 120] := by
  intro t
  show pyRead .text (92 :: 48 :: 120 :: t) = _
  rw [pyRead, if_neg (by decide), if_pos rfl, pyRead, if_pos (by decide), pyRead,
    if_neg (by decide), if_neg (by decide), if_neg (by decide)]
  rfl

theorem hexDigit_plain (n : Nat) (hn : n < 16) : hexDigit n ≠ Bytes.nul ∧ hexDigit n ≠ 34 ∧
    hexDigit n ≠ 92 ∧ hexDigit n ≠ Bytes.lf ∧ hexDigit n ≠ Bytes.cr := by
  revert n
  decide

theorem reads_hexDigit {n : Nat} (hn : n < 16) : Reads [hexDigit n] [hexDigit n] :=
  have ⟨_, hquote, hback, hlf, hcr⟩ := hexDigit_plain n hn
  reads_plain hquote hback hlf hcr

/-- Of a locale only this is assumed: the control characters of ASCII are not printable. -/
def Controls (isprint : UInt8 → Bool) : Prop := ∀ c, Bytes.iscntrl c = true → isprint c = false

/-- A letter behind a backslash means the same to Python. -/
theorem visLetter_spec {d : UInt8} (h : visLetter c = some d) :
    (7 ≤ c ∧ c ≤ 13) ∧ ¬(48 ≤ d ∧ d ≤ 55) ∧ d ≠ 120 ∧ d ≠ Bytes.lf ∧ d ≠ Bytes.nul ∧
      pyNamed d = some c := by
  unfold visLetter at h
  repeat' split at h
  all_goals cases h
  all_goals subst_vars; decide

theorem visLetter_none (h : visLetter c = none) : ¬(7 ≤ c ∧ c ≤ 13) := by
  unfold visLetter at h
  repeat' split at h
  all_goals cases h
  next h7 h8 h12 h10 h13 h9 h11 =>
  simp only [← UInt8.toNat_inj, UInt8.le_iff_toNat_le, Bytes.lf, Bytes.cr, Bytes.tab] at *
  simp only [UInt8.reduceToNat] at *
  omega

/-- What is written for a character fits, ends no string, and is read as `denoted` says. -/
theorem visChar_spec (hctrl : Controls isprint) (hc : c ≠ Bytes.nul)
    (h : visChar isprint c = some out) :
    out.length ≤ 5 ∧ Bytes.nul ∉ out ∧ Reads out (denoted isprint c) := by
  have hletter : ∀ d, ¬(48 ≤ d ∧ d ≤ 55) → d ≠ 120 → d ≠ Bytes.lf → d ≠ Bytes.nul →
      pyNamed d = some c → denoted isprint c = [c] →
      [92, d].length ≤ 5 ∧ Bytes.nul ∉ [92, d] ∧ Reads [92, d] (denoted isprint c) := by
    intro d hoct hx hlf hnul hd hden
    refine ⟨by simp, by simpa [Bytes.nul] using fun heq => hnul heq.symm, ?_⟩
    rw [hden]
    exact reads_named hoct hx hlf hd
  unfold visChar at h
  split at h
  · next heq =>
    cases h
    subst heq
    exact hletter 34 (by decide) (by decide) (by decide) (by decide) rfl (if_pos (.inl rfl))
  split at h
  · next heq =>
    cases h
    subst heq
    exact hletter 92 (by decide) (by decide) (by decide) (by decide) rfl (if_pos (.inr (.inl rfl)))
  -- a character that is copied
  split at h
  · next hquote hback hprint =>
    cases h
    have hplain : ∀ b, Bytes.iscntrl b = true → b ≠ Bytes.space → c ≠ b := by
      rintro b hb hspace rfl
      rcases hprint with hprint | hprint
      · exact absurd (hctrl c hb) (by rw [hprint]; decide)
      · exact hspace hprint
    have hden : denoted isprint c = [c] := if_pos (by
      rcases hprint with hprint | hprint
      · exact .inr (.inr (.inl hprint))
      · exact .inr (.inr (.inr (.inl hprint))))
    refine ⟨by simp, by simpa using fun heq => hc heq.symm, ?_⟩
    rw [hden]
    exact reads_plain hquote hback (hplain _ (by decide) (by decide))
      (hplain _ (by decide) (by decide))
  next hquote hback hprint =>
  -- one with a letter of its own
  split at h
  · next d heq =>
    cases h
    obtain ⟨hrange, hoct, hx, hlf, hnul, hd⟩ := visLetter_spec heq
    exact hletter d hoct hx hlf hnul hd (if_pos (.inr (.inr (.inr (.inr hrange)))))
  next heq =>
  -- the others have two digits behind the zero, and are read as something else
  split at h
  · next hlow =>
    cases h
    have hhigh : c.toNat >>> 4 < 16 := by
      have hlt : c.toNat < 128 := hlow
      omega
    have hmask : c.toNat &&& 0xf < 16 := Nat.and_lt_two_pow (n := 4) _ (by decide)
    have hden : denoted isprint c =
        [0, 120, hexDigit (c.toNat >>> 4), hexDigit (c.toNat &&& 0xf)] := by
      rw [not_or] at hprint
      refine if_neg ?_
      rintro (heq | heq | heq | heq | hrange)
      · exact hquote heq
      · exact hback heq
      · exact hprint.1 heq
      · exact hprint.2 heq
      · exact visLetter_none ‹_› hrange
    refine ⟨by simp, ?_, ?_⟩
    · have h1 := (hexDigit_plain _ hhigh).1
      have h2 := (hexDigit_plain _ hmask).1
      simpa [Bytes.nul] using ⟨fun heq => h1 heq.symm, fun heq => h2 heq.symm⟩
    · rw [hden]
      exact reads_zero.append ((reads_hexDigit hhigh).append (reads_hexDigit hmask))
  · cases h

/-- What is written for a legible character denotes it. -/
theorem visChar_legible (h : Legible isprint c) :
    (∃ out, visChar isprint c = some out) ∧ denoted isprint c = [c] := by
  constructor
  · unfold visChar
    split
    · exact ⟨_, rfl⟩
    split
    · exact ⟨_, rfl⟩
    split
    · exact ⟨_, rfl⟩
    next hquote hback hprint =>
    rw [not_or] at hprint
    split
    · exact ⟨_, rfl⟩
    · next hnone =>
      -- none of the branches was taken, but a legible character takes one of them
      rcases h with heq | heq | heq | heq | hrange
      · exact absurd heq hprint.1
      · exact absurd heq hprint.2
      · exact absurd heq hquote
      · exact absurd heq hback
      · exact absurd hrange (visLetter_none hnone)
  · refine if_pos ?_
    rcases h with h | h | h | h | h
    · exact .inr (.inr (.inl h))
    · exact .inr (.inr (.inr (.inl h)))
    · exact .inl h
    · exact .inr (.inl h)
    · exact .inr (.inr (.inr (.inr h)))

/-- What is written for any other character, if anything, begins with a zero byte. -/
theorem denoted_illegible (h : ¬Legible isprint c) : Bytes.nul ∈ denoted isprint c := by
  rw [denoted, if_neg]
  · exact List.mem_cons_self
  · rintro (heq | heq | heq | heq | heq)
    · exact h (.inr (.inr (.inl heq)))
    · exact h (.inr (.inr (.inr (.inl heq))))
    · exact h (.inl heq)
    · exact h (.inr (.inl heq))
    · exact h (.inr (.inr (.inr (.inr heq))))

/-! ## The buffer -/

/-- What is written for a string. -/
def visText (isprint : UInt8 → Bool) (s : Bytes) : Option Bytes :=
  (s.mapM (visChar isprint)).map List.flatten

theorem visText_cons : visText isprint (c :: s) =
    (visChar isprint c).bind fun out => (visText isprint s).map (out ++ ·) := by
  rw [visText, visText, List.mapM_cons]
  cases visChar isprint c with
  | none => rfl
  | some out => cases s.mapM (visChar isprint) <;> rfl

/-- The text fits, and denotes what its parts denote. -/
theorem visText_spec (hctrl : Controls isprint) (hs : Bytes.nul ∉ s)
    (h : visText isprint s = some out) :
    out.length ≤ s.length * 5 ∧ Bytes.nul ∉ out ∧ Reads out (s.flatMap (denoted isprint)) := by
  induction s generalizing out with
  | nil =>
    cases h
    exact ⟨Nat.le_refl _, List.not_mem_nil, fun t => (Option.map_id_fun ▸ rfl)⟩
  | cons c s ih =>
    rw [visText_cons] at h
    obtain ⟨first, hfirst, h⟩ := Option.bind_eq_some_iff.mp h
    obtain ⟨rest, hrest, rfl⟩ := Option.map_eq_some_iff.mp h
    obtain ⟨hlen, hnul, hreads⟩ :=
      visChar_spec hctrl (fun heq => hs (heq ▸ List.mem_cons_self)) hfirst
    obtain ⟨hlen', hnul', hreads'⟩ := ih (fun hmem => hs (List.mem_cons_of_mem c hmem)) hrest
    refine ⟨?_, ?_, hreads.append hreads'⟩
    · rw [List.length_append, List.length_cons]
      omega
    · rw [List.mem_append]
      exact not_or.mpr ⟨hnul, hnul'⟩

/-- The loop writes the text, if the buffer has room for five bytes for each character. -/
theorem visLoop_eq (hctrl : Controls isprint) (hs : Bytes.nul ∉ s) (tp : Nat)
    (hroom : tp + s.length * 5 < vbuf.length) :
    (visText isprint s = none ∧ visLoop isprint s vbuf tp = none) ∨
    ∃ out mem, visText isprint s = some out ∧ visLoop isprint s vbuf tp = some mem ∧
      vbuf.take tp ++ out ++ [Bytes.nul] <+: mem := by
  induction s generalizing vbuf tp with
  | nil => exact .inr ⟨[], _, rfl, if_pos hroom, by rw [List.append_nil]; exact ⟨_, rfl⟩⟩
  | cons c s ih =>
    rw [visText_cons, visLoop]
    cases hout : visChar isprint c with
    | none => exact .inl ⟨rfl, rfl⟩
    | some out =>
      obtain ⟨hlen, -, -⟩ := visChar_spec hctrl (fun heq => hs (heq ▸ List.mem_cons_self)) hout
      rw [List.length_cons] at hroom
      have hfits : tp + out.length ≤ vbuf.length := by omega
      obtain ⟨vbuf', hwrite, hlen', htake⟩ := Storage.write_fits hfits
      rw [Option.bind_some, Option.bind_some, hwrite, Option.bind_some]
      rcases ih (fun hmem => hs (List.mem_cons_of_mem c hmem)) (tp + out.length)
          (by rw [hlen']; omega) with ⟨htext, hloop⟩ | ⟨rest, mem, htext, hloop, hmem⟩
      · exact .inl ⟨by rw [htext]; rfl, hloop⟩
      · refine .inr ⟨out ++ rest, mem, by rw [htext]; rfl, hloop, ?_⟩
        rw [htake] at hmem
        simpa using hmem

/-- The result of `visbuf`, if any, is what is written for the string. -/
theorem visbuf_eq (hctrl : Controls isprint) (hs : Bytes.nul ∉ s) :
    (visbuf isprint fresh vbuf s).map Bytes.cstr = visText isprint s := by
  have hroom : 0 + s.length * 5 <
      (vbuf ++ (List.range (s.length * 5 + 1 - vbuf.length)).map fresh).length := by
    rw [List.length_append, List.length_map, List.length_range]
    omega
  rw [visbuf]
  rcases visLoop_eq hctrl hs 0 hroom with ⟨htext, hloop⟩ | ⟨out, mem, htext, hloop, rest, rfl⟩
  · rw [htext, hloop, Option.map_none]
  · obtain ⟨-, hnul, -⟩ := visText_spec hctrl hs htext
    have hplain : ∀ b ∈ out, decide (b ≠ Bytes.nul) = true := fun b hb =>
      decide_eq_true fun heq => hnul (heq ▸ hb)
    rw [htext, hloop, Option.map_some, List.take_zero, List.nil_append, List.append_assoc,
      Bytes.cstr, List.takeWhile_append_of_pos hplain]
    simp

/-- **`visbuf` is lossless exactly on the strings of legible characters.** -/
theorem visbuf_lossless_iff (isprint : UInt8 → Bool) (fresh : Nat → UInt8) (vbuf s : Bytes)
    (hctrl : Controls isprint) (hs : Bytes.nul ∉ s) :
    (∃ mem, visbuf isprint fresh vbuf s = some mem ∧ pyString (Bytes.cstr mem) = some s) ↔
      ∀ c ∈ s, Legible isprint c := by
  have heq := @visbuf_eq isprint fresh vbuf _ hctrl hs
  constructor
  · rintro ⟨mem, hmem, hread⟩ c hc
    rw [hmem, Option.map_some] at heq
    have hden := (visText_spec hctrl hs heq.symm).2.2 []
    rw [List.append_nil, hread] at hden
    by_contra hillegible
    -- an illegible character is read back as a text with a NUL in it, which `s` has not
    have hnul : Bytes.nul ∈ s.flatMap (denoted isprint) :=
      List.mem_flatMap.mpr ⟨c, hc, denoted_illegible hillegible⟩
    apply hs
    rw [Option.some.inj hden]
    exact List.mem_append_left _ hnul
  · intro hlegible
    have hall : ∀ s : Bytes, (∀ c ∈ s, Legible isprint c) →
        (∃ out, visText isprint s = some out) ∧ s.flatMap (denoted isprint) = s := by
      intro s
      induction s with
      | nil => exact fun _ => ⟨⟨[], rfl⟩, rfl⟩
      | cons c s ih =>
        intro hall
        obtain ⟨⟨first, hfirst⟩, hden⟩ := visChar_legible (hall c List.mem_cons_self)
        obtain ⟨⟨rest, hrest⟩, hflat⟩ := ih fun c hc => hall c (List.mem_cons_of_mem _ hc)
        refine ⟨⟨first ++ rest, ?_⟩, ?_⟩
        · rw [visText_cons, hfirst, hrest]
          rfl
        · rw [List.flatMap_cons, hden, hflat]
          rfl
    obtain ⟨⟨out, hout⟩, hflat⟩ := hall s hlegible
    rw [hout] at heq
    obtain ⟨mem, hmem, rfl⟩ := Option.map_eq_some_iff.mp heq
    have hden := (visText_spec hctrl hs hout).2.2 []
    rw [hflat, List.append_nil] at hden
    exact ⟨mem, hmem, by rw [hden]; simp [pyString, pyRead]⟩

/-- The characters that are printable in the C locale. -/
def isprintC (c : UInt8) : Bool := 32 ≤ c && c ≤ 126

theorem controls_isprintC : Controls isprintC := by
  intro c hc
  unfold isprintC
  unfold Bytes.iscntrl at hc
  simp only [Bool.or_eq_true, decide_eq_true_eq] at hc
  rw [Bool.and_eq_false_iff, decide_eq_false_iff_not, decide_eq_false_iff_not]
  rcases hc with hc | hc
  · exact .inl (UInt8.not_le.mpr hc)
  · exact .inr (by rw [hc]; decide)

/-- `say "hi"` with a tab. -/
theorem visbuf_lossless_iff_quotes :
    (∃ mem, visbuf isprintC (fun _ => 7) [] (Bytes.lit "say\t\"hi\"") = some mem ∧
      pyString (Bytes.cstr mem) = some (Bytes.lit "say\t\"hi\"")) ↔
      ∀ c ∈ Bytes.lit "say\t\"hi\"", Legible isprintC c :=
  visbuf_lossless_iff isprintC (fun _ => 7) [] (Bytes.lit "say\t\"hi\"")
    controls_isprintC (by decide)

/-- The character 1 is written as `\0x01`, which Python reads as a zero byte and `x01`. -/
theorem visbuf_control_lost :
    ¬∃ mem, visbuf isprintC (fun _ => 7) [] [1] = some mem ∧
      pyString (Bytes.cstr mem) = some [1] := by
  rintro ⟨mem, hmem, hread⟩
  have heval : (visbuf isprintC (fun _ => 7) [] [1]).bind (fun m => pyString (Bytes.cstr m)) =
      some [0, 120, 48, 49] := by decide +kernel
  rw [hmem, Option.bind_some, hread] at heval
  exact absurd heval (by decide)

end Fetchmail.Config
