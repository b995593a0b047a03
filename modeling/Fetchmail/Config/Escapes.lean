import Fetchmail.Lib.Storage

/-!
# Escapes in the Run Control File

`escapes` of `rcfile_l.l`, which the lexer runs with one buffer as source and target, and the same
routine with a target of its own. The memory ends with the terminator of the string, so a run that
has a result has read nothing behind it. In each round all reads come before the write.
-/

namespace Fetchmail.Config

open Fetchmail.Lib

/-! ## The routine -/

/-- What a round of the loop does, and how many bytes it reads past. -/
inductive Round where
  /-- to the label `done` -/
  | stop
  /-- `continue` -/
  | skip (n : Nat)
  /-- `*tp++ = cval` -/
  | put (b : UInt8) (n : Nat)
  deriving DecidableEq, Repr

/-- A loop over digits: `*cp && strchr(digits, *cp) && dcount++ < left`. The results are `cval` and
how many digits there were. -/
def digitLoop (value : UInt8 → Option Nat) (base : Nat) : (left : Nat) → (cval : Nat) → Bytes →
    Option (Nat × Nat)
  | _, _, [] => none
  | left, cval, c :: x =>
    match (if c = Bytes.nul ∨ left = 0 then none else value c) with
    | none => some (cval, 0)
    | some d =>
      (digitLoop value base (left - 1) (cval * base + d) x).map fun (cval, n) => (cval, n + 1)

/-- `(dp - hex) / 2` -/
def hexValue (c : UInt8) : Option Nat :=
  ((Bytes.lit "00112233445566778899aAbBcCdDeEfF").findIdx? (· = c)).map (· / 2)

/-- `*cp - '0'` for the digits up to `last` -/
def decValue (last : UInt8) (c : UInt8) : Option Nat :=
  if 48 ≤ c ∧ c ≤ last then some (c.toNat - 48) else none

/-- `strchr("0123456789xX", cp[1])` -/
def isNumeric (c : UInt8) : Bool := Bytes.isdigit c || c = 120 || c = 88

/-- The characters with a letter of their own. -/
def named (c : UInt8) : UInt8 :=
  if c = 110 then Bytes.lf else if c = 116 then Bytes.tab else if c = 98 then 8
  else if c = 114 then Bytes.cr else c

/-- The digits behind a backslash, `d` being the first character there. -/
def readNumber (d : UInt8) (x : Bytes) : Option Round :=
  if d = 120 ∨ d = 88 then
    (digitLoop hexValue 16 2 0 x.tail).map fun (cval, n) => .put (UInt8.ofNat cval) (n + 2)
  else if d = 48 then
    (digitLoop (decValue 55) 8 3 0 x).map fun (cval, n) => .put (UInt8.ofNat cval) (n + 1)
  else (digitLoop (decValue 57) 10 3 0 x).map fun (cval, n) => .put (UInt8.ofNat cval) (n + 1)

/-- The body of the loop, with the memory from `cp` on. -/
def readEscape (x : Bytes) : Option Round :=
  x.head?.bind fun c =>
    if c = Bytes.nul then some .stop
    else if c ≠ 92 then some (.put c 1)
    else
      x.tail.head?.bind fun d =>
        if d ≠ Bytes.nul ∧ isNumeric d = true then readNumber d x.tail
        -- a backslash before a line feed joins lines, and one at the end is ignored
        else if d = Bytes.lf then some (.skip 2)
        else if d = Bytes.nul then some .stop
        else some (.put (named d) 2)

/-- `escapes` with a target of its own: the text that is left there. Each round moves `cp`, so the
size of the memory is fuel enough. -/
def escapes : (fuel : Nat) → Bytes → Option Bytes
  | 0, _ => none
  | fuel + 1, x =>
    (readEscape x).bind fun
      | .stop => some []
      | .skip n => escapes fuel (x.drop n)
      | .put b n => (escapes fuel (x.drop n)).map (b :: ·)

/-- The buffer and the pointers at the head of the loop. -/
structure Escaping where
  mem : Bytes
  cp : Nat
  tp : Nat
  deriving DecidableEq, Repr

/-- `escapes(in, in)`: the states of its loop, and the buffer that it leaves. -/
def escapesInPlace : (fuel : Nat) → Escaping → Option (List Escaping × Bytes)
  | 0, _ => none
  | fuel + 1, s =>
    (readEscape (s.mem.drop s.cp)).bind fun
      | .stop => (Storage.write s.mem s.tp [Bytes.nul]).map fun mem => ([s], mem)
      | .skip n => (escapesInPlace fuel { s with cp := s.cp + n }).map fun (ss, mem) => (s :: ss, mem)
      | .put b n =>
        (Storage.write s.mem s.tp [b]).bind fun mem =>
          (escapesInPlace fuel ⟨mem, s.cp + n, s.tp + 1⟩).map fun (ss, mem) => (s :: ss, mem)

/-! ## One round -/

variable {s : Bytes}

/-- A loop over digits ends in front of the terminator at the latest. -/
theorem digitLoop_spec (value : UInt8 → Option Nat) (base left cval : Nat) (s : Bytes) :
    ∃ cval' n, digitLoop value base left cval (s ++ [Bytes.nul]) = some (cval', n) ∧
      n ≤ s.length := by
  induction s generalizing left cval with
  | nil => exact ⟨cval, 0, by simp [digitLoop], Nat.le_refl 0⟩
  | cons c s ih =>
    rw [List.cons_append, digitLoop]
    split
    · exact ⟨cval, 0, rfl, Nat.zero_le _⟩
    · next d _ =>
      obtain ⟨cval', n, hloop, hn⟩ := ih (left - 1) (cval * base + d)
      exact ⟨cval', n + 1, by rw [hloop]; rfl, Nat.succ_le_succ hn⟩

/-- How far a round moves `cp`. -/
def Round.Within (bound : Nat) : Round → Prop
  | .stop => True
  | .skip n => 0 < n ∧ n ≤ bound
  | .put _ n => 0 < n ∧ n ≤ bound

theorem readNumber_spec (d : UInt8) (s : Bytes) :
    ∃ r, readNumber d (d :: (s ++ [Bytes.nul])) = some r ∧ r.Within (s.length + 2) := by
  have hdigits : ∀ value base left, ∃ r,
      (digitLoop value base left 0 (d :: (s ++ [Bytes.nul]))).map
        (fun (cval, n) => Round.put (UInt8.ofNat cval) (n + 1)) = some r ∧
        r.Within (s.length + 2) := by
    intro value base left
    obtain ⟨cval, n, hloop, hn⟩ := digitLoop_spec value base left 0 (d :: s)
    rw [List.cons_append] at hloop
    rw [List.length_cons] at hn
    exact ⟨.put (UInt8.ofNat cval) (n + 1), by rw [hloop]; rfl, Nat.succ_pos n, Nat.succ_le_succ hn⟩
  unfold readNumber
  split
  · obtain ⟨cval, n, hloop, hn⟩ := digitLoop_spec hexValue 16 2 0 s
    exact ⟨.put (UInt8.ofNat cval) (n + 2), by rw [List.tail_cons, hloop]; rfl, Nat.succ_pos _,
      Nat.add_le_add_right hn 2⟩
  · split
    · exact hdigits _ _ _
    · exact hdigits _ _ _

/-- A round reads nothing behind the terminator, and leaves `cp` in front of it or at it. -/
theorem readEscape_spec (hs : Bytes.nul ∉ s) :
    ∃ r, readEscape (s ++ [Bytes.nul]) = some r ∧ r.Within s.length := by
  cases s with
  | nil => exact ⟨.stop, rfl, trivial⟩
  | cons c s =>
    have hc : c ≠ Bytes.nul := fun heq => hs (heq ▸ List.mem_cons_self)
    rw [readEscape, List.cons_append, List.head?_cons, Option.bind_some, if_neg hc, List.tail_cons]
    by_cases hplain : c ≠ 92
    · exact ⟨_, if_pos hplain, Nat.one_pos, by simp⟩
    · rw [if_neg hplain]
      cases s with
      -- a lone backslash
      | nil => exact ⟨.stop, by simp [isNumeric, Bytes.nul, Bytes.lf], trivial⟩
      | cons d s =>
        have hd : d ≠ Bytes.nul := fun heq => hs (by simp [heq])
        have htwo : 0 < 2 ∧ 2 ≤ (c :: d :: s).length := by simp
        rw [List.cons_append, List.head?_cons, Option.bind_some]
        by_cases hnum : isNumeric d = true
        · rw [if_pos ⟨hd, hnum⟩]
          exact readNumber_spec d s
        · rw [if_neg fun h => hnum h.2]
          by_cases hlf : d = Bytes.lf
          · exact ⟨.skip 2, if_pos hlf, htwo⟩
          · rw [if_neg hlf, if_neg hd]
            exact ⟨_, rfl, htwo⟩

/-! ## Both runs -/

/-- At the head of the loop: what `cp` has not passed is as it was, and `tp` has not passed `cp`. -/
structure Escaping.Inv (s text : Bytes) (e : Escaping) : Prop where
  behind : e.tp ≤ e.cp
  inside : e.cp ≤ s.length
  unread : e.mem.drop e.cp = s.drop e.cp ++ [Bytes.nul]
  written : e.mem.take e.tp = text
  size : e.mem.length = s.length + 1

variable {text : Bytes} {e : Escaping} {n : Nat}

theorem Escaping.Inv.skip (h : e.Inv s text) (hn : e.cp + n ≤ s.length) :
    Escaping.Inv s text { e with cp := e.cp + n } where
  behind := Nat.le_add_right_of_le h.behind
  inside := hn
  unread := by
    have hdrop := congrArg (List.drop n) h.unread
    rw [List.drop_drop, List.drop_append_of_le_length (by rw [List.length_drop]; omega),
      List.drop_drop] at hdrop
    exact hdrop
  written := h.written
  size := h.size

/-- The text is one byte longer, and `cp` has moved on before. -/
theorem Escaping.Inv.put (h : e.Inv s text) (b : UInt8) (hpos : 0 < n) (hn : e.cp + n ≤ s.length) :
    ∃ mem, Storage.write e.mem e.tp [b] = some mem ∧
      Escaping.Inv s (text ++ [b]) ⟨mem, e.cp + n, e.tp + 1⟩ := by
  have hbehind := h.behind
  have hsize := h.size
  have hfits : e.tp + [b].length ≤ e.mem.length := by
    rw [hsize, List.length_singleton]
    omega
  have htext : (e.mem.take e.tp).length = e.tp := List.length_take_of_le (by omega)
  refine ⟨_, if_pos hfits, ?_, hn, ?_, ?_, ?_⟩
  · dsimp only
    omega
  · have hrest := (h.skip hn).unread
    dsimp only at hrest ⊢
    have hlen : (e.mem.take e.tp ++ [b]).length = e.tp + 1 := by
      rw [List.length_append, htext, List.length_singleton]
    rw [List.drop_append, hlen, List.drop_of_length_le (by rw [hlen]; omega), List.nil_append,
      List.length_singleton, List.drop_drop, show e.tp + 1 + (e.cp + n - (e.tp + 1)) = e.cp + n by omega]
    exact hrest
  · dsimp only
    rw [h.written] at htext ⊢
    exact List.take_left' (by rw [List.length_append, htext]; rfl)
  · dsimp only
    rw [List.length_append, List.length_append, htext, List.length_drop, List.length_singleton, hsize]
    omega

/-- From any state of the loop on, both runs write the same. -/
theorem Escaping.Inv.run (hs : Bytes.nul ∉ s) (fuel : Nat) (h : e.Inv s text)
    (hfuel : s.length < fuel + e.cp) :
    ∃ states mem rest, escapesInPlace fuel e = some (states, mem) ∧
      (∀ e' ∈ states, e'.tp ≤ e'.cp ∧ e'.cp ≤ s.length) ∧
      escapes fuel (s.drop e.cp ++ [Bytes.nul]) = some rest ∧
      text ++ rest ++ [Bytes.nul] <+: mem ∧ (text ++ rest).length ≤ s.length ∧
      mem.length = s.length + 1 := by
  -- what is read lies at `cp` or behind it, where the writes at `tp` have not come yet
  induction fuel generalizing e text with
  | zero =>
    have hinside := h.inside
    omega
  | succ fuel ih =>
    have hrest : Bytes.nul ∉ s.drop e.cp := fun hmem => hs (List.mem_of_mem_drop hmem)
    obtain ⟨r, hr, hwithin⟩ := readEscape_spec hrest
    have hinside := h.inside
    have hbehind := h.behind
    have hdrop : ∀ n ≤ (s.drop e.cp).length, (s.drop e.cp ++ [Bytes.nul]).drop n =
        s.drop (e.cp + n) ++ [Bytes.nul] := by
      intro n hn
      rw [List.drop_append_of_le_length hn, List.drop_drop]
    rw [List.length_drop] at hwithin hdrop
    rw [escapesInPlace, escapes, h.unread, hr, Option.bind_some, Option.bind_some]
    cases r with
    -- at the end of the text the NUL is written, which has room behind the text
    | stop =>
      have hsize := h.size
      have htext : (e.mem.take e.tp).length = e.tp := List.length_take_of_le (by omega)
      have hfits : e.tp + [Bytes.nul].length ≤ e.mem.length := by
        rw [hsize, List.length_singleton]
        omega
      refine ⟨[e], _, [], by dsimp only; rw [Storage.write, if_pos hfits]; rfl, ?_, rfl, ?_, ?_, ?_⟩
      · intro e' he'
        rw [List.mem_singleton.mp he']
        exact ⟨hbehind, hinside⟩
      · rw [h.written, List.append_nil]
        exact ⟨_, rfl⟩
      · rw [List.append_nil, ← h.written, htext]
        omega
      · rw [List.length_append, List.length_append, htext, List.length_drop, hsize,
          List.length_singleton]
        omega
    -- an escape that writes nothing moves `cp` only
    | skip n =>
      obtain ⟨hpos, hn⟩ := hwithin
      obtain ⟨states, mem, rest, hrun, hstates, hcopy, hmem⟩ :=
        ih (h.skip (by omega : e.cp + n ≤ s.length)) (by dsimp only; omega)
      refine ⟨e :: states, mem, rest, by dsimp only; rw [hrun]; rfl, ?_, ?_, hmem⟩
      · exact List.forall_mem_cons.mpr ⟨⟨hbehind, hinside⟩, hstates⟩
      · dsimp only
        rw [hdrop n hn]
        exact hcopy
    -- one byte is written for at least one that is read
    | put b n =>
      obtain ⟨hpos, hn⟩ := hwithin
      obtain ⟨mem', hwrite, hinv⟩ := h.put b hpos (by omega : e.cp + n ≤ s.length)
      obtain ⟨states, mem, rest, hrun, hstates, hcopy, hmem⟩ := ih hinv (by dsimp only; omega)
      refine ⟨e :: states, mem, b :: rest, ?_, ?_, ?_, ?_⟩
      · dsimp only
        rw [hwrite, Option.bind_some, hrun]
        rfl
      · exact List.forall_mem_cons.mpr ⟨⟨hbehind, hinside⟩, hstates⟩
      · dsimp only
        rw [hdrop n hn]
        dsimp only at hcopy
        rw [hcopy]
        rfl
      · simpa using hmem

/-- **`escapes` is safe in place**: it comes to an end, reads nothing behind the terminator, `tp`
never passes `cp`, and the text that it leaves is that of a target of its own. -/
theorem escapesInPlace_safe (s : Bytes) (hs : Bytes.nul ∉ s) :
    ∃ states mem text, escapesInPlace (s.length + 1) ⟨s ++ [Bytes.nul], 0, 0⟩ = some (states, mem) ∧
      (∀ e ∈ states, e.tp ≤ e.cp ∧ e.cp ≤ s.length) ∧
      escapes (s.length + 1) (s ++ [Bytes.nul]) = some text ∧
      text ++ [Bytes.nul] <+: mem ∧ text.length ≤ s.length ∧ mem.length = s.length + 1 := by
  have hstart : Escaping.Inv s [] ⟨s ++ [Bytes.nul], 0, 0⟩ :=
    ⟨Nat.le_refl 0, Nat.zero_le _, rfl, rfl, by simp⟩
  exact hstart.run hs (s.length + 1) (Nat.lt_succ_self _)

/-- `a\x4`, which ends within an escape. -/
theorem escapesInPlace_safe_cut :
    ∃ states mem text, escapesInPlace 5 ⟨Bytes.lit "a\\x4" ++ [Bytes.nul], 0, 0⟩ =
        some (states, mem) ∧
      (∀ e ∈ states, e.tp ≤ e.cp ∧ e.cp ≤ (Bytes.lit "a\\x4").length) ∧
      escapes 5 (Bytes.lit "a\\x4" ++ [Bytes.nul]) = some text ∧
      text ++ [Bytes.nul] <+: mem ∧ text.length ≤ (Bytes.lit "a\\x4").length ∧
      mem.length = (Bytes.lit "a\\x4").length + 1 :=
  escapesInPlace_safe (Bytes.lit "a\\x4") (by decide)

end Fetchmail.Config
