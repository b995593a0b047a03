import Fetchmail.Imap.Session

/-!
# Reading inside the Line

How `imap.c` looks at one line that has been read. A line is a string with a zero byte behind it;
code that forms a pointer behind that zero and reads there has no result here. The functions are
those of `imap_untagged_response`, of `imap_response` for one line, and of `imap_fetch_headers` and
`imap_fetch_body` for the line that they look at.
-/

namespace Fetchmail.Imap

open Fetchmail.Lib Fetchmail.Transact

/-! ## Pointers -/

/-- What stands at `buf + i`, which may point to the final zero. -/
def stringAt (buf : Bytes) (i : Nat) : Option Bytes :=
  if i ≤ buf.length then some (buf.drop i) else none

/-- `buf[i]` -/
def byteAt (buf : Bytes) (i : Nat) : Option UInt8 :=
  (stringAt buf i).map fun s => Bytes.charAt s 0

/-- `for (cp = buf; !isspace(*cp); cp++)`. The final zero is not a blank. -/
def skipTag : Bytes → Option Bytes
  | [] => none
  | b :: s => if Bytes.isspace b then some (b :: s) else skipTag s

section

variable {buf : Bytes} {i : Nat}

theorem stringAt_eq (h : i ≤ buf.length) : stringAt buf i = some (buf.drop i) := if_pos h

theorem byteAt_eq (h : i ≤ buf.length) : byteAt buf i = some (Bytes.charAt buf i) := by
  rw [byteAt, stringAt_eq h]
  simp [Bytes.charAt, List.getD_eq_getElem?_getD]

theorem skipTag_eq :
    skipTag buf =
      if buf.any Bytes.isspace then some (buf.dropWhile fun b => !Bytes.isspace b) else none := by
  induction buf with
  | nil => rfl
  | cons b buf ih =>
    rw [skipTag]
    cases hb : Bytes.isspace b with
    | true => simp [hb]
    | false => simp [hb, ih]

end

/-! ## `imap_response` -/

/-- `imap_untagged_response`: what it recognises. -/
def untaggedResponse (checkOnly : Bool) (stage : Stage) (buf : Bytes) : Option Untagged :=
  if stage = .getauth ∧ (Bytes.lit "* CAPABILITY").isPrefixOf buf then
    (stringAt buf 12).map .capability
  else if stage = .getauth ∧ (Bytes.lit "* PREAUTH").isPrefixOf buf then some .preauth
  else if stage ≠ .logout ∧ (Bytes.lit "* BYE").isPrefixOf buf then
    -- the rest is reported
    (stringAt buf 5).map fun _ => .bye
  else if buf.contains (Bytes.lit " EXISTS") then
    (stringAt buf 2).map fun s =>
      match Bytes.strtoul s with
      | .number u _ => if maxCount < u then .bogusCount else .exists u
      | _ => .bogusCount
  else if buf.contains (Bytes.lit " EXPUNGE") then
    (stringAt buf 2).map fun s =>
      match Bytes.strtoul s with
      | .number u _ => .expunge u
      | _ => .bogusCount
  else if stage = .getrange ∧ !checkOnly ∧ buf.contains (Bytes.lit "[READ-ONLY]") then
    some .readOnly
  else some .other

/-- The return code for what was recognised. -/
def Untagged.code : Untagged → Ps
  | .bogusCount => .protocol
  | .readOnly => .lockbusy
  | .other => .untagged
  | _ => .success

/-- The stage after an untagged response. -/
def Untagged.nextStage (stage : Stage) : Untagged → Stage
  | .exists _ => if stage = .idle then .getrange else stage
  | _ => stage

/-- The untagged part of the loop body of `imap_response`: the verdict on the line, and the
stage. -/
def untaggedLine (checkOnly : Bool) (stage : Stage) (buf : Bytes) : Option (Ps × Stage) := do
  if (← byteAt buf 0) = 42 then
    if (← byteAt buf 1) = Bytes.space then
      let response ← untaggedResponse checkOnly stage buf
      return (response.code, response.nextStage stage)
  return (.success, stage)

/-- `imap_response`, behind its loop. -/
def completion (stage : Stage) (tag buf : Bytes) : Option (Ps × Bytes) :=
  if tag = [] then some (.success, buf)
  else (skipTag buf).map fun cp => (taggedResponse stage (cp.dropWhile Bytes.isspace), [])

/-- `imap_response` on one line, with what it returns, if it does not go on with the next. -/
def responseLine (checkOnly argbuf : Bool) (stage : Stage) (tag : Bytes) (late : Bool)
    (text : Bytes) : Option (Option (Ps × Bytes)) := do
  let buf := text.map Bytes.toUpper
  let (ok, stage) ← untaggedLine checkOnly stage buf
  match returnEarly argbuf stage tag buf late ok with
  | some result => return some result
  | none => if tag.isPrefixOf buf then (completion stage tag buf).map some else return none

/-! ## `imap_fetch_headers` -/

/-- `sscanf(buf, "* %d %n", &num, &consumed) == 1` -/
def scanFetch (buf : Bytes) : Option (Int × Nat) :=
  match buf with
  | 42 :: s =>
    match Bytes.scanInt s with
    | .int num rest => some (num, buf.length - (rest.dropWhile Bytes.isspace).length)
    | _ => none
  | _ => none

/-- `sscanf(ptr, "RFC822.HEADER {%d}%n", lenp, &consumed) == 1`, where `ptr` was found. The count is
only stored if the brace is closed. -/
def scanHeaderLength (ptr : Bytes) : Option (Int × Option Nat) :=
  match (ptr.drop 13).dropWhile Bytes.isspace with
  | 123 :: s =>
    match Bytes.scanInt s with
    | .int len (125 :: rest) => some (len, some (ptr.length - rest.length))
    | .int len _ => some (len, none)
    | _ => none
  | _ => none

/-- The test for a `FETCH` response with a length: the length, if the test succeeds. -/
def headerResponse (number : Int) (buf : Bytes) : Option (Option Int) := do
  match scanFetch buf with
  | none => return none
  | some (num, consumed) =>
    if !Bytes.startsWithCI (← stringAt buf consumed) (Bytes.lit "FETCH") then return none
    if !Bytes.isspace (← byteAt buf (5 + consumed)) then return none
    if num ≠ number then return none
    match Bytes.findSub (Bytes.lit "RFC822.HEADER") buf with
    | none => return none
    | some ptr =>
      match scanHeaderLength (← stringAt buf ptr) with
      | none => return none
      | some (len, newConsumed) =>
        -- where the brace is not closed, the count is still that of the first `sscanf`
        let consumed := newConsumed.getD consumed
        return if (← byteAt buf (ptr + (consumed - 1))) = 125 then some len else none

/-- `imap_fetch_headers` on an untagged response: its code and the length. -/
def fetchHeadersLine (number : Int) (buf : Bytes) : Option (Ps × Option Int) := do
  match ← headerResponse number buf with
  | some len => return (.success, some len)
  | none =>
    -- try to recover for some responses
    if (Bytes.lit "* NO").isPrefixOf buf || (Bytes.lit "* BAD").isPrefixOf buf ||
        buf.contains (Bytes.lit "FETCH ()") then return (.transient, none)
    else return (.error, none)

/-! ## `imap_fetch_body` -/

/-- The length behind a brace, `-1` where there is no such length. -/
def literalLength (cp : Bytes) : Int :=
  let (neg, s) := Bytes.takeSign (cp.dropWhile Bytes.isspace)
  let ds := s.takeWhile Bytes.isdigit
  let l : Int := if neg then -Bytes.digitsVal 0 ds else Bytes.digitsVal 0 ds
  if ds = [] ∨ 125 ∉ s.dropWhile Bytes.isdigit ∨ l < 0 ∨ 2 ^ 31 - 1 < l then -1 else l

/-- `imap_fetch_body` on one line, with its code and the length, if it does not go on with the
next. -/
def fetchBodyLine (number : Int) (buf : Bytes) : Option (Option (Ps × Option Int)) := do
  if !(← stringAt buf 4).contains (Bytes.lit "FETCH") then return none
  match Bytes.scanInt (← stringAt buf 2) with
  | .int num _ =>
    if num ≠ number then return some (.error, none)
    -- `NIL` as length, then the empty string
    if (← stringAt buf 10).contains (Bytes.lit "NIL)") then return some (.success, some 0)
    if (← stringAt buf 10).contains (Bytes.lit "\"\")") then return some (.success, some 0)
    match buf.dropWhile (· ≠ 123) with
    | _ :: cp => return some (.success, some (literalLength cp))
    | [] => return some (.success, some (-1))
  | _ => return none

/-! ## Untagged responses -/

/-- A line that starts with a literal is as long as the literal. -/
theorem stringAt_of_isPrefixOf {pre buf : Bytes} (h : pre.isPrefixOf buf = true) :
    stringAt buf pre.length = some (buf.drop pre.length) :=
  stringAt_eq (List.IsPrefix.length_le (List.isPrefixOf_iff_prefix.mp h))

/-- An untagged response is recognised inside the line. -/
theorem untaggedResponse_eq (checkOnly : Bool) (stage : Stage) {buf : Bytes}
    (h : isUntagged buf = true) :
    untaggedResponse checkOnly stage buf = some (classify checkOnly stage buf) := by
  have htwo : stringAt buf 2 = some (buf.drop 2) := stringAt_of_isPrefixOf h
  unfold untaggedResponse classify
  split
  · next hcap =>
    have htwelve : stringAt buf 12 = some (buf.drop 12) := stringAt_of_isPrefixOf hcap.2
    rw [htwelve]
    rfl
  split
  · rfl
  split
  · next hbye =>
    have hfive : stringAt buf 5 = some (buf.drop 5) := stringAt_of_isPrefixOf hbye.2
    rw [hfive]
    rfl
  rw [htwo]
  split
  · rfl
  split
  · rfl
  split <;> rfl

theorem untaggedLine_eq (checkOnly : Bool) (stage : Stage) (buf : Bytes) :
    untaggedLine checkOnly stage buf =
      if isUntagged buf then
        some ((classify checkOnly stage buf).code, (classify checkOnly stage buf).nextStage stage)
      else some (.success, stage) := by
  unfold untaggedLine
  rw [byteAt_eq (Nat.zero_le _)]
  -- the second byte is read only behind an asterisk, which is then in front of it
  match buf with
  | [] => rfl
  | [b] =>
    by_cases hb : b = 42
    · subst hb
      rfl
    · simp [Bytes.charAt, hb, isUntagged, Bytes.lit, List.isPrefixOf]
  | b :: b' :: s =>
    have hone : byteAt (b :: b' :: s) 1 = some b' := by
      rw [byteAt_eq (by simp)]
      rfl
    have huntagged : isUntagged (b :: b' :: s) = (b = 42 && b' = 32) := by
      have hlit : Bytes.lit "* " = [42, 32] := by decide
      rw [isUntagged, hlit]
      simp [List.isPrefixOf, eq_comm, Bool.beq_eq_decide_eq]
    by_cases hb : b = 42
    · by_cases hb' : b' = 32
      · subst hb hb'
        have hstart : isUntagged (42 :: 32 :: s) = true := by simpa using huntagged
        rw [if_pos hstart, hone, untaggedResponse_eq checkOnly stage hstart]
        rfl
      · have hnot : isUntagged (b :: b' :: s) = false := by simpa [hb'] using huntagged
        rw [hnot]
        simp [Bytes.charAt, hone, hb', Bytes.space]
    · have hnot : isUntagged (b :: b' :: s) = false := by simpa [hb] using huntagged
      rw [hnot]
      simp [Bytes.charAt, hb]

/-! ## Tagged responses -/

/-- What `imap_response` makes of a line, when it stays inside: what the model that reads freely
makes of it. -/
theorem completion_eq (stage : Stage) (tag buf : Bytes) :
    completion stage tag buf =
      if tag = [] ∨ buf.any Bytes.isspace then some (returnFinal stage tag buf) else none := by
  unfold completion returnFinal
  by_cases htag : tag = []
  · simp [htag]
  · rw [if_neg htag, if_neg htag, skipTag_eq]
    by_cases hblank : buf.any Bytes.isspace = true
    · simp only [hblank, htag, or_true, if_true, Option.map_some]
      rfl
    · simp [hblank, htag]

theorem any_isspace_toUpper (text : Bytes) :
    (text.map Bytes.toUpper).any Bytes.isspace = text.any Bytes.isspace := by
  have hbyte : ∀ b : UInt8, Bytes.isspace (Bytes.toUpper b) = Bytes.isspace b := by
    intro b
    unfold Bytes.toUpper
    split
    · -- neither a letter nor its upper case is a blank
      next h =>
      have hlow : 97 ≤ b.toNat := h.1
      have hsub : (b - 32).toNat = b.toNat - 32 := UInt8.toNat_sub_of_le b 32 (by
        rw [UInt8.le_iff_toNat_le]
        exact Nat.le_trans (by decide) hlow)
      have hblank : ∀ c : UInt8, 14 ≤ c.toNat → c.toNat ≠ 32 → Bytes.isspace c = false := by
        intro c hc hspace
        simp only [Bytes.isspace, UInt8.le_iff_toNat_le, Bool.or_eq_false_iff,
          Bool.and_eq_false_iff, decide_eq_false_iff_not]
        refine ⟨fun h => hspace (by rw [h]; rfl), .inr (by simpa using by omega)⟩
      have hhigh : b.toNat ≤ 122 := h.2
      rw [hblank b (by omega) (by omega), hblank (b - 32) (by omega) (by omega)]
    · rfl
  rw [List.any_map]
  exact congrArg text.any (funext hbyte)

/-- **A line of `imap_response`** is left only behind a tag that no blank follows. -/
theorem responseLine_isSome (checkOnly argbuf : Bool) (stage : Stage) (tag : Bytes) (late : Bool)
    (text : Bytes) :
    (responseLine checkOnly argbuf stage tag late text).isSome = true ↔
      ¬(tag ≠ [] ∧ tag.isPrefixOf (text.map Bytes.toUpper) = true ∧
        text.any Bytes.isspace = false ∧ ¬(stage = .idle ∧ late = true)) := by
  unfold responseLine
  dsimp only
  rw [untaggedLine_eq]
  by_cases huntagged : isUntagged (text.map Bytes.toUpper) = true
  · -- the second byte is a blank
    have hblank : text.any Bytes.isspace = true := by
      rw [← any_isspace_toUpper, List.any_eq_true]
      obtain ⟨rest, hrest⟩ := List.isPrefixOf_iff_prefix.mp huntagged
      exact ⟨Bytes.space, by rw [← hrest]; simp [Bytes.lit, Bytes.space], rfl⟩
    rw [if_pos huntagged]
    have hlast : ∀ stage, (completion stage tag (text.map Bytes.toUpper)).isSome = true := by
      intro stage
      rw [completion_eq, any_isspace_toUpper, if_pos (.inr hblank)]
      rfl
    simp only [hblank, Bool.true_eq_false, false_and, and_false, not_false_eq_true, iff_true]
    simp only [Option.bind_eq_bind, Option.bind_some]
    split
    · rfl
    · split
      · simpa using hlast _
      · rfl
  · rw [if_neg huntagged]
    -- what is not untagged ends the response early only in `IDLE`
    have hearly : returnEarly argbuf stage tag (text.map Bytes.toUpper) late .success =
        if stage = .idle ∧ late = true then some (.idletimeout, []) else none := by
      simp [returnEarly]
    simp only [Option.bind_eq_bind, Option.bind_some, hearly]
    by_cases hlate : stage = .idle ∧ late = true
    · simp [hlate]
    rw [if_neg hlate]
    dsimp only
    by_cases htag : tag.isPrefixOf (text.map Bytes.toUpper) = true
    · rw [if_pos htag, completion_eq, any_isspace_toUpper]
      -- with an empty tag, nothing is read behind it
      by_cases hempty : tag = []
      · simp [hempty]
      · cases hblank : text.any Bytes.isspace <;> simp [hempty, htag, hlate]
    · simp [htag]

/-! ## Fetching -/

/-- **A line of `imap_fetch_body`** is left when it is shorter than four bytes, or when it is
nothing but five bytes of the response and tells the number of the message. -/
theorem fetchBodyLine_isSome (number : Int) (buf : Bytes) :
    (fetchBodyLine number buf).isSome = true ↔
      ¬(buf.length < 4 ∨ buf.length < 10 ∧ Bytes.contains (buf.drop 4) (Bytes.lit "FETCH") = true ∧
        ∃ rest, Bytes.scanInt (buf.drop 2) = .int number rest) := by
  unfold fetchBodyLine
  by_cases hfour : buf.length < 4
  · have hnone : stringAt buf 4 = none := if_neg (by omega)
    simp [hnone, hfour]
  rw [stringAt_eq (by omega : 4 ≤ buf.length), stringAt_eq (by omega : 2 ≤ buf.length)]
  simp only [Option.bind_eq_bind, Option.bind_some]
  cases hfetch : Bytes.contains (buf.drop 4) (Bytes.lit "FETCH") with
  | false => simp [hfour]
  | true =>
    cases hscan : Bytes.scanInt (buf.drop 2) with
    | eof => simp [hfour]
    | mismatch => simp [hfour]
    | int num rest =>
      by_cases hnum : num = number
      · subst hnum
        -- the line is ours, and what lies behind the tenth byte is looked at
        by_cases hten : buf.length < 10
        · have hnone : stringAt buf 10 = none := if_neg (by omega)
          simp [hnone, hten]
        · rw [stringAt_eq (by omega : 10 ≤ buf.length)]
          simp only [hten, false_and, or_false, hfour, not_false_eq_true, iff_true]
          simp only [Bool.not_true, Bool.false_eq_true, if_false, ne_eq, not_true_eq_false,
            Option.bind_some]
          split
          · rfl
          split
          · rfl
          split <;> rfl
      · simp [hnum, hfour]

/-- The length of the headers is not followed by a closing brace, and the place where one is looked
for all the same lies behind the line: it is told by the blanks and digits before `FETCH`. -/
def StaleCount (number : Int) (buf : Bytes) : Prop :=
  ∃ consumed ptr len, scanFetch buf = some (number, consumed) ∧
    Bytes.startsWithCI (buf.drop consumed) (Bytes.lit "FETCH") = true ∧
    Bytes.isspace (Bytes.charAt buf (5 + consumed)) = true ∧
    Bytes.findSub (Bytes.lit "RFC822.HEADER") buf = some ptr ∧
    scanHeaderLength (buf.drop ptr) = some (len, none) ∧ buf.length < ptr + (consumed - 1)

theorem scanFetch_le {buf : Bytes} {num : Int} {consumed : Nat}
    (h : scanFetch buf = some (num, consumed)) : consumed ≤ buf.length := by
  unfold scanFetch at h
  split at h
  · split at h
    · simp only [Option.some.injEq, Prod.mk.injEq] at h
      omega
    · cases h
  · cases h

theorem scanHeaderLength_le {ptr : Bytes} {len : Int} {consumed : Nat}
    (h : scanHeaderLength ptr = some (len, some consumed)) : consumed ≤ ptr.length := by
  unfold scanHeaderLength at h
  split at h
  · split at h
    · simp only [Option.some.injEq, Prod.mk.injEq] at h
      omega
    · simp at h
    · cases h
  · cases h

theorem length_of_startsWithCI {s pre : Bytes} (h : Bytes.startsWithCI s pre = true) :
    pre.length ≤ s.length := by
  have hmap := congrArg List.length (of_decide_eq_true h)
  simp only [List.length_map, List.length_take] at hmap
  omega

theorem findSub_le {pat s : Bytes} {i : Nat} (h : Bytes.findSub pat s = some i) :
    i ≤ s.length := by
  obtain ⟨x, y, rfl, rfl⟩ := Bytes.findSub_spec h
  rw [List.length_append]
  exact Nat.le_add_right _ _

/-- **A response of `imap_fetch_headers`** is left when a stale count points behind it. -/
theorem fetchHeadersLine_isSome (number : Int) (buf : Bytes) :
    (fetchHeadersLine number buf).isSome = true ↔ ¬StaleCount number buf := by
  -- the rest of the line is read inside its bounds in any case
  have hiff : (fetchHeadersLine number buf).isSome = (headerResponse number buf).isSome := by
    unfold fetchHeadersLine
    cases headerResponse number buf with
    | none => rfl
    | some result =>
      cases result with
      | some len => rfl
      | none =>
        simp only [Option.bind_eq_bind, Option.bind_some]
        split <;> rfl
  rw [hiff]
  unfold headerResponse StaleCount
  cases hscan : scanFetch buf with
  | none => simp
  | some found =>
    obtain ⟨num, consumed⟩ := found
    have hconsumed := scanFetch_le hscan
    dsimp only
    rw [stringAt_eq hconsumed]
    simp only [Option.bind_eq_bind, Option.bind_some]
    cases hfetch : Bytes.startsWithCI (buf.drop consumed) (Bytes.lit "FETCH") with
    | false =>
      refine iff_of_true rfl ?_
      rintro ⟨consumed', ptr, len, hsame, hfetch', -⟩
      obtain ⟨-, rfl⟩ := Prod.mk.inj (Option.some.inj hsame)
      exact absurd hfetch' (by simp [hfetch])
    | true =>
      have hfive : 5 + consumed ≤ buf.length := by
        have hlen := length_of_startsWithCI hfetch
        rw [List.length_drop] at hlen
        have hlit : (Bytes.lit "FETCH").length = 5 := by decide
        omega
      simp only [Bool.not_true, Bool.false_eq_true, if_false, byteAt_eq hfive, Option.bind_some]
      cases hblank : Bytes.isspace (Bytes.charAt buf (5 + consumed)) with
      | false =>
        refine iff_of_true rfl ?_
        rintro ⟨consumed', ptr, len, hsame, -, hblank', -⟩
        obtain ⟨-, rfl⟩ := Prod.mk.inj (Option.some.inj hsame)
        exact absurd hblank' (by simp [hblank])
      | true =>
        by_cases hnum : num = number
        · subst hnum
          cases hptr : Bytes.findSub (Bytes.lit "RFC822.HEADER") buf with
          | none => simp
          | some ptr =>
            have hle := findSub_le hptr
            simp only [Bool.not_true, Bool.false_eq_true, if_false, ne_eq, not_true_eq_false,
              stringAt_eq hle, Option.bind_some]
            cases hlen : scanHeaderLength (buf.drop ptr) with
            | none => simp [hlen]
            | some found =>
              obtain ⟨len, newConsumed⟩ := found
              -- without a length the count of the first scan is used, from another place
              cases newConsumed with
              | some newConsumed =>
                have hnew := scanHeaderLength_le hlen
                rw [List.length_drop] at hnew
                have hin : ptr + (newConsumed - 1) ≤ buf.length := by omega
                simp only [Option.getD_some, byteAt_eq hin, Option.bind_some]
                simp [hlen]
              | none =>
                simp only [Option.getD_none, byteAt]
                by_cases hin : ptr + (consumed - 1) ≤ buf.length
                · rw [stringAt_eq hin]
                  simp [hlen]
                  omega
                · have hnone : stringAt buf (ptr + (consumed - 1)) = none := if_neg hin
                  simp [hnone, hlen, hfetch, hblank]
                  omega
        · simp [hnum]

/-! ## All of them -/

/-- The code that looks at a line, with what it knows besides the line. -/
inductive Parser where
  /-- `imap_response`, and `imap_untagged_response` in it -/
  | response (checkOnly argbuf : Bool) (stage : Stage) (tag : Bytes) (late : Bool)
  | fetchHeaders (number : Int)
  | fetchBody (number : Int)

/-- It reads nothing behind the final zero. -/
def Parser.InLine (line : Bytes) : Parser → Prop
  | .response checkOnly argbuf stage tag late =>
    (responseLine checkOnly argbuf stage tag late line).isSome = true
  | .fetchHeaders number => (fetchHeadersLine number line).isSome = true
  | .fetchBody number => (fetchBodyLine number line).isSome = true

/-- When it reads behind the final zero. -/
def Parser.Overruns (line : Bytes) : Parser → Prop
  -- a tag, and no blank in the line
  | .response _ _ stage tag late =>
    tag ≠ [] ∧ tag.isPrefixOf (line.map Bytes.toUpper) = true ∧
      line.any Bytes.isspace = false ∧ ¬(stage = .idle ∧ late = true)
  -- a length without its closing brace, and many blanks before
  | .fetchHeaders number => StaleCount number line
  -- a short line
  | .fetchBody number =>
    line.length < 4 ∨ line.length < 10 ∧
      Bytes.contains (line.drop 4) (Bytes.lit "FETCH") = true ∧
      ∃ rest, Bytes.scanInt (line.drop 2) = .int number rest

/-- **Reading inside the line.** The lines that are left are just those told by `Overruns`. -/
theorem parser_inLine_iff (p : Parser) (line : Bytes) : p.InLine line ↔ ¬p.Overruns line := by
  cases p with
  | response checkOnly argbuf stage tag late =>
    exact responseLine_isSome checkOnly argbuf stage tag late line
  | fetchHeaders number => exact fetchHeadersLine_isSome number line
  | fetchBody number => exact fetchBodyLine_isSome number line

/-- A tag alone on its line, an empty line instead of a body, a `FETCH` response that ends at its
name, and a length without its brace behind many blanks. -/
theorem parser_overruns :
    ¬(Parser.response false false .getrange (Bytes.lit "A0007") false).InLine
        (Bytes.lit "A0007") ∧
      ¬(Parser.fetchBody 1).InLine [] ∧
      ¬(Parser.fetchBody 1).InLine (Bytes.lit "* 1 FETCH") ∧
      ¬(Parser.fetchHeaders 1).InLine
        (Bytes.lit "* 1                          FETCH (RFC822.HEADER \x7b5") := by
  refine ⟨?_, ?_, ?_, ?_⟩ <;> unfold Parser.InLine <;> decide +kernel

end Fetchmail.Imap
