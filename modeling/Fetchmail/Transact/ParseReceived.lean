import Fetchmail.Lib.Bytes
import Mathlib.Data.List.TakeWhile

/-!
# The Envelope Recipient in a `Received` Line

`parse_received` of `transact.c` looks for a word `by` with the name of a host, and behind it
for a word `for` with an address, by walking over a C string with `strstr` and loops of its own.
The text before the scan pointer is given by its last byte, the text from it on is a list; what
would read before the start of the line or behind its zero byte has an outcome of its own.

Seen from a distance the line is a sequence of words with blanks behind them, and which words
are looked at can be told from that alone.
-/

namespace Fetchmail.Transact.Received

open Fetchmail.Lib

/-! ## The scan -/

/-- `sizeof(rbuf)`: `HOSTLEN + USERNAMELEN + 4` -/
def rbufSize : Nat := 635 + 128 + 4

/-- What is left in `rbuf` of a text that is written to it. -/
def rbufText (s : Bytes) : Bytes := s.take (rbufSize - 1)

def atSign : UInt8 := 64

/-- No blank. -/
def inWord (b : UInt8) : Bool := !Bytes.isspace b

/-- What a search for a word ends with. -/
inductive Search where
  | absent
  /-- the text behind the word -/
  | found (behind : Bytes)
  /-- the byte before the start of the line is looked at -/
  | outside
  deriving DecidableEq, Repr

/-- The search for a pattern between blanks. Where one of the blanks is missing, `strstr` goes on
two bytes further; at the byte between no match begins. -/
def findWord (pat : Bytes) : Option UInt8 → Bytes → Search
  | _, [] => .absent
  | prev, c :: s =>
    if (c :: s).take pat.length = pat then
      match prev with
      | none => .outside
      | some p =>
        if Bytes.isspace p ∧ Bytes.isspace (Bytes.charAt ((c :: s).drop pat.length) 0) then
          .found ((c :: s).drop pat.length)
        else findWord pat (some c) s
    else findWord pat (some c) s

theorem findWord_length {pat : Bytes} {prev : Option UInt8} {s behind : Bytes}
    (h : findWord pat prev s = .found behind) : behind.length + pat.length ≤ s.length := by
  induction s generalizing prev with
  | nil => cases h
  | cons c s ih =>
    have hrest : findWord pat (some c) s = .found behind →
        behind.length + pat.length ≤ (c :: s).length := fun h =>
      Nat.le_succ_of_le (ih h)
    unfold findWord at h
    split at h
    · next htake =>
      split at h
      · cases h
      · split at h
        · cases h
          have hlen := congrArg List.length htake
          rw [List.length_take] at hlen
          rw [List.length_drop]
          omega
        · exact hrest h
    · exact hrest h

/-- `"by"` and `"for"` -/
def byWord : Bytes := [98, 121]
def forWord : Bytes := [102, 111, 114]

/-- The token behind blanks, and what follows it. -/
def token (behind : Bytes) : Bytes := (behind.dropWhile Bytes.isspace).takeWhile inWord
def afterToken (behind : Bytes) : Bytes := (behind.dropWhile Bytes.isspace).dropWhile inWord

theorem length_afterToken (behind : Bytes) : (afterToken behind).length ≤ behind.length :=
  Nat.le_trans (List.dropWhile_sublist _).length_le (List.dropWhile_sublist _).length_le

/-- What one of the loops ends with. -/
inductive Scan where
  | absent
  /-- the text behind the word whose token was taken -/
  | found (behind : Bytes)
  /-- a byte outside of the line is looked at -/
  | overread
  deriving DecidableEq, Repr

/-- Search for whitespace-surrounded `by` followed by a valid address: one without `@`. Another
token is skipped, with the byte behind it. -/
def byLoop (prev : Option UInt8) (s : Bytes) : Scan :=
  match _h : findWord byWord prev s with
  | .absent => .absent
  | .outside => .overread
  | .found behind =>
    if atSign ∉ rbufText (token behind) then .found behind
    else
      match _hafter : afterToken behind with
      | [] => .overread
      | c :: s' => byLoop (some c) s'
termination_by s.length
decreasing_by
  have hfound := findWord_length _h
  have hle := length_afterToken behind
  rw [_hafter, List.length_cons] at hle
  omega

/-- Search for whitespace-surrounded `for` followed by xxxx@yyyy. The token goes on to the next
blank, the zero byte being none. -/
def forLoop (prev : Option UInt8) (s : Bytes) : Scan :=
  match _h : findWord forWord prev s with
  | .absent => .absent
  | .outside => .overread
  | .found behind =>
    match _hafter : afterToken behind with
    | [] => .overread
    | c :: s' =>
      if atSign ∈ rbufText (token behind) then .found behind
      else forLoop (some c) s'
termination_by s.length
decreasing_by
  have hfound := findWord_length _h
  have hle := length_afterToken behind
  rw [_hafter, List.length_cons] at hle
  omega

/-! ## The address -/

/-- Skip routes: from each `@` at the start to the colon. -/
def skipRoutes : (inRoute : Bool) → Bytes → Bytes
  | _, [] => []
  | true, c :: s => if c = 58 then skipRoutes false s else skipRoutes true s
  | false, c :: s => if c = atSign then skipRoutes true s else c :: s

/-- The characters up to the end of the address; nothing if there is a blank in it. -/
def collect (wantGt : Bool) : Bytes → Option Bytes
  | [] => some []
  | c :: s =>
    if (if wantGt then c = 62 else Bytes.isspace c) ∨ c = 59 then some []
    else if Bytes.isspace c then none
    else (collect wantGt s).map (c :: ·)

/-- The address behind `for`. -/
def address (behind : Bytes) : Option Bytes :=
  match behind.dropWhile Bytes.isspace with
  | 60 :: sp => collect true (skipRoutes false sp)
  | sp => collect false (skipRoutes false sp)

/-- What `parse_received` returns. -/
inductive Parsed where
  | null
  | buffer (rbuf : Bytes)
  | overread
  deriving DecidableEq, Repr

/-- The dummy header for `nxtaddr`. For the report the last character is replaced, and a newline
is put there afterwards. -/
def dummyHeader (debug : Bool) (addr : Bytes) : Parsed :=
  let rbuf := rbufText (58 :: Bytes.space :: addr ++ [Bytes.lf])
  if rbuf.length ≤ 3 then .null
  else .buffer (if debug then rbuf.dropLast ++ [Bytes.lf] else rbuf)

section

variable (isHostAlias : Bytes → Bool) (debug : Bool)

/-- The second half: `base` is where the search goes on. -/
def parseFor (prev : Option UInt8) (base : Bytes) : Parsed :=
  match forLoop prev base with
  | .absent => .null
  | .overread => .overread
  | .found behind =>
    match address behind with
    | none => .null
    | some addr => dummyHeader debug addr

/-- `parse_received` -/
def parseReceived (bufp : Bytes) : Parsed :=
  match byLoop none bufp with
  | .absent => .null
  | .overread => .overread
  | .found behind =>
    let rbuf := rbufText (token behind)
    if !isHostAlias rbuf then .null
    -- `ok + 4 + strlen(rbuf)`: two bytes behind the `by` and the token
    else if behind.length < 2 + rbuf.length then .overread
    else parseFor debug (some (Bytes.charAt behind (1 + rbuf.length)))
      (behind.drop (2 + rbuf.length))

end

/-! ## Words -/

/-- A word of a line, and the blanks behind it. -/
structure Word where
  text : Bytes
  blanks : Bytes
  deriving DecidableEq, Repr

/-- The words of a line; blanks at its start stand behind an empty word. -/
def segments : Bytes → List Word
  | [] => []
  | b :: s =>
    match segments s with
    | [] => if Bytes.isspace b then [⟨[], [b]⟩] else [⟨[b], []⟩]
    | w :: ws =>
      if Bytes.isspace b then
        if w.text = [] then ⟨[], b :: w.blanks⟩ :: ws else ⟨[], [b]⟩ :: w :: ws
      else ⟨b :: w.text, w.blanks⟩ :: ws

/-- The line of some words. -/
def lineOf (ws : List Word) : Bytes := ws.flatMap fun w => w.text ++ w.blanks

@[simp]
theorem lineOf_nil : lineOf [] = [] := rfl

@[simp]
theorem lineOf_cons (w : Word) (ws : List Word) :
    lineOf (w :: ws) = w.text ++ (w.blanks ++ lineOf ws) := by
  simp [lineOf]

/-- Only the first word may be empty, and only the last may be without blanks. -/
def Spaced : List Word → Prop
  | [] => True
  | w :: ws => (∀ b ∈ w.text, inWord b = true) ∧ (∀ b ∈ w.blanks, Bytes.isspace b = true) ∧
      (ws ≠ [] → w.blanks ≠ []) ∧ (∀ t ∈ ws.head?, t.text ≠ []) ∧ Spaced ws

theorem segments_spaced (s : Bytes) : Spaced (segments s) ∧ lineOf (segments s) = s := by
  induction s with
  | nil => exact ⟨trivial, rfl⟩
  | cons b s ih =>
    obtain ⟨hspaced, hline⟩ := ih
    unfold segments
    cases hws : segments s with
    | nil =>
      rw [hws] at hline
      -- a last character: a blank of its own, or a word without blanks
      by_cases hb : Bytes.isspace b = true
      · simp [hb, Spaced, ← hline]
      · simp [hb, Spaced, ← hline, inWord]
    | cons w ws =>
      rw [hws] at hspaced hline
      obtain ⟨htext, hblanks, hnext, hhead, hrest⟩ := hspaced
      rw [lineOf_cons] at hline
      -- the character is put in front of the first word, or begins one of its own
      by_cases hb : Bytes.isspace b = true
      · by_cases hw : w.text = []
        · simp only [hb, hw, if_true]
          refine ⟨⟨by simp, ?_, by simp, hhead, hrest⟩, ?_⟩
          · intro c hc
            rcases List.mem_cons.mp hc with rfl | hc
            · exact hb
            · exact hblanks c hc
          · simp [← hline, hw]
        · simp only [hb, hw, if_true, if_false]
          refine ⟨⟨by simp, by simpa using hb, by simp, by simpa using hw, htext, hblanks, hnext,
            hhead, hrest⟩, ?_⟩
          simp [← hline]
      · simp only [hb, if_false, Bool.false_eq_true]
        refine ⟨⟨?_, hblanks, hnext, hhead, hrest⟩, ?_⟩
        · intro c hc
          rcases List.mem_cons.mp hc with rfl | hc
          · simpa [inWord] using hb
          · exact htext c hc
        · simp [← hline]

/-! ## Searching for words -/

/-- A pattern that is a word. -/
structure Pattern (pat : Bytes) : Prop where
  nonempty : pat ≠ []
  inWord : ∀ b ∈ pat, Received.inWord b = true

theorem pattern_by : Pattern byWord := ⟨by decide, by decide⟩
theorem pattern_for : Pattern forWord := ⟨by decide, by decide⟩

section

variable {pat : Bytes} {p : UInt8} {prev : Option UInt8}

/-- Behind a character of a word nothing is found before the next blank. -/
theorem findWord_inner (hp : Bytes.isspace p = false) {w : Bytes}
    (hw : ∀ b ∈ w, inWord b = true) (s : Bytes) :
    ∃ p', findWord pat (some p) (w ++ s) = findWord pat (some p') s ∧ Bytes.isspace p' = false := by
  induction w generalizing p with
  | nil => exact ⟨p, rfl, hp⟩
  | cons c w ih =>
    have hc : Bytes.isspace c = false := by simpa [inWord] using hw c (List.mem_cons_self ..)
    -- the test on the byte before the place fails
    have hstep : findWord pat (some p) (c :: (w ++ s)) = findWord pat (some c) (w ++ s) := by
      rw [findWord]
      split
      · simp [hp]
      · rfl
    obtain ⟨p', heq, hp'⟩ := ih hc fun b hb => hw b (List.mem_cons_of_mem _ hb)
    exact ⟨p', hstep.trans heq, hp'⟩

/-- No match begins at a blank. -/
theorem findWord_blank (hpat : Pattern pat) {c : UInt8} (hc : Bytes.isspace c = true) (s : Bytes) :
    findWord pat prev (c :: s) = findWord pat (some c) s := by
  obtain ⟨d, rest, rfl⟩ := List.exists_cons_of_ne_nil hpat.nonempty
  have hd := hpat.inWord d (List.mem_cons_self ..)
  have hne : (c :: s).take (d :: rest).length ≠ d :: rest := by
    intro heq
    have hcd : c = d := by
      rw [List.length_cons, List.take_succ_cons] at heq
      exact (List.cons.inj heq).1
    rw [← hcd, inWord, hc] at hd
    cases hd
  rw [findWord.eq_def]
  simp only [if_neg hne]

theorem findWord_blanks (hpat : Pattern pat) {bl : Bytes} (hbl : ∀ b ∈ bl, Bytes.isspace b = true)
    (s : Bytes) :
    ∃ p', findWord pat (some p) (bl ++ s) = findWord pat (some p') s ∧
      (Bytes.isspace p = true ∨ bl ≠ [] → Bytes.isspace p' = true) := by
  induction bl generalizing p with
  | nil => exact ⟨p, rfl, fun h => h.resolve_right fun hne => hne rfl⟩
  | cons c bl ih =>
    have hc := hbl c (List.mem_cons_self ..)
    obtain ⟨p', heq, hp'⟩ := ih (p := c) fun b hb => hbl b (List.mem_cons_of_mem _ hb)
    refine ⟨p', ?_, fun _ => hp' (.inl hc)⟩
    rw [List.cons_append, findWord_blank hpat hc]
    exact heq

/-- Text that may follow a word: none, or a blank comes first. -/
def Parted (s : Bytes) : Prop := ∀ b ∈ s.head?, Bytes.isspace b = true

/-- Where a word begins, the pattern is found exactly if it is the word and a blank follows. -/
theorem findWord_word (hpat : Pattern pat) (hp : Bytes.isspace p = true) {w s : Bytes}
    (hw : ∀ b ∈ w, inWord b = true) (hne : w ≠ []) (hs : Parted s) :
    (w = pat ∧ s ≠ [] ∧ findWord pat (some p) (w ++ s) = .found s) ∨
      (¬ (w = pat ∧ s ≠ []) ∧
        ∃ p', findWord pat (some p) (w ++ s) = findWord pat (some p') s) := by
  obtain ⟨c, w, rfl⟩ := List.exists_cons_of_ne_nil hne
  have hinner : ∃ p', findWord pat (some c) (w ++ s) = findWord pat (some p') s := by
    have hc : Bytes.isspace c = false := by simpa [inWord] using hw c (List.mem_cons_self ..)
    obtain ⟨p', heq, -⟩ := findWord_inner hc (fun b hb => hw b (List.mem_cons_of_mem _ hb)) s
    exact ⟨p', heq⟩
  -- what the test on the blank behind the pattern says
  have htest : (c :: (w ++ s)).take pat.length = pat →
      Bytes.isspace (Bytes.charAt ((c :: (w ++ s)).drop pat.length) 0) = true →
      c :: w = pat ∧ s ≠ [] := by
    intro htake hblank
    rw [← List.cons_append] at htake hblank
    -- the word does not go on where the blank must be
    have hle : (c :: w).length ≤ pat.length := by
      by_contra hlt
      rw [List.drop_append_of_le_length (by omega)] at hblank
      obtain ⟨d, rest, hd⟩ : ∃ d rest, (c :: w).drop pat.length = d :: rest := by
        apply List.exists_cons_of_ne_nil
        rw [ne_eq, List.drop_eq_nil_iff]
        exact hlt
      rw [hd] at hblank
      have hmem : d ∈ c :: w := List.mem_of_mem_drop (hd ▸ List.mem_cons_self ..)
      have hin := hw d hmem
      simp only [List.cons_append, Bytes.charAt, List.getD_cons_zero] at hblank
      simp [inWord, hblank] at hin
    obtain ⟨more, hmore⟩ : c :: w <+: pat := by
      rw [← htake]
      exact (List.prefix_take_iff).mpr ⟨List.prefix_append _ _, by omega⟩
    cases more with
    | nil =>
      rw [List.append_nil] at hmore
      refine ⟨hmore, ?_⟩
      rintro rfl
      rw [← hmore, List.append_nil, List.drop_length] at hblank
      exact absurd hblank (by decide)
    | cons d more =>
      -- a blank in the pattern
      exfalso
      have hd : inWord d = true := hpat.inWord d (by rw [← hmore]; simp)
      rw [← hmore, List.length_append, List.take_length_add_append] at htake
      have htake := List.append_cancel_left htake
      cases s with
      | nil => simp at htake
      | cons b s =>
        have hb := hs b rfl
        rw [List.length_cons, List.take_succ_cons] at htake
        rw [← (List.cons.inj htake).1, inWord, hb] at hd
        cases hd
  rw [List.cons_append, findWord]
  -- the pattern at the first place of the word; at the others nothing is found
  by_cases hfound : c :: w = pat ∧ s ≠ []
  · refine .inl ⟨hfound.1, hfound.2, ?_⟩
    obtain ⟨b, t, rfl⟩ := List.exists_cons_of_ne_nil hfound.2
    have htake : (c :: (w ++ b :: t)).take pat.length = pat := by
      rw [← List.cons_append, hfound.1, List.take_left]
    have hdrop : (c :: (w ++ b :: t)).drop pat.length = b :: t := by
      rw [← List.cons_append, hfound.1, List.drop_left]
    have hb : Bytes.isspace b = true := hs b rfl
    rw [if_pos htake, hdrop]
    simp [hp, Bytes.charAt, hb]
  · refine .inr ⟨hfound, ?_⟩
    split
    · next htake =>
      have hno : ¬ (Bytes.isspace p = true ∧
          Bytes.isspace (Bytes.charAt ((c :: (w ++ s)).drop pat.length) 0) = true) :=
        fun h => hfound (htest htake h.2)
      simp only [if_neg hno]
      exact hinner
    · exact hinner

theorem parted_line {w : Word} {ws : List Word} (h : Spaced (w :: ws)) :
    Parted (w.blanks ++ lineOf ws) := by
  obtain ⟨-, hblanks, hnext, -, -⟩ := h
  intro b hb
  cases hbl : w.blanks with
  | nil =>
    have hws : ws = [] := by
      by_contra hne
      exact hnext hne hbl
    rw [hbl, hws] at hb
    cases hb
  | cons c bl =>
    rw [hbl] at hb
    have hbc : c = b := by simpa using hb
    exact hbc ▸ hblanks c (by rw [hbl]; exact List.mem_cons_self ..)

/-- The search goes from word to word. -/
theorem findWord_line (hpat : Pattern pat) {w : Word} {ws : List Word} (h : Spaced (w :: ws))
    (hp : Bytes.isspace p = true) :
    (w.text = pat ∧ w.blanks ≠ [] ∧
      findWord pat (some p) (lineOf (w :: ws)) = .found (w.blanks ++ lineOf ws)) ∨
    (¬ (w.text = pat ∧ w.blanks ≠ []) ∧ ∃ p', (ws ≠ [] → Bytes.isspace p' = true) ∧
      findWord pat (some p) (lineOf (w :: ws)) = findWord pat (some p') (lineOf ws)) := by
  have hparted := parted_line h
  obtain ⟨htext, hblanks, hnext, -, -⟩ := h
  have hempty : w.blanks ++ lineOf ws ≠ [] → w.blanks ≠ [] := by
    intro hne hbl
    apply hne
    have hws : ws = [] := by
      by_contra hws
      exact hnext hws hbl
    rw [hbl, hws]
    rfl
  -- from the blanks behind the word the search comes to the next one
  have hpass : ∀ p, ∃ p', (ws ≠ [] → Bytes.isspace p' = true) ∧
      findWord pat (some p) (w.blanks ++ lineOf ws) = findWord pat (some p') (lineOf ws) := by
    intro p
    obtain ⟨p', heq, hp'⟩ := findWord_blanks hpat (p := p) hblanks (lineOf ws)
    exact ⟨p', fun hws => hp' (.inr (hnext hws)), heq⟩
  rw [lineOf_cons]
  -- only the first word of a line may be empty
  by_cases hw : w.text = []
  · refine .inr ⟨fun hfound => hpat.nonempty (hfound.1.symm.trans hw), ?_⟩
    rw [hw]
    exact hpass p
  · rcases findWord_word hpat hp htext hw hparted with ⟨heq, hne, hfound⟩ | ⟨hnot, p', heq⟩
    · exact .inl ⟨heq, hempty hne, hfound⟩
    · obtain ⟨p'', hp'', hrest⟩ := hpass p'
      refine .inr ⟨fun hfound => hnot ⟨hfound.1, ?_⟩, p'', hp'', heq.trans hrest⟩
      exact fun hnil => hfound.2 (List.append_eq_nil_iff.mp hnil).1

theorem token_blanks {bl : Bytes} (hbl : ∀ b ∈ bl, Bytes.isspace b = true) {w : Word}
    {ws : List Word} (h : Spaced (w :: ws)) (hw : w.text ≠ []) :
    token (bl ++ lineOf (w :: ws)) = w.text ∧
      afterToken (bl ++ lineOf (w :: ws)) = w.blanks ++ lineOf ws := by
  have hparted := parted_line h
  have htext := h.1
  have hdrop : (bl ++ lineOf (w :: ws)).dropWhile Bytes.isspace =
      w.text ++ (w.blanks ++ lineOf ws) := by
    rw [List.dropWhile_append_of_pos hbl, lineOf_cons]
    obtain ⟨c, t, hc⟩ := List.exists_cons_of_ne_nil hw
    have hin := htext c (by rw [hc]; exact List.mem_cons_self ..)
    rw [hc, List.cons_append, List.dropWhile_cons_of_neg]
    simpa [inWord] using hin
  have hstop : (w.blanks ++ lineOf ws).takeWhile inWord = [] ∧
      (w.blanks ++ lineOf ws).dropWhile inWord = w.blanks ++ lineOf ws := by
    cases hs : w.blanks ++ lineOf ws with
    | nil => exact ⟨rfl, rfl⟩
    | cons b s =>
      have hb := hparted b (by rw [hs]; rfl)
      simp [inWord, hb]
  unfold token afterToken
  rw [hdrop, List.takeWhile_append_of_pos htext, List.dropWhile_append_of_pos htext, hstop.1,
    hstop.2, List.append_nil]
  exact ⟨rfl, rfl⟩

theorem token_blanks_only {bl : Bytes} (hbl : ∀ b ∈ bl, Bytes.isspace b = true) :
    token bl = [] ∧ afterToken bl = [] := by
  have hdrop : bl.dropWhile Bytes.isspace = [] := List.dropWhile_eq_nil_iff.mpr hbl
  unfold token afterToken
  rw [hdrop]
  exact ⟨rfl, rfl⟩

end

/-! ## The loops over words -/

/-- What is found among the words. -/
inductive Clause where
  | absent
  /-- the blanks behind the word, and the words behind them -/
  | found (blanks : Bytes) (behind : List Word)
  /-- the line ends where there should be a blank -/
  | runsOut
  deriving DecidableEq, Repr

/-- The first `by` with a token without `@`; a token with one is skipped. -/
def byClause : List Word → Clause
  | [] => .absent
  | [w] => if w.text = byWord ∧ w.blanks ≠ [] then .found w.blanks [] else .absent
  | w :: t :: ws =>
    if w.text = byWord ∧ w.blanks ≠ [] then
      if atSign ∉ rbufText t.text then .found w.blanks (t :: ws)
      else if t.blanks = [] then .runsOut
      else byClause ws
    else byClause (t :: ws)

/-- The first `for` with a token with `@`; another token is skipped. Each needs a blank behind
it. -/
def forClause : List Word → Clause
  | [] => .absent
  | [w] => if w.text = forWord ∧ w.blanks ≠ [] then .runsOut else .absent
  | w :: t :: ws =>
    if w.text = forWord ∧ w.blanks ≠ [] then
      if t.blanks = [] then .runsOut
      else if atSign ∈ rbufText t.text then .found w.blanks (t :: ws)
      else forClause ws
    else forClause (t :: ws)

/-- What the loop makes of that. -/
def Clause.scan : Clause → Scan
  | .absent => .absent
  | .found blanks behind => .found (blanks ++ lineOf behind)
  | .runsOut => .overread

theorem byLoop_eq (prev : Option UInt8) (s : Bytes) :
    byLoop prev s =
      match findWord byWord prev s with
      | .absent => .absent
      | .outside => .overread
      | .found behind =>
        if atSign ∉ rbufText (token behind) then .found behind
        else
          match afterToken behind with
          | [] => .overread
          | c :: s' => byLoop (some c) s' := by
  rw [byLoop]
  split
  · next h => rw [h]
  · next h => rw [h]
  · next behind h =>
    rw [h]
    dsimp only
    split
    · rfl
    · split
      · next h => rw [h]
      · next h => rw [h]

theorem forLoop_eq (prev : Option UInt8) (s : Bytes) :
    forLoop prev s =
      match findWord forWord prev s with
      | .absent => .absent
      | .outside => .overread
      | .found behind =>
        match afterToken behind with
        | [] => .overread
        | c :: s' =>
          if atSign ∈ rbufText (token behind) then .found behind
          else forLoop (some c) s' := by
  rw [forLoop]
  split
  · next h => rw [h]
  · next h => rw [h]
  · next behind h =>
    rw [h]
    dsimp only
    split
    · next h => rw [h]
    · next h => rw [h]

theorem byLoop_congr {prev prev' : Option UInt8} {s s' : Bytes}
    (h : findWord byWord prev s = findWord byWord prev' s') : byLoop prev s = byLoop prev' s' := by
  rw [byLoop_eq, byLoop_eq prev', h]

theorem forLoop_congr {prev prev' : Option UInt8} {s s' : Bytes}
    (h : findWord forWord prev s = findWord forWord prev' s') :
    forLoop prev s = forLoop prev' s' := by
  rw [forLoop_eq, forLoop_eq prev', h]

theorem Spaced.tail {w : Word} {ws : List Word} (h : Spaced (w :: ws)) : Spaced ws := h.2.2.2.2

/-- Behind a token the next search begins at the word behind its blanks. -/
theorem findWord_behind {pat : Bytes} (hpat : Pattern pat) {t : Word} {ws : List Word}
    (h : Spaced (t :: ws)) (ht : t.blanks ≠ []) :
    ∃ c s p, t.blanks ++ lineOf ws = c :: s ∧ (ws ≠ [] → Bytes.isspace p = true) ∧
      findWord pat (some c) s = findWord pat (some p) (lineOf ws) := by
  obtain ⟨-, hblanks, -, -, -⟩ := h
  obtain ⟨c, bl, hbl⟩ := List.exists_cons_of_ne_nil ht
  rw [hbl] at hblanks ⊢
  have hc := hblanks c (List.mem_cons_self ..)
  obtain ⟨p, heq, hp⟩ := findWord_blanks hpat (p := c)
    (fun b hb => hblanks b (List.mem_cons_of_mem _ hb)) (lineOf ws)
  exact ⟨c, bl ++ lineOf ws, p, rfl, fun _ => hp (.inl hc), heq⟩

theorem behind_nil {t : Word} {ws : List Word} (h : Spaced (t :: ws)) (ht : t.blanks = []) :
    t.blanks ++ lineOf ws = [] := by
  obtain ⟨-, -, hnext, -, -⟩ := h
  have hws : ws = [] := by
    by_contra hne
    exact hnext hne ht
  rw [ht, hws]
  rfl

/-- The first loop, from the beginning of a word. -/
theorem byLoop_line {ws : List Word} (h : Spaced ws) {p : UInt8}
    (hp : ws ≠ [] → Bytes.isspace p = true) :
    byLoop (some p) (lineOf ws) = (byClause ws).scan := by
  -- word by word, in step with `byClause`
  induction ws using byClause.induct generalizing p with
  | case1 =>
    rw [byLoop_eq]
    rfl
  | case2 w hw =>
    have hblanks := h.2.1
    rcases findWord_line pattern_by h (hp (by simp)) with ⟨-, -, hfound⟩ | ⟨hnot, -⟩
    · obtain ⟨htoken, -⟩ := token_blanks_only hblanks
      have hnone : atSign ∉ rbufText (token w.blanks) := by
        rw [htoken]
        decide
      rw [lineOf_nil, List.append_nil] at hfound
      rw [byLoop_eq, hfound, byClause, if_pos hw]
      simp only [if_pos hnone, Clause.scan, lineOf_nil, List.append_nil]
    · exact absurd hw hnot
  | case3 w hw =>
    rcases findWord_line pattern_by h (hp (by simp)) with ⟨htext, hbl, -⟩ | ⟨-, p', -, heq⟩
    · exact absurd ⟨htext, hbl⟩ hw
    · rw [byLoop_congr heq, byLoop_eq, byClause, if_neg hw]
      rfl
  | case4 w t ws hw hvalid =>
    have hblanks := h.2.1
    have ht : t.text ≠ [] := h.2.2.2.1 t rfl
    rcases findWord_line pattern_by h (hp (by simp)) with ⟨-, -, hfound⟩ | ⟨hnot, -⟩
    · obtain ⟨htoken, -⟩ := token_blanks hblanks h.tail ht
      rw [byLoop_eq, hfound, byClause, if_pos hw, if_pos hvalid]
      simp only [htoken, if_pos hvalid, Clause.scan]
    · exact absurd hw hnot
  | case5 w t ws hw hvalid hend =>
    have hblanks := h.2.1
    have ht : t.text ≠ [] := h.2.2.2.1 t rfl
    rcases findWord_line pattern_by h (hp (by simp)) with ⟨-, -, hfound⟩ | ⟨hnot, -⟩
    · obtain ⟨htoken, hafter⟩ := token_blanks hblanks h.tail ht
      rw [behind_nil h.tail hend] at hafter
      rw [byLoop_eq, hfound, byClause, if_pos hw, if_neg hvalid, if_pos hend]
      simp only [htoken, if_neg hvalid, hafter, Clause.scan]
    · exact absurd hw hnot
  | case6 w t ws hw hvalid hend ih =>
    have hblanks := h.2.1
    have ht : t.text ≠ [] := h.2.2.2.1 t rfl
    rcases findWord_line pattern_by h (hp (by simp)) with ⟨-, -, hfound⟩ | ⟨hnot, -⟩
    · obtain ⟨htoken, hafter⟩ := token_blanks hblanks h.tail ht
      obtain ⟨c, s, p', hcons, hp', heq⟩ := findWord_behind pattern_by h.tail hend
      rw [hcons] at hafter
      rw [byLoop_eq, hfound, byClause, if_pos hw, if_neg hvalid, if_neg hend]
      simp only [htoken, if_neg hvalid, hafter]
      rw [byLoop_congr heq, ih h.tail.tail hp']
    · exact absurd hw hnot
  | case7 w t ws hw ih =>
    rcases findWord_line pattern_by h (hp (by simp)) with ⟨htext, hbl, -⟩ | ⟨-, p', hp', heq⟩
    · exact absurd ⟨htext, hbl⟩ hw
    · rw [byLoop_congr heq, byClause, if_neg hw, ih h.tail hp']

/-- The second loop, from the beginning of a word. -/
theorem forLoop_line {ws : List Word} (h : Spaced ws) {p : UInt8}
    (hp : ws ≠ [] → Bytes.isspace p = true) :
    forLoop (some p) (lineOf ws) = (forClause ws).scan := by
  -- word by word, in step with `forClause`
  induction ws using forClause.induct generalizing p with
  | case1 =>
    rw [forLoop_eq]
    rfl
  | case2 w hw =>
    rcases findWord_line pattern_for h (hp (by simp)) with ⟨-, -, hfound⟩ | ⟨hnot, -⟩
    · obtain ⟨-, hafter⟩ := token_blanks_only h.2.1
      rw [lineOf_nil, List.append_nil] at hfound
      rw [forLoop_eq, hfound, forClause, if_pos hw]
      simp only [hafter, Clause.scan]
    · exact absurd hw hnot
  | case3 w hw =>
    rcases findWord_line pattern_for h (hp (by simp)) with ⟨htext, hbl, -⟩ | ⟨-, p', -, heq⟩
    · exact absurd ⟨htext, hbl⟩ hw
    · rw [forLoop_congr heq, forLoop_eq, forClause, if_neg hw]
      rfl
  | case4 w t ws hw hend =>
    have ht : t.text ≠ [] := h.2.2.2.1 t rfl
    rcases findWord_line pattern_for h (hp (by simp)) with ⟨-, -, hfound⟩ | ⟨hnot, -⟩
    · obtain ⟨-, hafter⟩ := token_blanks h.2.1 h.tail ht
      rw [behind_nil h.tail hend] at hafter
      rw [forLoop_eq, hfound, forClause, if_pos hw, if_pos hend]
      simp only [hafter, Clause.scan]
    · exact absurd hw hnot
  | case5 w t ws hw hend haddr =>
    have ht : t.text ≠ [] := h.2.2.2.1 t rfl
    rcases findWord_line pattern_for h (hp (by simp)) with ⟨-, -, hfound⟩ | ⟨hnot, -⟩
    · obtain ⟨htoken, hafter⟩ := token_blanks h.2.1 h.tail ht
      obtain ⟨c, s, -, hcons, -, -⟩ := findWord_behind pattern_for h.tail hend
      rw [hcons] at hafter
      rw [forLoop_eq, hfound, forClause, if_pos hw, if_neg hend, if_pos haddr]
      simp only [hafter, htoken, if_pos haddr, Clause.scan]
    · exact absurd hw hnot
  | case6 w t ws hw hend haddr ih =>
    have ht : t.text ≠ [] := h.2.2.2.1 t rfl
    rcases findWord_line pattern_for h (hp (by simp)) with ⟨-, -, hfound⟩ | ⟨hnot, -⟩
    · obtain ⟨htoken, hafter⟩ := token_blanks h.2.1 h.tail ht
      obtain ⟨c, s, p', hcons, hp', heq⟩ := findWord_behind pattern_for h.tail hend
      rw [hcons] at hafter
      rw [forLoop_eq, hfound, forClause, if_pos hw, if_neg hend, if_neg haddr]
      simp only [hafter, htoken, if_neg haddr]
      rw [forLoop_congr heq, ih h.tail.tail hp']
    · exact absurd hw hnot
  | case7 w t ws hw ih =>
    rcases findWord_line pattern_for h (hp (by simp)) with ⟨htext, hbl, -⟩ | ⟨-, p', hp', heq⟩
    · exact absurd ⟨htext, hbl⟩ hw
    · rw [forLoop_congr heq, forClause, if_neg hw, ih h.tail hp']

/-! ## The second half of the line -/

/-- The token behind the blanks. -/
def firstText (behind : List Word) : Bytes := (behind.head?.map Word.text).getD []

/-- The words that the second search sees. It goes on behind the `by` by two bytes and the length
of the token, so more blanks than that leave it before the token. -/
def forWords (blanks : Bytes) (behind : List Word) : List Word :=
  if 2 + (rbufText (firstText behind)).length ≤ blanks.length then behind else behind.tail

theorem charAt_of_drop {s y : Bytes} {k : Nat} {c : UInt8} (h : s.drop k = c :: y) :
    Bytes.charAt s k = c ∧ s.drop (k + 1) = y := by
  constructor
  · have hget : (s.drop k)[0]? = some c := by
      rw [h]
      rfl
    rw [List.getElem?_drop, Nat.add_zero] at hget
    rw [Bytes.charAt, List.getD_eq_getElem?_getD, hget]
    rfl
  · rw [← List.drop_drop, h]
    rfl

/-- Wherever the second search begins, it comes to the beginning of a word. -/
theorem forLoop_base {w : Word} {behind : List Word} (h : Spaced (w :: behind))
    (hbl : w.blanks ≠ [])
    (hfit : 2 + (rbufText (firstText behind)).length ≤ (w.blanks ++ lineOf behind).length) :
    forLoop
        (some (Bytes.charAt (w.blanks ++ lineOf behind) (1 + (rbufText (firstText behind)).length)))
        ((w.blanks ++ lineOf behind).drop (2 + (rbufText (firstText behind)).length)) =
      (forClause (forWords w.blanks behind)).scan := by
  obtain ⟨-, hblanks, -, hhead, hbehind⟩ := h
  unfold forWords
  -- at most the whole token was copied
  have hcut : (rbufText (firstText behind)).length ≤ (firstText behind).length := by
    rw [rbufText, List.length_take]
    exact Nat.min_le_right _ _
  generalize hn : (rbufText (firstText behind)).length = n at hfit hcut ⊢
  have htwo : 2 + n = (1 + n) + 1 := by omega
  by_cases hin : 2 + n ≤ w.blanks.length
  · -- among the blanks
    rw [if_pos hin]
    obtain ⟨c, bl, hc⟩ := List.exists_cons_of_ne_nil (l := w.blanks.drop (1 + n)) (by
      rw [ne_eq, List.drop_eq_nil_iff]
      omega)
    have hdrop : (w.blanks ++ lineOf behind).drop (1 + n) = c :: (bl ++ lineOf behind) := by
      rw [List.drop_append_of_le_length (by omega), hc]
      rfl
    have hmem : ∀ b ∈ c :: bl, Bytes.isspace b = true := fun b hb =>
      hblanks b (List.mem_of_mem_drop (hc ▸ hb))
    obtain ⟨hchar, hrest⟩ := charAt_of_drop hdrop
    obtain ⟨p, heq, hp⟩ := findWord_blanks pattern_for (p := c)
      (fun b hb => hmem b (List.mem_cons_of_mem _ hb)) (lineOf behind)
    rw [htwo, hchar, hrest, forLoop_congr heq]
    exact forLoop_line hbehind fun _ => hp (.inl (hmem c (List.mem_cons_self ..)))
  · rw [if_neg hin]
    have hpos := List.length_pos_iff.mpr hbl
    cases behind with
    -- there is no token behind, so the search would begin beyond the line
    | nil =>
      rw [lineOf_nil, List.append_nil] at hfit
      exact absurd hfit hin
    | cons t ws =>
      have hcut : n ≤ t.text.length := hcut
      have hlater : (w.blanks ++ lineOf (t :: ws)).drop (1 + n) =
          (t.text ++ (t.blanks ++ lineOf ws)).drop (1 + n - w.blanks.length) := by
        rw [lineOf_cons, List.drop_append, List.drop_of_length_le (by omega), List.nil_append]
      rw [List.tail_cons, htwo]
      by_cases hinside : 1 + n - w.blanks.length < t.text.length
      · -- within the token
        obtain ⟨c, w', hc⟩ := List.exists_cons_of_ne_nil
          (l := t.text.drop (1 + n - w.blanks.length)) (by
            rw [ne_eq, List.drop_eq_nil_iff]
            omega)
        rw [List.drop_append_of_le_length (Nat.le_of_lt hinside), hc, List.cons_append] at hlater
        have hmem : ∀ b ∈ c :: w', inWord b = true := fun b hb =>
          hbehind.1 b (List.mem_of_mem_drop (hc ▸ hb))
        have hcblank : Bytes.isspace c = false := by
          simpa [inWord] using hmem c (List.mem_cons_self ..)
        obtain ⟨hchar, hrest⟩ := charAt_of_drop hlater
        obtain ⟨p, heq, -⟩ := @findWord_inner forWord c hcblank w'
          (fun b hb => hmem b (List.mem_cons_of_mem _ hb)) (t.blanks ++ lineOf ws)
        obtain ⟨p', heq', hp'⟩ := findWord_blanks pattern_for (p := p) hbehind.2.1 (lineOf ws)
        rw [hchar, hrest, forLoop_congr (heq.trans heq')]
        exact forLoop_line hbehind.tail fun hws => hp' (.inr (hbehind.2.2.1 hws))
      · -- right behind it
        have hd : 1 + n - w.blanks.length = t.text.length := by omega
        rw [hd, List.drop_left] at hlater
        have ht : t.blanks ≠ [] := by
          intro ht
          have hnil := congrArg List.length (behind_nil hbehind ht)
          rw [lineOf_cons, List.length_append, List.length_append, hnil, List.length_nil] at hfit
          omega
        obtain ⟨c, s, p, hcons, hp, heq⟩ := findWord_behind pattern_for hbehind ht
        rw [hcons] at hlater
        obtain ⟨hchar, hrest⟩ := charAt_of_drop hlater
        rw [hchar, hrest, forLoop_congr heq]
        exact forLoop_line hbehind.tail hp

/-! ## The address -/

theorem collect_inWord {wantGt : Bool} {s addr : Bytes} (h : collect wantGt s = some addr) :
    ∀ b ∈ addr, inWord b = true := by
  induction s generalizing addr with
  | nil =>
    cases h
    simp
  | cons c s ih =>
    rw [collect] at h
    -- the copy stops at a delimiter, and a blank makes it no address
    by_cases hstop : (if wantGt then c = 62 else Bytes.isspace c = true) ∨ c = 59
    · rw [if_pos hstop] at h
      cases h
      simp
    · rw [if_neg hstop] at h
      by_cases hblank : Bytes.isspace c = true
      · rw [if_pos hblank] at h
        cases h
      · rw [if_neg hblank] at h
        obtain ⟨more, hmore, rfl⟩ := Option.map_eq_some_iff.mp h
        intro b hb
        rcases List.mem_cons.mp hb with rfl | hb
        · simpa [inWord] using hblank
        · exact ih hmore b hb

theorem address_inWord {behind addr : Bytes} (h : address behind = some addr) :
    ∀ b ∈ addr, inWord b = true := by
  unfold address at h
  split at h <;> exact collect_inWord h

/-- What `nxtaddr` is to be given: `": "`, an address, a newline. -/
def IsHeader (rbuf : Bytes) : Prop :=
  rbuf.length < rbufSize ∧ ∃ addr, addr ≠ [] ∧ (∀ b ∈ addr, inWord b = true) ∧
    rbuf = 58 :: Bytes.space :: addr ++ [Bytes.lf]

/-- The line is left with nothing, or with a header for `nxtaddr`. -/
def Parsed.Proper : Parsed → Prop
  | .null => True
  | .buffer rbuf => IsHeader rbuf
  | .overread => False

/-- An address that is too long leaves no room for the newline; only with the report it is put
there. -/
theorem dummyHeader_proper {debug : Bool} {addr : Bytes} (h : ∀ b ∈ addr, inWord b = true) :
    (dummyHeader debug addr).Proper ↔ debug = true ∨ addr.length ≤ 763 := by
  have hsize : rbufSize - 1 = 766 := rfl
  have hlength : (rbufText (58 :: Bytes.space :: addr ++ [Bytes.lf])).length =
      min 766 (addr.length + 3) := by
    rw [rbufText, hsize, List.length_take]
    simp
  unfold dummyHeader
  by_cases hempty : addr = []
  · subst hempty
    exact iff_of_true trivial (.inr (by decide))
  · have hpos := List.length_pos_iff.mpr hempty
    have hlong : ¬ (rbufText (58 :: Bytes.space :: addr ++ [Bytes.lf])).length ≤ 3 := by
      rw [hlength]
      omega
    simp only [if_neg hlong]
    by_cases hfit : addr.length ≤ 763
    · -- all of it is in the buffer
      have hwhole : rbufText (58 :: Bytes.space :: addr ++ [Bytes.lf]) =
          58 :: Bytes.space :: addr ++ [Bytes.lf] := by
        rw [rbufText, hsize, List.take_of_length_le]
        simp
        omega
      refine iff_of_true ?_ (.inr hfit)
      have hheader : IsHeader (58 :: Bytes.space :: addr ++ [Bytes.lf]) := by
        refine ⟨?_, addr, hempty, h, rfl⟩
        simp [rbufSize]
        omega
      rw [hwhole, List.dropLast_concat]
      cases debug <;> exact hheader
    · have hcut : rbufText (58 :: Bytes.space :: addr ++ [Bytes.lf]) =
          58 :: Bytes.space :: addr.take 764 := by
        rw [rbufText, hsize, List.take_append_of_le_length (by simp; omega)]
        rfl
      rw [hcut]
      cases debug with
      | true =>
        -- the last byte that is left gives way to the newline
        have hlen : (addr.take 764).length = 764 := by
          rw [List.length_take]
          omega
        have hlast : (58 :: Bytes.space :: addr.take 764).dropLast =
            58 :: Bytes.space :: addr.take 763 := by
          rw [List.dropLast_eq_take]
          simp only [List.length_cons, hlen, Nat.add_sub_cancel, List.take_succ_cons,
            List.take_take]
          rfl
        have hheader : IsHeader (58 :: Bytes.space :: addr.take 763 ++ [Bytes.lf]) := by
          refine ⟨?_, addr.take 763, ?_, ?_, rfl⟩
          · simp only [List.length_append, List.length_cons, List.length_take, List.length_nil,
              rbufSize]
            omega
          · intro hnil
            have hnone := congrArg List.length hnil
            rw [List.length_take, List.length_nil] at hnone
            omega
          · exact fun b hb => h b (List.mem_of_mem_take hb)
        refine iff_of_true ?_ (.inl rfl)
        rw [if_pos rfl, hlast]
        exact hheader
      | false =>
        refine iff_of_false ?_ (by simp [hfit])
        rintro ⟨-, addr', -, -, heq⟩
        -- the last character would be a newline
        simp only [Bool.false_eq_true, if_false, List.cons_append, List.cons.injEq, true_and] at heq
        have hlf : Bytes.lf ∈ addr.take 764 := by
          rw [heq]
          simp
        exact absurd (h _ (List.mem_of_mem_take hlf)) (by decide)

/-! ## The whole line -/

/-- What the line must be like, told by its words. -/
def Legible (isHostAlias : Bytes → Bool) (debug : Bool) (line : Bytes) : Prop :=
  match byClause (segments line) with
  | .absent => True
  | .runsOut => False
  | .found blanks behind =>
    let name := rbufText (firstText behind)
    isHostAlias name = true →
      2 + name.length ≤ (blanks ++ lineOf behind).length ∧
        match forClause (forWords blanks behind) with
        | .absent => True
        | .runsOut => False
        | .found blanks' behind' =>
          debug = true ∨ ∀ addr, address (blanks' ++ lineOf behind') = some addr → addr.length ≤ 763

/-- The blanks that are found stand behind a word of the line. -/
theorem byClause_spaced {ws behind : List Word} {blanks : Bytes} (h : Spaced ws)
    (hfound : byClause ws = .found blanks behind) :
    ∃ w : Word, w.blanks = blanks ∧ blanks ≠ [] ∧ Spaced (w :: behind) := by
  induction ws using byClause.induct with
  | case1 => cases hfound
  | case2 w hw =>
    rw [byClause, if_pos hw] at hfound
    cases hfound
    exact ⟨w, rfl, hw.2, h⟩
  | case3 w hw =>
    rw [byClause, if_neg hw] at hfound
    cases hfound
  | case4 w t ws hw hvalid =>
    rw [byClause, if_pos hw, if_pos hvalid] at hfound
    cases hfound
    exact ⟨w, rfl, hw.2, h⟩
  | case5 w t ws hw hvalid hend =>
    rw [byClause, if_pos hw, if_neg hvalid, if_pos hend] at hfound
    cases hfound
  | case6 w t ws hw hvalid hend ih =>
    rw [byClause, if_pos hw, if_neg hvalid, if_neg hend] at hfound
    exact ih h.tail.tail hfound
  | case7 w t ws hw ih =>
    rw [byClause, if_neg hw] at hfound
    exact ih h.tail hfound

/-- The first word of the line is not a `by`, and nothing before it is looked at. -/
theorem byLoop_received {line : Bytes} (hline : line.head? = some 82) :
    byLoop none line = (byClause (segments line)).scan := by
  obtain ⟨hspaced, hsegments⟩ := segments_spaced line
  obtain ⟨s, rfl⟩ : ∃ s, line = 82 :: s := ⟨_, (List.cons_head?_tail hline).symm⟩
  cases hws : segments (82 :: s) with
  | nil =>
    rw [hws] at hsegments
    cases hsegments
  | cons w ws =>
    rw [hws, lineOf_cons] at hsegments
    rw [hws] at hspaced
    -- the word begins with the line
    obtain ⟨t, ht⟩ : ∃ t, w.text = 82 :: t := by
      cases htext : w.text with
      | nil =>
        exfalso
        rw [htext, List.nil_append] at hsegments
        have hparted := parted_line hspaced 82 (by rw [hsegments]; rfl)
        exact absurd hparted (by decide)
      | cons c t =>
        rw [htext] at hsegments
        exact ⟨t, by rw [(List.cons.inj hsegments).1]⟩
    have hne : ¬ (w.text = byWord ∧ w.blanks ≠ []) := by
      rw [ht]
      simp [byWord]
    have htext := hspaced.1
    rw [ht] at htext
    have hs : s = t ++ (w.blanks ++ lineOf ws) := by
      rw [ht, List.cons_append] at hsegments
      exact (List.cons.inj hsegments).2.symm
    -- no `by` is found at the first byte, which has nothing before it
    have hstart : findWord byWord none (82 :: s) = findWord byWord (some 82) s := by
      have hno : (82 :: s).take byWord.length ≠ byWord := by
        rw [byWord, List.length_cons, List.take_succ_cons]
        simp
      rw [findWord.eq_def]
      simp only [if_neg hno]
    obtain ⟨p, heq, -⟩ := @findWord_inner byWord 82 (by decide) t
      (fun b hb => htext b (List.mem_cons_of_mem _ hb)) (w.blanks ++ lineOf ws)
    obtain ⟨p', heq', hp'⟩ := findWord_blanks pattern_by (p := p) hspaced.2.1 (lineOf ws)
    rw [← hs] at heq
    rw [byLoop_congr (hstart.trans (heq.trans heq')),
      byLoop_line hspaced.tail fun hws => hp' (.inr (hspaced.2.2.1 hws))]
    cases ws with
    | nil => rw [byClause, byClause, if_neg hne]
    | cons t ws => rw [byClause, if_neg hne]

/-- `parse_received` stays within the line, and what it returns is a header for `nxtaddr`, exactly
if the words of the line are such. -/
theorem parseReceived_proper_iff (isHostAlias : Bytes → Bool) (debug : Bool) (line : Bytes)
    (hline : Bytes.lit "Received:" <+: line) :
    (parseReceived isHostAlias debug line).Proper ↔ Legible isHostAlias debug line := by
  have hhead : line.head? = some 82 := by
    obtain ⟨s, rfl⟩ := hline
    rfl
  unfold parseReceived Legible
  rw [byLoop_received hhead]
  cases hby : byClause (segments line) with
  | absent => exact Iff.rfl
  | runsOut => exact Iff.rfl
  | found blanks behind =>
    obtain ⟨w, rfl, hbl, hspaced⟩ := byClause_spaced (segments_spaced line).1 hby
    have htoken : token (w.blanks ++ lineOf behind) = firstText behind := by
      cases behind with
      | nil =>
        rw [lineOf_nil, List.append_nil]
        exact (token_blanks_only hspaced.2.1).1
      | cons t ws => exact (token_blanks hspaced.2.1 hspaced.tail (hspaced.2.2.2.1 t rfl)).1
    simp only [Clause.scan, htoken]
    -- another host's line is left alone
    cases isHostAlias (rbufText (firstText behind)) with
    | false => exact iff_of_true trivial (fun h => by cases h)
    | true =>
      simp only [Bool.not_true, Bool.false_eq_true, if_false, true_imp_iff]
      -- the second search must begin within the line
      by_cases hfit : (w.blanks ++ lineOf behind).length < 2 + (rbufText (firstText behind)).length
      · rw [if_pos hfit]
        exact iff_of_false id fun h => absurd h.1 (Nat.not_le.mpr hfit)
      · rw [if_neg hfit]
        have hfit := Nat.not_lt.mp hfit
        rw [and_iff_right hfit, parseFor, forLoop_base hspaced hbl hfit]
        cases forClause (forWords w.blanks behind) with
        | absent => exact Iff.rfl
        | runsOut => exact Iff.rfl
        | found blanks' behind' =>
          simp only [Clause.scan]
          cases haddr : address (blanks' ++ lineOf behind') with
          | none => exact iff_of_true trivial (.inr fun _ h => by cases h)
          | some addr =>
            simp only [Option.some.injEq, forall_eq']
            exact dummyHeader_proper (address_inWord haddr)

/-- `Received: by h for` and a newline: the token behind `for` is read off the end of the line. -/
theorem parseReceived_overreads :
    ¬ (parseReceived (fun _ => true) false (Bytes.lit "Received: by h for \n")).Proper := by
  have hby : byLoop none (Bytes.lit "Received: by h for \n") = .found (Bytes.lit " h for \n") := by
    rw [byLoop_received (by decide)]
    decide +kernel
  have hfor : forLoop (some Bytes.space) (Bytes.lit "for \n") = .overread := by
    rw [forLoop_eq]
    rfl
  have hrun : parseReceived (fun _ => true) false (Bytes.lit "Received: by h for \n") =
      .overread := by
    unfold parseReceived
    rw [hby]
    -- the name `h` is an alias, and the search goes on behind it and the blank
    show parseFor false (some Bytes.space) (Bytes.lit "for \n") = .overread
    rw [parseFor, hfor]
  rw [hrun]
  exact id

/-- A line as a server writes it. -/
theorem parseReceived_proper_demon :
    (parseReceived (fun _ => true) false
      (Bytes.lit "Received: from a by b for <c@d>; Fri\n")).Proper := by
  apply (parseReceived_proper_iff _ _ _ (by decide)).mpr
  have hby : byClause (segments (Bytes.lit "Received: from a by b for <c@d>; Fri\n")) =
      .found [Bytes.space] (segments (Bytes.lit "b for <c@d>; Fri\n")) := by
    decide +kernel
  have hfor : forClause (forWords [Bytes.space] (segments (Bytes.lit "b for <c@d>; Fri\n"))) =
      .found [Bytes.space] (segments (Bytes.lit "<c@d>; Fri\n")) := by
    decide +kernel
  have haddr : address ([Bytes.space] ++ lineOf (segments (Bytes.lit "<c@d>; Fri\n"))) =
      some (Bytes.lit "c@d") := by
    decide +kernel
  unfold Legible
  rw [hby]
  intro _
  refine ⟨by decide +kernel, ?_⟩
  rw [hfor]
  refine .inr fun addr h => ?_
  rw [haddr] at h
  cases h
  decide

end Fetchmail.Transact.Received
