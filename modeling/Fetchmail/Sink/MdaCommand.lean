import Fetchmail.Lib.Storage
import Fetchmail.Sink.Bounce

/-!
# The Command of an MDA

`open_mda_sink` puts the recipients for `%s` and `%T` and the sender for `%F` into the command
of the MDA, which a shell runs. The block for the result has a size that is computed by
counting the placeholders; the loop that fills it goes over the template once. What is put in
stands between single quotes, and `sanitize` has taken single quotes out of it. Whether a shell
reads these quotes as such depends on what the template has before them.
-/

namespace Fetchmail.Sink

open Fetchmail.Lib Fetchmail.Lib.Storage

/-! ## Quoting in a shell -/

/-- `'` -/
def quote : UInt8 := 39

/-- How a shell reads the next character of a command. -/
inductive Quoting where
  /-- at the beginning of a word -/
  | start
  /-- in a word -/
  | plain
  /-- behind `<` -/
  | angle
  /-- behind `(` -/
  | paren
  /-- behind a dollar sign -/
  | dollar
  /-- behind a backslash -/
  | escaped
  /-- between single quotes, where every other character stands for itself -/
  | single
  /-- between double quotes -/
  | double
  /-- behind a dollar sign between double quotes -/
  | doubleDollar
  /-- behind a backslash between double quotes -/
  | doubleEscaped
  | comment
  /-- in a substitution, a here-document, an arithmetic expression, or a `$'`, which not every
  shell knows; they are not followed -/
  | other
  deriving DecidableEq, Repr

/-- Read one character within a word: the characters that quote, and those that end the word. -/
def Quoting.readPlain (b : UInt8) : Quoting :=
  if b = 92 then .escaped
  else if b = quote then .single
  else if b = 34 then .double
  else if b = 36 then .dollar
  else if b = 96 then .other
  else if b = 60 then .angle
  else if b = 40 then .paren
  else if b ∈ Bytes.lit " \t\n;&|)>" then .start
  else .plain

/-- Read one character at the beginning of a word. -/
def Quoting.readStart (b : UInt8) : Quoting := if b = 35 then .comment else readPlain b

/-- What a dollar sign begins: an opening parenthesis, brace or bracket is behind it. -/
def substitutes (b : UInt8) : Prop := b ∈ ([40, 123, 91] : Bytes)

instance (b : UInt8) : Decidable (substitutes b) := inferInstanceAs (Decidable (_ ∈ _))

/-- Read one character between double quotes. -/
def Quoting.readDouble (b : UInt8) : Quoting :=
  if b = 34 then .plain
  else if b = 92 then .doubleEscaped
  else if b = 36 then .doubleDollar
  else if b = 96 then .other
  else .double

/-- Read one character. -/
def Quoting.read : Quoting → UInt8 → Quoting
  | .start, b => readStart b
  | .plain, b => readPlain b
  | .angle, b => if b = 60 then .other else readStart b
  | .paren, b => if b = 40 then .other else readStart b
  | .dollar, b =>
    if substitutes b ∨ b = quote then .other else if b = 36 then .plain else readPlain b
  -- a line that is continued
  | .escaped, b => if b = Bytes.lf then .other else .plain
  | .single, b => if b = quote then .plain else .single
  | .double, b => readDouble b
  | .doubleDollar, b => if substitutes b then .other else readDouble b
  | .doubleEscaped, b => if b = Bytes.lf then .other else .double
  | .comment, b => if b = Bytes.lf then .start else .comment
  | .other, _ => .other

/-- Where a quote opens a quoted word: not in quotes, comments and what is not followed, and not
directly behind a backslash or a dollar sign. -/
def Quoting.Bare (q : Quoting) : Prop := q = .start ∨ q = .plain ∨ q = .angle ∨ q = .paren

instance (q : Quoting) : Decidable q.Bare := inferInstanceAs (Decidable (_ ∨ _))

/-- Read a text. -/
def Quoting.reads (q : Quoting) (s : Bytes) : Quoting := s.foldl Quoting.read q

@[simp]
theorem Quoting.reads_append (q : Quoting) (s t : Bytes) :
    q.reads (s ++ t) = (q.reads s).reads t := List.foldl_append

theorem Quoting.single_reads {s : Bytes} (hs : quote ∉ s) : Quoting.single.reads s = .single := by
  induction s with
  | nil => rfl
  | cons b s ih =>
    have hb : b ≠ quote := fun h => hs (by simp [h])
    have hrest : quote ∉ s := fun h => hs (by simp [h])
    have hread : Quoting.single.read b = .single := if_neg hb
    rw [Quoting.reads, List.foldl_cons, hread]
    exact ih hrest

/-- A word between single quotes. -/
def quoted (s : Bytes) : Bytes := quote :: s ++ [quote]

/-- A quote opens a quoted word there. -/
theorem Quoting.Bare.read_quote {q : Quoting} (hq : q.Bare) : q.read quote = .single := by
  rcases hq with rfl | rfl | rfl | rfl <;> rfl

theorem Quoting.Bare.reads_quoted {q : Quoting} (hq : q.Bare) {s : Bytes} (hs : quote ∉ s) :
    q.reads (quoted s) = .plain := by
  have hopen : q.reads (quoted s) = (q.read quote).reads (s ++ [quote]) := rfl
  rw [hopen, hq.read_quote, Quoting.reads_append, Quoting.single_reads hs]
  rfl

/-! ## The command -/

/-- What the command is made from; all of it are C strings. -/
structure MdaCall where
  /-- `ctl->mda` -/
  mda : Bytes
  /-- `run.postmaster` -/
  postmaster : Bytes
  msg : Msgblk
  mda_string : Bytes.nul ∉ mda
  postmaster_string : Bytes.nul ∉ postmaster
  ids_strings : ∀ r ∈ msg.recipients, Bytes.nul ∉ r.id
  returnPath_string : Bytes.nul ∉ msg.returnPath

/-- `sanitize`: replace `'` by `_` -/
def sanitize (s : Bytes) : Bytes := s.map fun b => if b = quote then 95 else b

/-- How often the loop over `strstr(sp, "%c")` comes around, each time two bytes behind the
last find. -/
def places (c : UInt8) : Bytes → Nat
  | 37 :: b :: s => if b = c then places c s + 1 else places c (b :: s)
  | _ :: s => places c s
  | [] => 0

section

variable (m : MdaCall)

/-- `nameslen`, with the blank behind the last name -/
def MdaCall.namesRoom : Nat := (m.msg.accepted.map fun r => r.id.length + 1).sum

/-- `names`: the good addresses, else the postmaster. The last blank is chopped off. -/
def MdaCall.names : Bytes :=
  sanitize <|
    if m.msg.accepted.length = 0 then m.postmaster
    else (m.msg.accepted.flatMap fun r => r.id ++ [Bytes.space]).take (m.namesRoom - 1)

/-- `nameslen` -/
def MdaCall.nameslen : Nat :=
  if m.msg.accepted.length = 0 then m.postmaster.length else m.namesRoom - 1

/-- `from` -/
def MdaCall.sender : Bytes := sanitize m.msg.returnPath

/-- The letters of the placeholders: `s`, `T` and `F` -/
def namesLetters : Bytes := [115, 84]
def senderLetter : UInt8 := 70

/-- `names`, if a placeholder asks for them -/
def MdaCall.namesPtr : Option Bytes :=
  if places 115 m.mda ≠ 0 ∨ places 84 m.mda ≠ 0 then some m.names else none

/-- `from`, if a placeholder asks for it -/
def MdaCall.fromPtr : Option Bytes :=
  if places senderLetter m.mda ≠ 0 then some m.sender else none

/-- `length` -/
def MdaCall.length : Nat :=
  m.mda.length + places 115 m.mda * m.nameslen + places 84 m.mda * m.nameslen +
    places senderLetter m.mda * m.sender.length

/-- A word between quotes is written at `dp`. -/
def putQuoted (after : Bytes) (dp : Nat) (word : Bytes) (len : Nat) : Option Bytes := do
  let after ← write after dp [quote]
  let after ← write after (dp + 1) (word ++ [Bytes.nul])
  write after (dp + 1 + len) [quote]

/-- The loop that copies the template and expands it: what is left of the template, where to
write, and the block. -/
def expand (names sender : Option Bytes) (nameslen : Nat) :
    (sp : Bytes) → (dp : Nat) → (after : Bytes) → Option Bytes
  | [], dp, after => write after dp [Bytes.nul]
  | 37 :: b :: sp, dp, after => do
    let after ← write after dp [37]
    if b ∈ namesLetters then
      let names ← names
      let after ← putQuoted after dp names nameslen
      expand names sender nameslen sp (dp + 1 + nameslen + 1) after
    else if b = senderLetter then
      let sender ← sender
      let after ← putQuoted after dp sender sender.length
      expand names sender nameslen sp (dp + 1 + sender.length + 1) after
    else expand names sender nameslen (b :: sp) (dp + 1) after
  | b :: sp, dp, after => do
    let after ← write after dp [b]
    expand names sender nameslen sp (dp + 1) after

/-- What `open_mda_sink` makes of the template; nothing if it writes outside of the block, or
copies from a null pointer, or `length + 1` is no `int`. -/
def MdaCall.command (xmalloc : (size : Nat) → Block size) : Option Bytes :=
  if m.namesPtr.isNone ∧ m.fromPtr.isNone then some (m.mda ++ [Bytes.nul])
  else if 2 ^ 31 ≤ m.length + 1 then none
  else expand m.namesPtr m.fromPtr m.nameslen m.mda 0 (xmalloc (m.length + 1)).val

end

/-! ## The template -/

/-- A piece of a template. -/
inductive Piece where
  | char (b : UInt8)
  /-- `%s`, `%T` or `%F` -/
  | placeholder (letter : UInt8)
  deriving DecidableEq, Repr

/-- The pieces of a template, from left to right. -/
def pieces : Bytes → List Piece
  | 37 :: b :: s =>
    if b ∈ namesLetters ∨ b = senderLetter then .placeholder b :: pieces s
    else .char 37 :: pieces (b :: s)
  | b :: s => .char b :: pieces s
  | [] => []

/-- How the piece stands in the template. -/
def Piece.source : Piece → Bytes
  | .char b => [b]
  | .placeholder letter => [37, letter]

/-- What comes in place of the placeholder. -/
def MdaCall.word (m : MdaCall) (letter : UInt8) : Bytes :=
  if letter ∈ namesLetters then m.names else m.sender

/-- The characters of the command for a piece, and whether they are taken from the mail. -/
def MdaCall.marked (m : MdaCall) : Piece → List (UInt8 × Bool)
  | .char b => [(b, false)]
  | .placeholder letter =>
    (quote, false) :: (m.word letter).map (·, true) ++ [(quote, false)]

/-- The command for a piece. -/
def MdaCall.expansion (m : MdaCall) : Piece → Bytes
  | .char b => [b]
  | .placeholder letter => quoted (m.word letter)

/-- A shell that goes over the pieces reads each placeholder where a quote opens a quoted word. -/
def PlaceholdersBare : Quoting → List Piece → Prop
  | _, [] => True
  | q, .char b :: ps => PlaceholdersBare (q.read b) ps
  | q, .placeholder letter :: ps =>
    q.Bare ∧ PlaceholdersBare (q.reads (Piece.placeholder letter).source) ps

instance PlaceholdersBare.decide : (q : Quoting) → (ps : List Piece) →
    Decidable (PlaceholdersBare q ps)
  | _, [] => inferInstanceAs (Decidable True)
  | q, .char b :: ps => PlaceholdersBare.decide (q.read b) ps
  | q, .placeholder letter :: ps =>
    have := PlaceholdersBare.decide (q.reads (Piece.placeholder letter).source) ps
    inferInstanceAs (Decidable (_ ∧ _))

/-! ## Writing at the end of what is done -/

theorem write_done (done rest src : Bytes) (h : src.length ≤ rest.length) :
    write (done ++ rest) done.length src = some (done ++ (src ++ rest.drop src.length)) := by
  have hfit : done.length + src.length ≤ (done ++ rest).length := by
    rw [List.length_append]
    exact Nat.add_le_add_left h _
  rw [write, if_pos hfit, List.take_left, List.drop_append, List.append_assoc]
  rw [List.drop_of_length_le (Nat.le_add_right _ _), Nat.add_sub_cancel_left, List.nil_append]

theorem putQuoted_done (done rest word : Bytes) (h : word.length + 2 ≤ rest.length) :
    putQuoted (done ++ rest) done.length word word.length =
      some (done ++ quoted word ++ rest.drop (word.length + 2)) := by
  -- the quote, then the word with a zero byte, which the closing quote takes the place of
  have hopen := write_done done rest [quote] (by
    rw [List.length_singleton]
    omega)
  have hword := write_done (done ++ [quote]) (rest.drop 1)
    (word ++ [Bytes.nul]) (by
      rw [List.length_append, List.length_drop, List.length_singleton]
      omega)
  have hclose := write_done (done ++ [quote] ++ word)
    (Bytes.nul :: rest.drop (word.length + 2)) [quote] (by simp)
  have hdrop : (rest.drop 1).drop (word ++ [Bytes.nul]).length = rest.drop (word.length + 2) := by
    rw [List.drop_drop, List.length_append, List.length_singleton]
    congr 1
    omega
  rw [hdrop] at hword
  have hlen : (done ++ [quote] ++ word).length = done.length + 1 + word.length := by
    simp only [List.length_append, List.length_singleton]
  rw [hlen] at hclose
  simp only [List.length_append, List.length_singleton, List.append_assoc, List.drop_succ_cons,
    List.drop_zero, List.cons_append, List.nil_append] at hopen hword hclose
  simp only [putQuoted, hopen, Option.bind_eq_bind, Option.bind_some, hword, hclose, quoted]
  simp

/-! ## The size of the result -/

theorem length_sanitize (s : Bytes) : (sanitize s).length = s.length := List.length_map _

theorem quote_notMem_sanitize (s : Bytes) : quote ∉ sanitize s := by
  intro hmem
  obtain ⟨b, -, hb⟩ := List.mem_map.mp hmem
  split at hb
  · exact absurd hb (by decide)
  · next hne => exact hne hb

theorem quote_notMem_word (m : MdaCall) (letter : UInt8) : quote ∉ m.word letter := by
  unfold MdaCall.word
  split
  · exact quote_notMem_sanitize _
  · exact quote_notMem_sanitize _

/-- The names are as long as counted. -/
theorem length_names (m : MdaCall) : m.names.length = m.nameslen := by
  unfold MdaCall.names MdaCall.nameslen
  rw [length_sanitize]
  split
  · rfl
  -- `strlcat` cuts nothing off: the room is what was counted
  · rw [List.length_take, List.length_flatMap]
    apply Nat.min_eq_left
    simp only [MdaCall.namesRoom, List.length_append, List.length_singleton]
    exact Nat.sub_le _ _

theorem length_quoted (s : Bytes) : (quoted s).length = s.length + 2 := by
  simp [quoted]

theorem places_cons {c b : UInt8} {s : Bytes} (h : b ≠ 37 ∨ s = []) :
    places c (b :: s) = places c s := by
  rw [places]
  rintro d r rfl rfl
  simp at h

theorem places_percent (c b : UInt8) (s : Bytes) :
    places c (37 :: b :: s) = if b = c then places c s + 1 else places c (b :: s) := by
  rw [places]

theorem length_expansion (m : MdaCall) (s : Bytes) :
    ((pieces s).flatMap m.expansion).length =
      s.length + places 115 s * m.nameslen + places 84 s * m.nameslen +
        places senderLetter s * m.sender.length := by
  rw [← length_names]
  -- by the pieces of the template
  induction s using pieces.induct with
  | case1 b s hletter ih =>
    have hrun : pieces (37 :: b :: s) = .placeholder b :: pieces s := by
      simp only [pieces, if_pos hletter]
    have hnames : ∀ c, places c (37 :: b :: s) = (if b = c then 1 else 0) + places c s := by
      intro c
      have hb : b ≠ 37 := by
        rintro rfl
        revert hletter
        decide
      rw [places_percent, places_cons (.inl hb)]
      split <;> omega
    rw [hrun, List.flatMap_cons, List.length_append, ih, hnames, hnames, hnames, MdaCall.expansion,
      length_quoted, MdaCall.word]
    have hcases : b = 115 ∨ b = 84 ∨ b = senderLetter := by
      simpa [namesLetters, or_assoc] using hletter
    rcases hcases with rfl | rfl | rfl <;>
      simp [namesLetters, senderLetter, Nat.add_mul] <;> omega
  -- a percent sign that begins no placeholder
  | case2 b s hletter ih =>
    have hrun : pieces (37 :: b :: s) = .char 37 :: pieces (b :: s) := by
      simp only [pieces, if_neg hletter]
    have hnone : ∀ c ∈ namesLetters ++ [senderLetter],
        places c (37 :: b :: s) = places c (b :: s) := by
      intro c hc
      have hb : b ≠ c := by
        rintro rfl
        simp [namesLetters] at hc hletter
        tauto
      rw [places_percent, if_neg hb]
    rw [hrun, List.flatMap_cons, List.length_append, ih, hnone 115 (by decide),
      hnone 84 (by decide), hnone senderLetter (by decide), MdaCall.expansion]
    simp
    omega
  | case3 b s hplain ih =>
    have hnone : ∀ c, places c (b :: s) = places c s := by
      intro c
      rw [places]
      exact hplain
    rw [pieces, List.flatMap_cons, List.length_append, ih, hnone, hnone, hnone, MdaCall.expansion]
    · simp
      omega
    · exact hplain
  | case4 => simp [pieces, places]

/-! ## The expansion -/

/-- Copying and expanding: the block is filled behind what is done, to its last byte. -/
theorem expand_done (m : MdaCall) {names sender : Option Bytes} {sp done rest : Bytes}
    (hnames : places 115 sp ≠ 0 ∨ places 84 sp ≠ 0 → names = some m.names)
    (hsender : places senderLetter sp ≠ 0 → sender = some m.sender)
    (hrest : rest.length = ((pieces sp).flatMap m.expansion).length + 1) :
    expand names sender m.nameslen sp done.length (done ++ rest) =
      some (done ++ (pieces sp).flatMap m.expansion ++ [Bytes.nul]) := by
  rw [← length_names]
  -- by the pieces, with the block split into what is done and what is not
  induction sp using pieces.induct generalizing done rest with
  | case1 b s hletter ih =>
    have hrun : pieces (37 :: b :: s) = .placeholder b :: pieces s := by
      simp only [pieces, if_pos hletter]
    rw [hrun, List.flatMap_cons, List.length_append, MdaCall.expansion, length_quoted] at hrest
    have hwrite := write_done done rest [37] (by simp; omega)
    have hput : ∀ word, word = m.word b → putQuoted (done ++ ([37] ++ rest.drop 1)) done.length word
        word.length = some (done ++ quoted word ++ rest.drop (word.length + 2)) := by
      rintro word rfl
      have h := putQuoted_done done ([37] ++ rest.drop 1) (m.word b) (by
        rw [List.length_append, List.length_drop, List.length_singleton]
        omega)
      rw [h]
      simp
    -- the rest of the template goes behind the word
    have hgo : ∀ word, word = m.word b →
        expand names sender m.names.length s (done.length + 1 + word.length + 1)
            (done ++ quoted word ++ rest.drop (word.length + 2)) =
          some (done ++ (pieces (37 :: b :: s)).flatMap m.expansion ++ [Bytes.nul]) := by
      rintro word rfl
      have hb : b ≠ 37 := by
        rintro rfl
        revert hletter
        decide
      have hmore : ∀ c, places c s ≠ 0 → places c (37 :: b :: s) ≠ 0 := by
        intro c hc
        rw [places_percent, places_cons (.inl hb)]
        split <;> omega
      have hlen : done.length + 1 + (m.word b).length + 1 = (done ++ quoted (m.word b)).length := by
        rw [List.length_append, length_quoted]
        omega
      rw [hlen, ih (fun h => hnames (h.imp (hmore _) (hmore _))) (fun h => hsender (hmore _ h)) (by
        rw [List.length_drop]
        omega), hrun, List.flatMap_cons, MdaCall.expansion, List.append_assoc, List.append_assoc,
        List.append_assoc, List.append_assoc]
    simp only [expand, List.length_singleton, hwrite, Option.bind_eq_bind, Option.bind_some]
    -- the placeholder is in the template, so the pointer is not null
    by_cases hn : b ∈ namesLetters
    · have hword : m.names = m.word b := (if_pos hn).symm
      have hptr : names = some m.names := by
        apply hnames
        rw [places_percent, places_percent]
        have hcases : b = 115 ∨ b = 84 := by simpa [namesLetters] using hn
        exact hcases.imp (fun h => by simp [h]) (fun h => by simp [h])
      rw [if_pos hn, hptr, Option.bind_some, hput _ hword, Option.bind_some, ← hptr]
      exact hgo _ hword
    · have hs : b = senderLetter := hletter.resolve_left hn
      have hword : m.sender = m.word b := (if_neg hn).symm
      have hptr : sender = some m.sender := by
        apply hsender
        rw [places_percent]
        simp [hs]
      rw [if_neg hn, if_pos hs, hptr, Option.bind_some, hput _ hword, Option.bind_some, ← hptr]
      exact hgo _ hword
  | case2 b s hletter ih =>
    have hrun : pieces (37 :: b :: s) = .char 37 :: pieces (b :: s) := by
      simp only [pieces, if_neg hletter]
    rw [hrun, List.flatMap_cons, List.length_append, MdaCall.expansion] at hrest
    have hwrite := write_done done rest [37] (by
      rw [List.length_singleton, hrest]
      exact Nat.le_add_left _ _)
    have hmore : ∀ c, places c (b :: s) ≠ 0 → places c (37 :: b :: s) ≠ 0 := by
      intro c hc
      rw [places_percent]
      split
      · exact Nat.succ_ne_zero _
      · exact hc
    obtain ⟨hn, hs⟩ := not_or.mp hletter
    have h := @ih (done ++ [37]) (rest.drop 1)
      (fun h => hnames (h.imp (hmore _) (hmore _))) (fun h => hsender (hmore _ h)) (by
        rw [List.length_drop, hrest, List.length_singleton]
        omega)
    rw [List.length_append, List.append_assoc, List.length_singleton] at h
    simp only [expand, hwrite, List.length_singleton, Option.bind_eq_bind, Option.bind_some,
      if_neg hn, if_neg hs, h, hrun, List.flatMap_cons, MdaCall.expansion, List.append_assoc]
  | case3 b s hplain ih =>
    rw [pieces, List.flatMap_cons, List.length_append, MdaCall.expansion] at hrest
    · have hwrite := write_done done rest [b] (by
        rw [List.length_singleton, hrest]
        exact Nat.le_add_left _ _)
      have hplaces : ∀ c, places c (b :: s) = places c s := by
        intro c
        rw [places]
        exact hplain
      rw [hplaces, hplaces] at hnames
      rw [hplaces] at hsender
      have h := @ih (done ++ [b]) (rest.drop 1) hnames hsender (by
        rw [List.length_drop, hrest, List.length_singleton]
        omega)
      rw [List.length_append, List.append_assoc, List.length_singleton] at h
      rw [expand, pieces]
      · simp only [hwrite, List.length_singleton, Option.bind_eq_bind, Option.bind_some, h,
          List.flatMap_cons, MdaCall.expansion, List.append_assoc]
      · exact hplain
      · exact hplain
    · exact hplain
  -- the last byte of the block is for the zero byte
  | case4 =>
    have hwrite := write_done done rest [Bytes.nul] (by
      rw [List.length_singleton, hrest]
      exact Nat.le_add_left _ _)
    have hnil : rest.drop 1 = [] := by
      apply List.drop_of_length_le
      rw [hrest]
      simp [pieces]
    rw [expand, hwrite, List.length_singleton, hnil]
    simp [pieces]

theorem source_pieces (s : Bytes) : (pieces s).flatMap Piece.source = s := by
  induction s using pieces.induct with
  | case1 b s hletter ih =>
    simp only [pieces, if_pos hletter, List.flatMap_cons, ih, Piece.source]
    rfl
  | case2 b s hletter ih =>
    simp only [pieces, if_neg hletter, List.flatMap_cons, ih, Piece.source]
    rfl
  | case3 b s hplain ih =>
    rw [pieces, List.flatMap_cons, ih]
    · rfl
    · exact hplain
  | case4 => rfl

/-- Without placeholders there is nothing to replace. -/
theorem expansion_eq_self {m : MdaCall} {s : Bytes} (hnames : ∀ c ∈ namesLetters, places c s = 0)
    (hsender : places senderLetter s = 0) : (pieces s).flatMap m.expansion = s := by
  induction s using pieces.induct with
  | case1 b s hletter ih =>
    have hplace : places b (37 :: b :: s) ≠ 0 := by simp [places_percent]
    rcases hletter with hn | rfl
    · exact absurd (hnames b hn) hplace
    · exact absurd hsender hplace
  | case2 b s hletter ih =>
    have hless : ∀ c, places c (37 :: b :: s) = 0 → places c (b :: s) = 0 := by
      intro c hc
      rw [places_percent] at hc
      split at hc
      · exact absurd hc (Nat.succ_ne_zero _)
      · exact hc
    simp only [pieces, if_neg hletter, List.flatMap_cons, MdaCall.expansion]
    rw [ih (fun c hc => hless c (hnames c hc)) (hless _ hsender)]
    rfl
  | case3 b s hplain ih =>
    have hplaces : ∀ c, places c (b :: s) = places c s := by
      intro c
      rw [places]
      exact hplain
    rw [pieces, List.flatMap_cons, ih (fun c hc => hplaces c ▸ hnames c hc) (hplaces _ ▸ hsender)]
    · rfl
    · exact hplain
  | case4 => rfl

/-- The block is filled with the expanded template, to its last byte. -/
theorem command_eq (m : MdaCall) (hint : m.length + 1 < 2 ^ 31)
    (xmalloc : (size : Nat) → Block size) :
    m.command xmalloc = some ((pieces m.mda).flatMap m.expansion ++ [Bytes.nul]) := by
  unfold MdaCall.command
  split
  · next hnull =>
    obtain ⟨hnames, hsender⟩ := hnull
    simp only [MdaCall.namesPtr, MdaCall.fromPtr, Option.isNone_iff_eq_none] at hnames hsender
    have hletters : ¬ (places 115 m.mda ≠ 0 ∨ places 84 m.mda ≠ 0) := fun h => by
      simp [if_pos h] at hnames
    have hletter : ¬ places senderLetter m.mda ≠ 0 := fun h => by simp [if_pos h] at hsender
    simp only [ne_eq, not_or, not_not] at hletters hletter
    rw [expansion_eq_self _ hletter]
    intro c hc
    have hcases : c = 115 ∨ c = 84 := by simpa [namesLetters] using hc
    rcases hcases with rfl | rfl
    · exact hletters.1
    · exact hletters.2
  -- the block has the size that the expansion needs
  · rw [if_neg (Nat.not_le.mpr hint)]
    have hlength : (xmalloc (m.length + 1)).val.length =
        ((pieces m.mda).flatMap m.expansion).length + 1 := by
      rw [(xmalloc (m.length + 1)).property, length_expansion]
      rfl
    exact @expand_done m _ _ _ [] _ (fun h => if_pos h) (fun h => if_pos h) hlength

/-! ## What a shell reads -/

theorem map_marked (m : MdaCall) (p : Piece) : (m.marked p).map Prod.fst = m.expansion p := by
  cases p with
  | char b => rfl
  | placeholder letter =>
    have hword : ((m.word letter).map (·, true)).map Prod.fst = m.word letter := by
      rw [List.map_map]
      exact List.map_id _
    rw [MdaCall.marked, List.map_append, List.map_cons, hword]
    rfl

theorem map_flatMap_marked (m : MdaCall) (ps : List Piece) :
    (ps.flatMap m.marked).map Prod.fst = ps.flatMap m.expansion := by
  simp only [List.map_flatMap, map_marked]

theorem letter_of_mem_pieces {s : Bytes} {letter : UInt8}
    (h : .placeholder letter ∈ pieces s) : letter ∈ namesLetters ∨ letter = senderLetter := by
  induction s using pieces.induct with
  | case1 b s hletter ih =>
    simp only [pieces, if_pos hletter, List.mem_cons, Piece.placeholder.injEq] at h
    rcases h with rfl | h
    · exact hletter
    · exact ih h
  | case2 b s hletter ih =>
    simp only [pieces, if_neg hletter, List.mem_cons, reduceCtorEq, false_or] at h
    exact ih h
  | case3 b s hplain ih =>
    rw [pieces, List.mem_cons] at h
    · exact ih (h.resolve_left (by simp))
    · exact hplain
  | case4 => simp [pieces] at h

/-- What a shell is to read: placeholders known to the MDA, where a quote opens a word. -/
structure Readable (q : Quoting) (ps : List Piece) : Prop where
  letters : ∀ letter, .placeholder letter ∈ ps → letter ∈ namesLetters ∨ letter = senderLetter
  bare : PlaceholdersBare q ps

/-- A word between quotes leaves the shell's reading where the placeholder would. -/
theorem Readable.tail {q : Quoting} {p : Piece} {ps : List Piece} (h : Readable q (p :: ps))
    (m : MdaCall) : Readable (q.reads (m.expansion p)) ps := by
  have hletters : ∀ letter, .placeholder letter ∈ ps → letter ∈ namesLetters ∨ letter = senderLetter :=
    fun letter hmem => h.letters letter (List.mem_cons_of_mem _ hmem)
  cases p with
  | char b => exact ⟨hletters, h.bare⟩
  | placeholder letter =>
    obtain ⟨hq, hrest⟩ := h.bare
    have hsource : q.reads (Piece.placeholder letter).source = .plain := by
      have hletter := h.letters letter (List.mem_cons_self ..)
      have hcases : letter = 115 ∨ letter = 84 ∨ letter = senderLetter := by
        simpa [namesLetters, or_assoc] using hletter
      have hpercent : q.read 37 = .plain := by
        rcases hq with rfl | rfl | rfl | rfl <;> rfl
      have hreads : q.reads (Piece.placeholder letter).source = (q.read 37).read letter := rfl
      rw [hreads, hpercent]
      rcases hcases with rfl | rfl | rfl <;> rfl
    rw [hsource] at hrest
    rw [MdaCall.expansion, hq.reads_quoted (quote_notMem_word m letter)]
    exact ⟨hletters, hrest⟩

/-- A character of a word is read between single quotes. -/
theorem single_of_word {q : Quoting} (hq : q.Bare) {word : Bytes} (hword : quote ∉ word)
    {pre post : List (UInt8 × Bool)} {b : UInt8}
    (h : (quote, false) :: word.map (·, true) ++ [(quote, false)] = pre ++ (b, true) :: post) :
    q.reads (pre.map Prod.fst) = .single ∧ b ≠ quote := by
  cases pre with
  | nil => simp at h
  | cons c pre =>
    simp only [List.cons_append, List.cons.injEq] at h
    obtain ⟨rfl, h⟩ := h
    -- the marked character is in the word, since the quotes are not marked
    have hinside : ∃ inner, word.map (·, true) = pre ++ (b, true) :: inner := by
      rcases List.append_eq_append_iff.mp h with ⟨more, hpre, hlast⟩ | ⟨more, hmap, hlast⟩
      · cases more with
        | nil => simp at hlast
        | cons c more => simp at hlast
      · cases more with
        | nil => simp at hlast
        | cons c more =>
          simp only [List.cons_append, List.cons.injEq] at hlast
          exact ⟨more, by rw [hmap, hlast.1]⟩
    obtain ⟨inner, hinner⟩ := hinside
    have hfst := congrArg (List.map Prod.fst) hinner
    have hid : (word.map (·, true)).map Prod.fst = word := by
      rw [List.map_map]
      exact List.map_id _
    rw [hid, List.map_append, List.map_cons] at hfst
    rw [hfst] at hword
    simp only [List.mem_append, List.mem_cons, not_or] at hword
    refine ⟨?_, fun heq => hword.2.1 heq.symm⟩
    have hopen : q.reads (((quote, false) :: pre).map Prod.fst) =
        (q.read quote).reads (pre.map Prod.fst) := rfl
    rw [hopen, hq.read_quote, Quoting.single_reads hword.1]

theorem Readable.single {m : MdaCall} {q : Quoting} {ps : List Piece} (h : Readable q ps)
    {pre post : List (UInt8 × Bool)} {b : UInt8}
    (hmarked : ps.flatMap m.marked = pre ++ (b, true) :: post) :
    q.reads (pre.map Prod.fst) = .single ∧ b ≠ quote := by
  -- on the pieces, with the state in which the shell comes to them
  induction ps generalizing q pre with
  | nil => simp at hmarked
  | cons p ps ih =>
    rw [List.flatMap_cons] at hmarked
    -- behind the piece, or in it
    have hbehind : ∀ more, ps.flatMap m.marked = more ++ (b, true) :: post →
        q.reads ((m.marked p ++ more).map Prod.fst) = .single ∧ b ≠ quote := by
      intro more hmore
      have hrest := ih (h.tail m) hmore
      rwa [List.map_append, map_marked, Quoting.reads_append]
    rcases List.append_eq_append_iff.mp hmarked with ⟨more, rfl, hmore⟩ | ⟨more, hpiece, hmore⟩
    · exact hbehind more hmore
    · cases more with
      | nil =>
        have hrest := hbehind [] hmore.symm
        rwa [hpiece, List.append_nil, List.append_nil] at hrest
      | cons c more =>
        simp only [List.cons_append, List.cons.injEq] at hmore
        obtain ⟨rfl, -⟩ := hmore
        cases p with
        | char c =>
          have hb := congrArg (List.map Prod.snd) hpiece
          rw [MdaCall.marked, List.map_append, List.map_cons] at hb
          cases pre <;> simp at hb
        | placeholder letter =>
          exact single_of_word h.bare.1 (quote_notMem_word m letter) hpiece

/-- `maildrop -f %F -d %T`, a recipient who has read about shells, and one who has not. -/
def maildropCall : MdaCall where
  mda := Bytes.lit "maildrop -f %F -d %T"
  postmaster := Bytes.lit "root"
  msg := ⟨none, [⟨Bytes.lit "ann';reboot;'", .accept⟩, ⟨Bytes.lit "bob", .accept⟩],
    Bytes.lit "joe@a.b"⟩
  mda_string := by decide
  postmaster_string := by decide
  ids_strings := by decide
  returnPath_string := by decide

/-- `p \%T`, without any quotes, and a recipient `x;r`. -/
def escapedCall : MdaCall where
  mda := Bytes.lit "p \\%T"
  postmaster := Bytes.lit "root"
  msg := ⟨none, [⟨Bytes.lit "x;r", .accept⟩], []⟩
  mda_string := by decide
  postmaster_string := by decide
  ids_strings := by decide
  returnPath_string := by decide

end Fetchmail.Sink
