import Fetchmail.Lib.Buffer
import Fetchmail.Lib.Storage
import Fetchmail.Transact.Enshroud

/-!
# Quoted Arguments of IMAP

The commands of `imap.c` with quoted strings in them: LOGIN, whose arguments `imap_canonicalize`
prepares, and SELECT or EXAMINE, whose argument the format alone puts between quotes. A reader of
quoted strings says what the server takes the arguments for. The text of a quoted string is 7-bit;
the commands send bytes from 128 on as they are.
-/

namespace Fetchmail.Imap

open Fetchmail.Lib

/-! ## The commands -/

/-- The loop of `imap_canonicalize`, with `maxlen - i` and the terminator. -/
def canonicalizeLoop : (raw : Bytes) → (left : Nat) → (result : Bytes) → (j : Nat) → Option Bytes
  | [], _, result, j => Storage.write result j [Bytes.nul]
  | _ :: _, 0, result, j => Storage.write result j [Bytes.nul]
  | b :: raw, left + 1, result, j =>
    if b = 92 ∨ b = 34 then
      (Storage.write result j [92]).bind fun result =>
        (Storage.write result (j + 1) [b]).bind fun result =>
          canonicalizeLoop raw left result (j + 2)
    else
      (Storage.write result j [b]).bind fun result => canonicalizeLoop raw left result (j + 1)

/-- `imap_canonicalize` into a block of its own, with anything in it. -/
def canonicalized (fresh : Nat → UInt8) (raw : Bytes) : Option Bytes :=
  let maxlen := 2 * raw.length + 1
  (canonicalizeLoop raw maxlen ((List.range maxlen).map fresh) 0).map Bytes.cstr

/-- What `gen_transact` sends. -/
def sentLine (tag command : Bytes) : Bytes :=
  (tag ++ Bytes.space :: command).take Transact.commandLen ++ Bytes.crlf

/-- `"LOGIN \"%s\" \"%s\""` -/
def loginCommand (remotename password : Bytes) : Bytes :=
  Bytes.lit "LOGIN \"" ++ remotename ++ Bytes.lit "\" \"" ++ password ++ Bytes.lit "\""

/-- The LOGIN command of `imap_getauth`. -/
def sentLogin (fresh fresh' : Nat → UInt8) (tag remotename password : Bytes) : Option Bytes :=
  (canonicalized fresh remotename).bind fun remotename =>
    (canonicalized fresh' password).map fun password =>
      sentLine tag (loginCommand remotename password)

/-- `check_only ? "EXAMINE" : "SELECT"` -/
def selectName (checkOnly : Bool) : Bytes :=
  if checkOnly then Bytes.lit "EXAMINE" else Bytes.lit "SELECT"

/-- `folder ? folder : "INBOX"` -/
def mailbox (folder : Option Bytes) : Bytes := folder.getD (Bytes.lit "INBOX")

def selectCommand (checkOnly : Bool) (folder : Option Bytes) : Bytes :=
  selectName checkOnly ++ Bytes.lit " \"" ++ mailbox folder ++ Bytes.lit "\""

/-- The command of `imap_getrange` that selects the folder. -/
def sentSelect (tag : Bytes) (checkOnly : Bool) (folder : Option Bytes) : Bytes :=
  sentLine tag (selectCommand checkOnly folder)

/-! ## How they are read -/

/-- The end of a line, and the end of a string in C, are in no name. -/
def InLine (c : UInt8) : Prop := c ≠ Bytes.nul ∧ c ≠ Bytes.cr ∧ c ≠ Bytes.lf

instance (c : UInt8) : Decidable (InLine c) := inferInstanceAs (Decidable (_ ∧ _))

/-- A character of text is one of 7 bits that a line may hold. -/
def IsText (c : UInt8) : Prop := c < 128 ∧ InLine c

instance (c : UInt8) : Decidable (IsText c) := inferInstanceAs (Decidable (_ ∧ _))

/-- What a quoted string holds, from its opening quote or from a backslash on, and what follows it.
Quotes and backslashes stand behind a backslash, and nothing else does. -/
def quotedFrom : (escaped : Bool) → Bytes → Option (Bytes × Bytes)
  | _, [] => none
  | true, c :: s =>
    if c = 92 ∨ c = 34 then (quotedFrom false s).map fun (text, rest) => (c :: text, rest) else none
  | false, c :: s =>
    if c = 34 then some ([], s)
    else if c = 92 then quotedFrom true s
    else if IsText c then (quotedFrom false s).map fun (text, rest) => (c :: text, rest)
    else none

/-- Arguments that are quoted strings, with a space before each, up to the end of the line. -/
def quotedArgs : (count : Nat) → Bytes → Option (List Bytes)
  | 0, s => if s = Bytes.crlf then some [] else none
  | count + 1, s =>
    if Bytes.lit " \"" <+: s then
      (quotedFrom false (s.drop 2)).bind fun (text, rest) =>
        (quotedArgs count rest).map (text :: ·)
    else none

/-- The arguments of a command with a tag and a name. -/
def readArgs (tag name : Bytes) (count : Nat) (line : Bytes) : Option (List Bytes) :=
  if tag ++ Bytes.space :: name <+: line then
    quotedArgs count (line.drop (tag ++ Bytes.space :: name).length)
  else none

/-! ## `imap_canonicalize` -/

variable {raw result text rest s : Bytes} {fresh fresh' : Nat → UInt8} {b : UInt8}

theorem imapCanonicalize_cons (b : UInt8) (raw : Bytes) : imapCanonicalize (b :: raw) =
    (if b = 92 ∨ b = 34 then [92, b] else [b]) ++ imapCanonicalize raw :=
  List.flatMap_cons

/-- Two bytes for each are room enough. -/
theorem canonicalizeLoop_eq (left j : Nat) (hleft : raw.length ≤ left)
    (hroom : j + 2 * raw.length < result.length) :
    ∃ mem, canonicalizeLoop raw left result j = some mem ∧
      result.take j ++ imapCanonicalize raw ++ [Bytes.nul] <+: mem := by
  induction raw generalizing left result j with
  | nil =>
    rw [canonicalizeLoop]
    refine ⟨_, if_pos hroom, ?_⟩
    rw [imapCanonicalize, List.flatMap_nil, List.append_nil]
    exact ⟨_, rfl⟩
  | cons b raw ih =>
    rw [List.length_cons] at hleft hroom
    obtain ⟨left, rfl⟩ : ∃ n, left = n + 1 := ⟨left - 1, by omega⟩
    -- a round that writes one or two bytes leaves twice the rest as room for the rest
    have hstep : ∀ {mem : Bytes} {out : Bytes}, out.length ≤ 2 → mem.length = result.length →
        mem.take (j + out.length) = result.take j ++ out →
        ∃ mem', canonicalizeLoop raw left mem (j + out.length) = some mem' ∧
          result.take j ++ (out ++ imapCanonicalize raw) ++ [Bytes.nul] <+: mem' := by
      intro mem out hout hlen htake
      obtain ⟨mem', hloop, hmem⟩ := ih left (j + out.length) (by omega)
        (by rw [hlen]; omega : j + out.length + 2 * raw.length < mem.length)
      rw [htake, List.append_assoc (result.take j)] at hmem
      exact ⟨mem', hloop, hmem⟩
    rw [canonicalizeLoop, imapCanonicalize_cons]
    split
    · obtain ⟨mem, hwrite, hlen, htake⟩ :=
        Storage.write_fits (by simp; omega : j + [(92 : UInt8)].length ≤ result.length)
      obtain ⟨mem', hwrite', hlen', htake'⟩ :=
        Storage.write_fits (by simp; omega : j + 1 + [b].length ≤ mem.length)
      rw [List.length_singleton] at htake htake'
      rw [htake, List.append_assoc] at htake'
      rw [hwrite, Option.bind_some, hwrite', Option.bind_some]
      exact @hstep _ [92, b] (by simp) (hlen'.trans hlen) htake'
    · obtain ⟨mem, hwrite, hlen, htake⟩ :=
        Storage.write_fits (by simp; omega : j + [b].length ≤ result.length)
      rw [hwrite, Option.bind_some]
      exact @hstep _ [b] (by simp) hlen htake

theorem nul_notMem_canonicalize (h : Bytes.nul ∉ raw) : Bytes.nul ∉ imapCanonicalize raw := by
  intro hmem
  obtain ⟨b, hb, hin⟩ := List.mem_flatMap.mp hmem
  split at hin
  · rcases List.mem_cons.mp hin with heq | hin
    · exact absurd heq (by decide)
    · exact h (List.mem_singleton.mp hin ▸ hb)
  · exact h (List.mem_singleton.mp hin ▸ hb)

/-- Nothing is written outside of the block, and nothing is left out. -/
theorem canonicalized_eq (h : Bytes.nul ∉ raw) :
    canonicalized fresh raw = some (imapCanonicalize raw) := by
  have hroom : 0 + 2 * raw.length < ((List.range (2 * raw.length + 1)).map fresh).length := by
    rw [List.length_map, List.length_range]
    omega
  obtain ⟨mem, hloop, rest, rfl⟩ := canonicalizeLoop_eq (2 * raw.length + 1) 0 (by omega) hroom
  rw [canonicalized, hloop, Option.map_some, List.take_zero, List.nil_append, List.append_assoc,
    Buffer.cstr_append (nul_notMem_canonicalize h), List.singleton_append, Buffer.cstr_nul_cons,
    List.append_nil]

/-! ## Reading what was quoted -/

/-- A quoted string is read as what was canonicalized. -/
theorem quotedFrom_canonicalize (h : ∀ c ∈ raw, IsText c) :
    quotedFrom false (imapCanonicalize raw ++ 34 :: rest) = some (raw, rest) := by
  induction raw with
  | nil => rfl
  | cons b raw ih =>
    have htext := h b List.mem_cons_self
    have ih := ih fun c hc => h c (List.mem_cons_of_mem b hc)
    rw [imapCanonicalize_cons, List.append_assoc]
    split
    · next hspecial =>
      rw [List.cons_append, List.cons_append, List.nil_append, quotedFrom, if_neg (by decide),
        if_pos rfl, quotedFrom, if_pos hspecial, ih]
      rfl
    · next hspecial =>
      rw [not_or] at hspecial
      rw [List.singleton_append, quotedFrom, if_neg hspecial.2, if_neg hspecial.1, if_pos htext, ih]
      rfl

/-- Nothing else is read so. -/
theorem quotedFrom_some (escaped : Bool) (h : quotedFrom escaped s = some (text, rest)) :
    (if escaped then 92 :: s else s) = imapCanonicalize text ++ 34 :: rest ∧
      ∀ c ∈ text, IsText c := by
  -- on what is left to read; `escaped` says whether a backslash was the last byte
  induction s generalizing escaped text with
  | nil => cases escaped <;> cases h
  | cons c s ih =>
    cases escaped with
    -- behind a backslash only another one or a quote may stand
    | true =>
      rw [quotedFrom] at h
      split at h
      · next hspecial =>
        obtain ⟨⟨text', rest'⟩, hread, heq⟩ := Option.map_eq_some_iff.mp h
        cases heq
        obtain ⟨hsplit, htext⟩ := ih false hread
        refine ⟨?_, List.forall_mem_cons.mpr ⟨?_, htext⟩⟩
        · rw [imapCanonicalize_cons, if_pos hspecial, List.append_assoc, ← hsplit]
          rfl
        · rcases hspecial with rfl | rfl <;> decide
      · cases h
    | false =>
      rw [quotedFrom] at h
      split at h
      · next hquote =>
        cases h
        rw [hquote]
        exact ⟨rfl, by simp⟩
      split at h
      · next hback =>
        rw [hback]
        exact ih true h
      next hquote hback =>
      split at h
      · next htextual =>
        obtain ⟨⟨text', rest'⟩, hread, heq⟩ := Option.map_eq_some_iff.mp h
        cases heq
        obtain ⟨hsplit, htext⟩ := ih false hread
        have hspecial : ¬(c = 92 ∨ c = 34) := by
          rintro (heq | heq)
          · exact hback heq
          · exact hquote heq
        refine ⟨?_, List.forall_mem_cons.mpr ⟨htextual, htext⟩⟩
        rw [imapCanonicalize_cons, if_neg hspecial, List.append_assoc, ← hsplit]
        rfl
      · cases h

/-- Arguments that are read are text. -/
theorem isText_of_quotedArgs {count : Nat} {args : List Bytes}
    (h : quotedArgs count s = some args) : ∀ arg ∈ args, ∀ c ∈ arg, IsText c := by
  induction count generalizing s args with
  | zero =>
    rw [quotedArgs] at h
    split at h <;> cases h
    simp
  | succ count ih =>
    rw [quotedArgs] at h
    split at h
    · obtain ⟨⟨text, rest⟩, hread, hrest⟩ := Option.bind_eq_some_iff.mp h
      obtain ⟨args', hargs, rfl⟩ := Option.map_eq_some_iff.mp hrest
      exact List.forall_mem_cons.mpr ⟨(quotedFrom_some false hread).2, ih hargs⟩
    · cases h

/-- What canonicalizing leaves as it is. -/
theorem imapCanonicalize_eq_self_iff :
    imapCanonicalize raw = raw ↔ ∀ b ∈ raw, b ≠ 92 ∧ b ≠ 34 := by
  have hlonger : ∀ raw : Bytes, raw.length ≤ (imapCanonicalize raw).length := by
    intro raw
    induction raw with
    | nil => exact Nat.le_refl _
    | cons b raw ih =>
      rw [imapCanonicalize_cons, List.length_append, List.length_cons]
      split <;> simp <;> omega
  induction raw with
  | nil => simp [imapCanonicalize]
  | cons b raw ih =>
    rw [imapCanonicalize_cons, List.forall_mem_cons]
    refine Iff.trans ?_ (and_congr_right fun _ => ih)
    split
    · next hspecial =>
      constructor
      · intro heq
        have hlen := congrArg List.length heq
        have hle := hlonger raw
        simp at hlen
        omega
      · rintro ⟨⟨hback, hquote⟩, -⟩
        exact absurd hspecial (by simp [hback, hquote])
    · next hspecial =>
      rw [not_or] at hspecial
      simp [hspecial]

/-! ## The commands read -/

/-- What stands behind the name of a command that fits is read. -/
theorem readArgs_sentLine (tag name : Bytes) (count : Nat) (args : Bytes)
    (hfits : (tag ++ Bytes.space :: (name ++ args)).length ≤ Transact.commandLen) :
    readArgs tag name count (sentLine tag (name ++ args)) =
      quotedArgs count (args ++ Bytes.crlf) := by
  have hline : sentLine tag (name ++ args) =
      (tag ++ Bytes.space :: name) ++ (args ++ Bytes.crlf) := by
    rw [sentLine, List.take_of_length_le hfits]
    simp
  rw [readArgs, hline, if_pos (List.prefix_append _ _), List.drop_left]

theorem quotedArgs_quote (count : Nat) (h : ∀ c ∈ raw, IsText c) :
    quotedArgs (count + 1) (Bytes.lit " \"" ++ imapCanonicalize raw ++ 34 :: rest) =
      (quotedArgs count rest).map (raw :: ·) := by
  rw [quotedArgs, List.append_assoc, if_pos (List.prefix_append _ _),
    show (2 : Nat) = (Bytes.lit " \"").length from rfl, List.drop_left, quotedFrom_canonicalize h]
  rfl

/-! ## Faithful arguments -/

/-- The server takes the arguments of LOGIN and of SELECT or EXAMINE for the user name, the password
and the folder, and nothing is written outside of the blocks. -/
def ArgumentsFaithful (fresh fresh' : Nat → UInt8) (tag tag' remotename password : Bytes)
    (checkOnly : Bool) (folder : Option Bytes) : Prop :=
  (∃ line, sentLogin fresh fresh' tag remotename password = some line ∧
    readArgs tag (Bytes.lit "LOGIN") 2 line = some [remotename, password]) ∧
  readArgs tag' (selectName checkOnly) 1 (sentSelect tag' checkOnly folder) =
    some [mailbox folder]

theorem isText_iff {c : UInt8} (h : InLine c) : IsText c ↔ c < 128 := and_iff_left h

/-- Both arguments of LOGIN are prepared; only what is not 7-bit goes out wrong. -/
theorem sentLogin_read_iff {tag remotename password : Bytes}
    (hname : ∀ c ∈ remotename, InLine c) (hpassword : ∀ c ∈ password, InLine c)
    (hfits : (tag ++ Bytes.space ::
      loginCommand (imapCanonicalize remotename) (imapCanonicalize password)).length ≤
        Transact.commandLen) :
    (∃ line, sentLogin fresh fresh' tag remotename password = some line ∧
      readArgs tag (Bytes.lit "LOGIN") 2 line = some [remotename, password]) ↔
      (∀ c ∈ remotename, c < 128) ∧ ∀ c ∈ password, c < 128 := by
  have hplain : ∀ s : Bytes, (∀ c ∈ s, InLine c) → Bytes.nul ∉ s :=
    fun s hs hmem => (hs _ hmem).1 rfl
  have hcommand : loginCommand (imapCanonicalize remotename) (imapCanonicalize password) =
      Bytes.lit "LOGIN" ++ (Bytes.lit " \"" ++ imapCanonicalize remotename ++ 34 ::
        (Bytes.lit " \"" ++ imapCanonicalize password ++ Bytes.lit "\"")) := by
    simp [loginCommand, Bytes.lit]
  have hargs : Bytes.lit " \"" ++ imapCanonicalize remotename ++ 34 ::
        (Bytes.lit " \"" ++ imapCanonicalize password ++ Bytes.lit "\"") ++ Bytes.crlf =
      Bytes.lit " \"" ++ imapCanonicalize remotename ++ 34 ::
        (Bytes.lit " \"" ++ imapCanonicalize password ++ 34 :: Bytes.crlf) := by
    simp [Bytes.lit]
  -- both arguments find room, as the buffers are twice as long
  rw [sentLogin, canonicalized_eq (hplain _ hname), Option.bind_some,
    canonicalized_eq (hplain _ hpassword), Option.map_some]
  simp only [Option.some.injEq, exists_eq_left']
  rw [hcommand] at hfits ⊢
  rw [readArgs_sentLine _ _ _ _ hfits, hargs]
  constructor
  · intro hread
    have htext := isText_of_quotedArgs hread
    exact ⟨fun c hc => (htext remotename (by simp) c hc).1,
      fun c hc => (htext password (by simp) c hc).1⟩
  · rintro ⟨hname7, hpassword7⟩
    rw [quotedArgs_quote 1 fun c hc => (isText_iff (hname c hc)).mpr (hname7 c hc),
      quotedArgs_quote 0 fun c hc => (isText_iff (hpassword c hc)).mpr (hpassword7 c hc)]
    rfl

/-- The folder stands between the quotes as it is. -/
theorem sentSelect_read_iff {tag : Bytes} {checkOnly : Bool} {folder : Option Bytes}
    (hfolder : ∀ c ∈ mailbox folder, InLine c)
    (hfits : (tag ++ Bytes.space :: selectCommand checkOnly folder).length ≤ Transact.commandLen) :
    readArgs tag (selectName checkOnly) 1 (sentSelect tag checkOnly folder) =
        some [mailbox folder] ↔
      ∀ b ∈ mailbox folder, b < 128 ∧ b ≠ 92 ∧ b ≠ 34 := by
  have hcommand : selectCommand checkOnly folder =
      selectName checkOnly ++ (Bytes.lit " \"" ++ mailbox folder ++ Bytes.lit "\"") := by
    simp [selectCommand]
  have hargs : Bytes.lit " \"" ++ mailbox folder ++ Bytes.lit "\"" ++ Bytes.crlf =
      Bytes.lit " \"" ++ (mailbox folder ++ 34 :: Bytes.crlf) := by
    simp [Bytes.lit]
  rw [hcommand] at hfits
  rw [sentSelect, hcommand, readArgs_sentLine _ _ _ _ hfits, hargs, forall₂_and,
    ← imapCanonicalize_eq_self_iff]
  constructor
  -- what the reader makes of it is quoted again: the folder must be what quoting leaves alone
  · intro hread
    have htext := isText_of_quotedArgs hread
    refine ⟨fun c hc => (htext (mailbox folder) (by simp) c hc).1, ?_⟩
    rw [quotedArgs, if_pos (List.prefix_append _ _), show (2 : Nat) = (Bytes.lit " \"").length from rfl,
      List.drop_left] at hread
    obtain ⟨⟨text, rest⟩, hquoted, hrest⟩ := Option.bind_eq_some_iff.mp hread
    obtain ⟨args, hend, heq⟩ := Option.map_eq_some_iff.mp hrest
    obtain ⟨rfl, rfl⟩ := List.cons.inj heq
    have hrest : rest = Bytes.crlf := by
      rw [quotedArgs] at hend
      split at hend
      · assumption
      · cases hend
    have hsplit := (quotedFrom_some false hquoted).1
    rw [hrest] at hsplit
    exact (List.append_cancel_right hsplit).symm
  · rintro ⟨hseven, hself⟩
    have hquote := @quotedArgs_quote _ Bytes.crlf 0
      fun c hc => (isText_iff (hfolder c hc)).mpr (hseven c hc)
    rw [hself, List.append_assoc] at hquote
    rw [hquote]
    rfl

/-- **The arguments are faithful exactly if all of them are 7-bit**, and the folder has no quotes
and no backslashes. -/
theorem argumentsFaithful_iff (fresh fresh' : Nat → UInt8) (tag tag' remotename password : Bytes)
    (checkOnly : Bool) (folder : Option Bytes) (hname : ∀ c ∈ remotename, InLine c)
    (hpassword : ∀ c ∈ password, InLine c) (hfolder : ∀ c ∈ mailbox folder, InLine c)
    (hlogin : (tag ++ Bytes.space ::
      loginCommand (imapCanonicalize remotename) (imapCanonicalize password)).length ≤
        Transact.commandLen)
    (hselect : (tag' ++ Bytes.space :: selectCommand checkOnly folder).length ≤
      Transact.commandLen) :
    ArgumentsFaithful fresh fresh' tag tag' remotename password checkOnly folder ↔
      ((∀ c ∈ remotename, c < 128) ∧ ∀ c ∈ password, c < 128) ∧
        ∀ b ∈ mailbox folder, b < 128 ∧ b ≠ 92 ∧ b ≠ 34 :=
  and_congr (sentLogin_read_iff hname hpassword hlogin) (sentSelect_read_iff hfolder hselect)

/-- A user name and a password with quotes and backslashes in them, and a folder in a folder. -/
theorem argumentsFaithful_iff_inbox :
    ArgumentsFaithful (fun _ => 7) (fun _ => 7) (Bytes.lit "A0001") (Bytes.lit "A0002")
        (Bytes.lit "a\"b") (Bytes.lit "\\") false (some (Bytes.lit "INBOX/lists")) ↔
      ((∀ c ∈ Bytes.lit "a\"b", c < 128) ∧ ∀ c ∈ Bytes.lit "\\", c < 128) ∧
        ∀ b ∈ mailbox (some (Bytes.lit "INBOX/lists")), b < 128 ∧ b ≠ 92 ∧ b ≠ 34 :=
  argumentsFaithful_iff (fun _ => 7) (fun _ => 7) (Bytes.lit "A0001") (Bytes.lit "A0002")
    (Bytes.lit "a\"b") (Bytes.lit "\\") false (some (Bytes.lit "INBOX/lists")) (by decide)
    (by decide) (by decide) (by decide) (by decide)

/-- The folder `a\b`: the backslash is sent alone, and quotes nothing. -/
theorem argumentsFaithful_backslash_lost :
    ¬ArgumentsFaithful (fun _ => 7) (fun _ => 7) (Bytes.lit "A0001") (Bytes.lit "A0002")
      (Bytes.lit "user") (Bytes.lit "secret") false (some (Bytes.lit "a\\b")) := by
  rintro ⟨-, hread⟩
  revert hread
  decide +kernel

end Fetchmail.Imap
