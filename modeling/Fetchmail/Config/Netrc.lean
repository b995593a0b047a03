import Fetchmail.Lib.Buffer
import Mathlib.Data.List.Induction

/-!
# The `.netrc` File

`parse_netrc` and `search_netrc` of `netrc.c`. A token is put together in the line itself, behind
the place where the line is read, so that what is still to be read is not changed; here it is a
string of its own. The warnings that are printed are left out.
-/

namespace Fetchmail.Config.Netrc

open Fetchmail.Lib

/-! ## The parser -/

/-- `last_token` -/
inductive Token where
  | nothing
  | account
  | login
  | macdef
  | machine
  | password
  deriving DecidableEq, Repr

/-- `netrc_entry` -/
structure Entry where
  host : Option Bytes := none
  login : Option Bytes := none
  password : Option Bytes := none
  deriving DecidableEq, Repr

/-- `last_token`, `current` and `retval` -/
structure State where
  lastToken : Token := .nothing
  current : Option Entry := none
  retval : List Entry := []
  deriving DecidableEq, Repr

/-- `maybe_add_to_list` -/
def maybeAddToList (s : State) : State :=
  match s.current with
  | none => { s with current := some {} }
  | some a =>
    if a.login = none then { s with current := some {} }
    else { s with current := some {}, retval := a :: s.retval }

/-- What a value is for, without a warning if it has come before any host. -/
def takeValue (tok : Bytes) (s : State) : State :=
  match s.lastToken with
  | .login => { s with current := s.current.map fun a => { a with login := some tok } }
  | .machine =>
    let s := maybeAddToList s
    { s with current := s.current.map fun a => { a with host := some tok } }
  | .password => { s with current := s.current.map fun a => { a with password := some tok } }
  | .macdef => s
  | .account => s
  | .nothing => s

/-- A token where no value is expected. -/
def takeKeyword (tok : Bytes) (s : State) : State :=
  if tok = Bytes.lit "default" then maybeAddToList s
  else if tok = Bytes.lit "login" then { s with lastToken := .login }
  else if tok = Bytes.lit "user" then { s with lastToken := .login }
  else if tok = Bytes.lit "macdef" then { s with lastToken := .macdef }
  else if tok = Bytes.lit "machine" then { s with lastToken := .machine }
  else if tok = Bytes.lit "password" then { s with lastToken := .password }
  else if tok = Bytes.lit "passwd" then { s with lastToken := .password }
  else if tok = Bytes.lit "account" then { s with lastToken := .account }
  else s

/-- What is done with a token. -/
def step (s : State) (tok : Bytes) : State :=
  if s.lastToken ≠ .nothing then { takeValue tok s with lastToken := .nothing }
  else takeKeyword tok s

/-- The loop that finds the end of a token: the token, and the line behind the character that ends
it. -/
def lexToken : (quoteChar : Option UInt8) → (p : Bytes) → Bytes × Bytes
  | _, [] => ([], [])
  | some q, c :: p =>
    if q = c then lexToken none p
    else (c :: (lexToken (some q) p).1, (lexToken (some q) p).2)
  | none, c :: p =>
    if Bytes.isspace c then ([], p)
    else if c = 34 ∨ c = 39 then lexToken (some c) p
    else (c :: (lexToken none p).1, (lexToken none p).2)

/-- The loop over a line. -/
def parseLine : (fuel : Nat) → State → (p : Bytes) → Option State
  | 0, s, p => if p = [] ∨ s.lastToken = .macdef then some s else none
  | fuel + 1, s, p =>
    if p = [] ∨ s.lastToken = .macdef then some s
    else
      let p := p.dropWhile Bytes.isspace
      if p.head? = some 35 then some s
      else parseLine fuel (step s (lexToken none p).1) (lexToken none p).2

/-- The line without the blanks at its end. -/
def stripEnd (buf : Bytes) : Bytes := (buf.reverse.dropWhile Bytes.isspace).reverse

/-- The body of the loop over the file. -/
def readLine (s : State) (buf : Bytes) : Option State :=
  let p := stripEnd (Bytes.cstr buf)
  if p = [] then
    if s.lastToken = .macdef then some { s with lastToken := .nothing } else some s
  else parseLine p.length s p

/-- `POPBUFSIZE` -/
def popbufsize : Nat := 512

/-- The loop over the file. `fgets` has room for one byte less than it is told. -/
def readLines : (fuel : Nat) → State → (fp : Bytes) → Option State
  | 0, _, _ => none
  | fuel + 1, s, fp =>
    if fp = [] then some s
    else
      (readLine s (Buffer.fgets (popbufsize - 1) fp).1).bind fun s =>
        readLines fuel s (Buffer.fgets (popbufsize - 1) fp).2

/-- `parse_netrc`; `none` for a file that cannot be opened. -/
def parseNetrc : (file : Option Bytes) → Option (List Entry)
  | none => some []
  | some fp => (readLines (fp.length + 1) {} fp).map fun s => (maybeAddToList s).retval.reverse

/-- `search_netrc` -/
def searchNetrc : (list : List Entry) → (host login : Bytes) → Option Entry
  | [], _, _ => none
  | a :: list, host, login =>
    if a.host = some host ∧ (a.login = none ∨ a.login = some login) then some a
    else searchNetrc list host login

/-! ## Files -/

/-- What is written for a host. -/
structure Account where
  host : Bytes
  login : Bytes
  password : Bytes
  deriving DecidableEq, Repr

namespace Account

/-- `machine H login L password P` -/
def words (a : Account) : List Bytes :=
  [Bytes.lit "machine", a.host, Bytes.lit "login", a.login, Bytes.lit "password", a.password]

def entry (a : Account) : Entry := ⟨some a.host, some a.login, some a.password⟩

end Account

/-- A word with the blanks before it, and the quotation mark around it if there is one. -/
structure Spelled where
  blanks : Bytes
  word : Bytes
  quote : Option UInt8
  deriving DecidableEq, Repr

namespace Spelled

/-- The word as it is written. -/
def body (w : Spelled) : Bytes :=
  match w.quote with
  | none => w.word
  | some q => q :: (w.word ++ [q])

def text (w : Spelled) : Bytes := w.blanks ++ w.body

/-- No quotation marks in the word; blanks and `#` only between quotation marks. -/
structure Valid (w : Spelled) : Prop where
  blanks : ∀ c ∈ w.blanks, Bytes.isspace c = true
  plain : ∀ c ∈ w.word, c ≠ 34 ∧ c ≠ 39
  quote : w.quote = some 34 ∨ w.quote = some 39 ∨
    w.quote = none ∧ w.word ≠ [] ∧ ∀ c ∈ w.word, Bytes.isspace c = false ∧ c ≠ 35

end Spelled

/-- Words in a row. -/
def spell (ws : List Spelled) : Bytes := ws.flatMap Spelled.text

/-- Words of a line, with blanks between them. -/
structure IsWords (ws : List Spelled) : Prop where
  valid : ∀ w ∈ ws, w.Valid
  apart : ∀ w ∈ ws.tail, w.blanks ≠ []

/-- The end of a line with words: blanks, or a comment. -/
inductive IsTail (ws : List Spelled) : Bytes → Prop
  | blank {tail : Bytes} (h : ∀ c ∈ tail, Bytes.isspace c = true) : IsTail ws tail
  | comment {b : Bytes} (text : Bytes) (h : ∀ c ∈ b, Bytes.isspace c = true)
      (hb : b ≠ [] ∨ ws = []) : IsTail ws (b ++ 35 :: text)

/-- A line of nothing but blanks. -/
def IsBlank (line : Bytes) : Prop := ∀ c ∈ line, Bytes.isspace c = true

/-- Lines that words are split over: words with a comment behind them, or a macro definition between
two entries. The line of the macro may begin with words, and a blank line ends the macro. -/
inductive Layout : List Bytes → List Bytes → Prop
  | nil : Layout [] []
  | line {ws : List Spelled} {tail : Bytes} {rest lines : List Bytes} (hws : IsWords ws)
      (htail : IsTail ws tail) (h : Layout rest lines) :
      Layout (ws.map Spelled.word ++ rest) ((spell ws ++ tail) :: lines)
  | macdef {ws : List Spelled} {m : Spelled} {name blank : Bytes} {body lines : List Bytes}
      {accounts : List Account} (hws : IsWords (ws ++ [m])) (hm : m.word = Bytes.lit "macdef")
      (hname : ∀ c ∈ name.head?, Bytes.isspace c = true) (hbody : ∀ line ∈ body, ¬IsBlank line)
      (hblank : IsBlank blank) (h : Layout (accounts.flatMap Account.words) lines) :
      Layout (ws.map Spelled.word ++ accounts.flatMap Account.words)
        ((spell (ws ++ [m]) ++ name) :: (body ++ blank :: lines))

/-- A line that `fgets` reads at once. -/
def IsLine (line : Bytes) : Prop :=
  Bytes.lf ∉ line ∧ Bytes.nul ∉ line ∧ line.length < popbufsize - 1

/-- The file with these lines. -/
def fileOf (lines : List Bytes) : Bytes := lines.flatMap (· ++ [Bytes.lf])

/-! ## Lines -/

variable {s : State} {w : Spelled} {ws : List Spelled} {p tail rest : Bytes}

theorem dropWhile_blanks (hb : ∀ c ∈ p, Bytes.isspace c = true) (rest : Bytes) :
    (p ++ rest).dropWhile Bytes.isspace = rest.dropWhile Bytes.isspace :=
  List.dropWhile_append_of_pos hb

/-- Blanks at the end are stripped, and nothing in front of another character. -/
theorem stripEnd_blank (hb : ∀ c ∈ tail, Bytes.isspace c = true) (p : Bytes) :
    stripEnd (p ++ tail) = stripEnd p := by
  rw [stripEnd, List.reverse_append,
    dropWhile_blanks (fun c hc => hb c (List.mem_reverse.mp hc)), stripEnd]

theorem stripEnd_eq {c : UInt8} (hc : Bytes.isspace c = false) (p : Bytes) :
    ∀ tail, ∃ tail', tail' <+: tail ∧ stripEnd (p ++ c :: tail) = p ++ c :: tail' := by
  intro tail
  induction tail using List.reverseRecOn with
  | nil => exact ⟨[], List.prefix_refl _, by simp [stripEnd, hc]⟩
  | append_singleton tail d ih =>
    by_cases hd : Bytes.isspace d = true
    · obtain ⟨tail', hsub, heq⟩ := ih
      refine ⟨tail', hsub.trans (List.prefix_append _ _), ?_⟩
      rw [← List.cons_append, ← List.append_assoc, stripEnd_blank (by simpa using hd), heq]
    · exact ⟨tail ++ [d], List.prefix_refl _, by simp [stripEnd, hd]⟩

theorem stripEnd_isBlank (h : IsBlank p) : stripEnd p = [] := by
  have hstrip := stripEnd_blank h []
  rw [List.nil_append] at hstrip
  rw [hstrip]
  rfl

theorem stripEnd_ne_nil (h : ¬IsBlank p) : stripEnd p ≠ [] := by
  intro hnil
  apply h
  intro c hc
  have hall := List.dropWhile_eq_nil_iff.mp (List.reverse_eq_nil_iff.mp hnil)
  exact hall c (List.mem_reverse.mpr hc)

/-! ## Tokens -/

/-- What follows a token: the end of the line, or a blank. -/
def Ends (tail : Bytes) : Prop := ∀ c ∈ tail.head?, Bytes.isspace c = true

theorem lexToken_plain (hw : ∀ c ∈ p, Bytes.isspace c = false ∧ c ≠ 34 ∧ c ≠ 39)
    (htail : Ends tail) : lexToken none (p ++ tail) = (p, tail.tail) := by
  induction p with
  | nil =>
    cases tail with
    | nil => rfl
    | cons c tail => rw [List.nil_append, lexToken, if_pos (htail c rfl)]; rfl
  | cons c p ih =>
    obtain ⟨hc, hdouble, hsingle⟩ := hw c List.mem_cons_self
    rw [List.cons_append, lexToken, hc, if_neg (by decide), if_neg (by simp [hdouble, hsingle]),
      ih fun d hd => hw d (List.mem_cons_of_mem c hd)]

theorem lexToken_quoted {q : UInt8} (hw : ∀ c ∈ p, c ≠ q) (htail : Ends tail) :
    lexToken (some q) (p ++ q :: tail) = (p, tail.tail) := by
  induction p with
  | nil =>
    rw [List.nil_append, lexToken, if_pos rfl]
    exact lexToken_plain (p := []) (fun c hc => absurd hc List.not_mem_nil) htail
  | cons c p ih =>
    rw [List.cons_append, lexToken, if_neg (Ne.symm (hw c List.mem_cons_self)),
      ih fun d hd => hw d (List.mem_cons_of_mem c hd)]

/-- A word is read as it was meant, whether it is quoted or not. -/
theorem lexToken_body (hw : w.Valid) (htail : Ends tail) :
    lexToken none (w.body ++ tail) = (w.word, tail.tail) := by
  have hquoted : ∀ q : UInt8, q = 34 ∨ q = 39 → w.quote = some q →
      lexToken none (w.body ++ tail) = (w.word, tail.tail) := by
    intro q hq heq
    have hblank : Bytes.isspace q = false := by rcases hq with rfl | rfl <;> rfl
    have hne : ∀ c ∈ w.word, c ≠ q := by
      intro c hc
      rcases hq with rfl | rfl
      · exact (hw.plain c hc).1
      · exact (hw.plain c hc).2
    rw [Spelled.body, heq]
    show lexToken none (q :: (w.word ++ [q]) ++ tail) = _
    rw [List.cons_append, List.append_assoc, lexToken, hblank, if_neg (by decide), if_pos hq]
    exact lexToken_quoted hne htail
  rcases hw.quote with heq | heq | ⟨heq, -, hplain⟩
  · exact hquoted 34 (.inl rfl) heq
  · exact hquoted 39 (.inr rfl) heq
  · rw [Spelled.body, heq]
    exact lexToken_plain (fun c hc => ⟨(hplain c hc).1, hw.plain c hc⟩) htail

/-- A word begins with something else than a blank and `#`, and ends so. -/
theorem body_spec (hw : w.Valid) : ∃ c t, w.body = c :: t ∧ Bytes.isspace c = false ∧ c ≠ 35 ∧
    ∃ t' d, w.body = t' ++ [d] ∧ Bytes.isspace d = false := by
  rcases hw.quote with heq | heq | ⟨heq, hne, hplain⟩
  · exact ⟨34, w.word ++ [34], by rw [Spelled.body, heq], rfl, by decide, 34 :: w.word, 34,
      by rw [Spelled.body, heq]; rfl, rfl⟩
  · exact ⟨39, w.word ++ [39], by rw [Spelled.body, heq], rfl, by decide, 39 :: w.word, 39,
      by rw [Spelled.body, heq]; rfl, rfl⟩
  · rw [Spelled.body, heq]
    obtain ⟨c, t, hct⟩ := List.exists_cons_of_ne_nil hne
    have hlast := List.dropLast_append_getLast hne
    refine ⟨c, t, hct, ?_, ?_, w.word.dropLast, w.word.getLast hne, hlast.symm, ?_⟩
    · exact (hplain c (hct ▸ List.mem_cons_self)).1
    · exact (hplain c (hct ▸ List.mem_cons_self)).2
    · exact (hplain _ (List.getLast_mem hne)).1

/-! ## Lines of words -/

/-- No value is taken for a macro while these tokens are read. -/
def Calm : State → List Bytes → Prop
  | _, [] => True
  | s, tok :: toks => s.lastToken ≠ .macdef ∧ Calm (step s tok) toks

theorem Calm.append {a b : List Bytes} :
    Calm s (a ++ b) ↔ Calm s a ∧ Calm (a.foldl step s) b := by
  induction a generalizing s with
  | nil => simp [Calm]
  | cons tok a ih => simp [Calm, ih, and_assoc]

/-- The loop over a line takes one word after the other. -/
theorem parseLine_spell (hws : IsWords (w :: ws)) (htail : Ends tail)
    (hcalm : Calm s ((w :: ws).map Spelled.word)) (fuel : Nat)
    (hfuel : (spell (w :: ws) ++ tail).length ≤ fuel) :
    ∃ fuel', tail.tail.length ≤ fuel' ∧ parseLine fuel s (spell (w :: ws) ++ tail) =
      parseLine fuel' (((w :: ws).map Spelled.word).foldl step s) tail.tail := by
  -- the step for one word, whatever follows
  have hstep : ∀ {s : State} {w : Spelled} {ws : List Spelled} (fuel : Nat), IsWords (w :: ws) →
      Calm s ((w :: ws).map Spelled.word) → (spell (w :: ws) ++ tail).length ≤ fuel →
      ∃ fuel', (spell ws ++ tail).tail.length ≤ fuel' ∧ parseLine fuel s (spell (w :: ws) ++ tail) =
        parseLine fuel' (step s w.word) (spell ws ++ tail).tail := by
    intro s w ws fuel hws hcalm hfuel
    have hw := hws.valid w List.mem_cons_self
    obtain ⟨hmacdef, hcalm⟩ := hcalm
    obtain ⟨c, t, hbody, hblank, hhash, -⟩ := body_spec hw
    -- what follows the word
    have hends : Ends (spell ws ++ tail) := by
      cases ws with
      | nil => exact htail
      | cons w' ws =>
        have hb := hws.apart w' List.mem_cons_self
        obtain ⟨b, bs, hbs⟩ := List.exists_cons_of_ne_nil hb
        intro d hd
        have hw' := hws.valid w' (List.mem_cons_of_mem w List.mem_cons_self)
        simp only [spell, List.flatMap_cons, Spelled.text, hbs, List.cons_append, List.head?_cons,
          Option.mem_some] at hd
        exact hd ▸ hw'.blanks b (hbs ▸ List.mem_cons_self)
    have htext : spell (w :: ws) ++ tail = w.blanks ++ (w.body ++ (spell ws ++ tail)) := by
      simp [spell, Spelled.text]
    rw [htext] at hfuel ⊢
    have hdrop : (w.blanks ++ (w.body ++ (spell ws ++ tail))).dropWhile Bytes.isspace =
        w.body ++ (spell ws ++ tail) := by
      rw [dropWhile_blanks hw.blanks, hbody, List.cons_append,
        List.dropWhile_cons_of_neg (by rw [hblank]; decide)]
    have hhead : (w.body ++ (spell ws ++ tail)).head? ≠ some 35 := by
      rw [hbody, List.cons_append, List.head?_cons]
      exact fun heq => hhash (Option.some.inj heq)
    have hlong : 1 + (spell ws ++ tail).length ≤ fuel := by
      rw [hbody] at hfuel
      simp only [List.length_append, List.length_cons] at hfuel ⊢
      omega
    obtain ⟨fuel, rfl⟩ : ∃ f, fuel = f + 1 := ⟨fuel - 1, by omega⟩
    have hround : parseLine (fuel + 1) s (w.blanks ++ (w.body ++ (spell ws ++ tail))) =
        parseLine fuel (step s w.word) (spell ws ++ tail).tail := by
      have hgo : ¬(w.blanks ++ (w.body ++ (spell ws ++ tail)) = [] ∨ s.lastToken = .macdef) := by
        rw [hbody]
        simp [hmacdef]
      rw [parseLine, if_neg hgo, hdrop]
      dsimp only
      rw [if_neg hhead, lexToken_body hw hends]
    refine ⟨fuel, ?_, hround⟩
    rw [List.length_tail]
    omega
  induction ws generalizing s w fuel with
  | nil => exact hstep fuel hws hcalm hfuel
  | cons w' ws ih =>
    obtain ⟨fuel', hlength, hround⟩ := hstep fuel hws hcalm hfuel
    -- the blank behind the word has been read with it
    obtain ⟨b, bs, hbs⟩ := List.exists_cons_of_ne_nil (hws.apart w' List.mem_cons_self)
    have hw' := hws.valid w' (List.mem_cons_of_mem w List.mem_cons_self)
    have hrest : (spell (w' :: ws) ++ tail).tail =
        spell ({ w' with blanks := bs } :: ws) ++ tail := by
      simp [spell, Spelled.text, hbs, Spelled.body]
    have hvalid : IsWords ({ w' with blanks := bs } :: ws) := by
      refine ⟨fun v hv => ?_, fun v hv => hws.apart v (List.mem_cons_of_mem w' hv)⟩
      rcases List.mem_cons.mp hv with rfl | hv
      · exact ⟨fun c hc => hw'.blanks c (hbs ▸ List.mem_cons_of_mem b hc), hw'.plain, hw'.quote⟩
      · exact hws.valid v (List.mem_cons_of_mem w (List.mem_cons_of_mem w' hv))
    rw [hrest] at hlength hround
    obtain ⟨fuel₂, hlength₂, hrounds⟩ := ih hvalid hcalm.2 fuel' hlength
    exact ⟨fuel₂, hlength₂, hround.trans hrounds⟩

/-- The line feed is stripped too. -/
theorem stripEnd_line (hnul : Bytes.nul ∉ p) :
    stripEnd (Bytes.cstr (p ++ [Bytes.lf])) = stripEnd p := by
  rw [Buffer.cstr_append hnul, show Bytes.cstr [Bytes.lf] = [Bytes.lf] by decide]
  exact stripEnd_blank (by decide) p

theorem parseLine_comment {b : Bytes} (hb : ∀ c ∈ b, Bytes.isspace c = true) (text : Bytes)
    (fuel : Nat) (hfuel : (b ++ 35 :: text).length ≤ fuel) :
    parseLine fuel s (b ++ 35 :: text) = some s := by
  obtain ⟨fuel, rfl⟩ : ∃ f, fuel = f + 1 := ⟨fuel - 1, by simp at hfuel; omega⟩
  rw [parseLine]
  split
  · rfl
  · rw [dropWhile_blanks hb, List.dropWhile_cons_of_neg (by decide)]
    exact if_pos rfl

theorem parseLine_done (h : p = [] ∨ s.lastToken = .macdef) (fuel : Nat) :
    parseLine fuel s p = some s := by
  cases fuel <;> exact if_pos h

/-- Words in a row end with something else than a blank. -/
theorem spell_concat (hw : w.Valid) (ws : List Spelled) :
    ∃ t d, spell (ws ++ [w]) = t ++ [d] ∧ Bytes.isspace d = false := by
  obtain ⟨-, -, -, -, -, t, d, hbody, hd⟩ := body_spec hw
  refine ⟨spell ws ++ w.blanks ++ t, d, ?_, hd⟩
  simp [spell, Spelled.text, hbody]

/-- Stripping leaves the words of a line. -/
theorem stripEnd_spell (hws : IsWords ws) (hne : ws ≠ []) (tail : Bytes) :
    ∃ tail', tail' <+: tail ∧ stripEnd (spell ws ++ tail) = spell ws ++ tail' := by
  obtain ⟨init, w, rfl⟩ := (List.eq_nil_or_concat ws).resolve_left hne
  rw [List.concat_eq_append] at hws ⊢
  obtain ⟨t, d, heq, hd⟩ := spell_concat
    (hws.valid w (List.mem_append_right _ (List.mem_singleton_self w))) init
  obtain ⟨tail', hsub, hstrip⟩ := stripEnd_eq hd t tail
  refine ⟨tail', hsub, ?_⟩
  rw [heq, List.append_assoc, List.append_assoc]
  exact hstrip

/-- A line of words is read one word after the other. -/
theorem readLine_words (hws : IsWords ws) (htail : IsTail ws tail)
    (hnul : Bytes.nul ∉ spell ws ++ tail) (hcalm : Calm s (ws.map Spelled.word))
    (hmacdef : ws = [] → s.lastToken ≠ .macdef) :
    readLine s (spell ws ++ tail ++ [Bytes.lf]) = some ((ws.map Spelled.word).foldl step s) := by
  -- what is left of a line without its end is what is parsed
  have hdone : ∀ {p : Bytes} {s' : State}, stripEnd (spell ws ++ tail) = p → p ≠ [] →
      parseLine p.length s p = some s' →
      readLine s (spell ws ++ tail ++ [Bytes.lf]) = some s' := by
    intro p s' hp hne hparse
    rw [readLine, stripEnd_line hnul, hp]
    rw [if_neg hne, hparse]
  cases ws with
  | nil =>
    cases htail with
    | blank hblank =>
      rw [readLine, stripEnd_line hnul, stripEnd_isBlank (by simpa [spell, IsBlank] using hblank)]
      rw [if_pos rfl, if_neg (hmacdef rfl)]
      rfl
    | @comment b text hblanks _ =>
      obtain ⟨text', -, hstrip⟩ := stripEnd_eq (c := 35) (by decide) b text
      exact hdone hstrip (by simp) (parseLine_comment hblanks text' _ (Nat.le_refl _))
  | cons w ws =>
    have hspell : spell (w :: ws) ≠ [] := by
      obtain ⟨c, t, hbody, -⟩ := body_spec (hws.valid w List.mem_cons_self)
      simp [spell, Spelled.text, hbody]
    cases htail with
    | blank hblank =>
      obtain ⟨tail', hsub, hstrip⟩ := stripEnd_spell hws (List.cons_ne_nil w ws) []
      rw [List.prefix_nil.mp hsub] at hstrip
      obtain ⟨fuel, -, hparse⟩ := @parseLine_spell _ _ _ [] hws (fun c hc => by cases hc) hcalm _
        (Nat.le_refl _)
      refine hdone ((stripEnd_blank hblank _).trans ?_) (by simpa using hspell) (hparse.trans ?_)
      · rw [List.append_nil] at hstrip ⊢
        exact hstrip
      · exact parseLine_done (.inl rfl) fuel
    -- a comment behind a word needs a blank before it, or it is part of the word
    | @comment b text hblanks hb =>
      have hb : b ≠ [] := hb.resolve_right (List.cons_ne_nil w ws)
      obtain ⟨text', -, hstrip⟩ := stripEnd_eq (c := 35) (by decide) (spell (w :: ws) ++ b) text
      obtain ⟨d, b, rfl⟩ := List.exists_cons_of_ne_nil hb
      have hends : Ends (d :: b ++ 35 :: text') := by
        intro e he
        simp only [List.cons_append, List.head?_cons, Option.mem_some] at he
        exact he ▸ hblanks d List.mem_cons_self
      obtain ⟨fuel, hfuel, hparse⟩ := parseLine_spell hws hends hcalm _ (Nat.le_refl _)
      rw [List.append_assoc, List.append_assoc] at hstrip
      exact hdone hstrip (by simp) (hparse.trans (parseLine_comment
        (fun e he => hblanks e (List.mem_cons_of_mem d he)) text' fuel hfuel))

/-- The first line of a macro definition. -/
theorem readLine_macdef (hws : IsWords ws) (hne : ws ≠ []) (hends : Ends tail)
    (hnul : Bytes.nul ∉ spell ws ++ tail) (hcalm : Calm s (ws.map Spelled.word))
    (hlast : ((ws.map Spelled.word).foldl step s).lastToken = .macdef) :
    readLine s (spell ws ++ tail ++ [Bytes.lf]) = some ((ws.map Spelled.word).foldl step s) := by
  obtain ⟨tail', ⟨more, rfl⟩, hstrip⟩ := stripEnd_spell hws hne tail
  have hends' : Ends tail' := by
    intro c hc
    cases tail' with
    | nil => cases hc
    | cons d tail' => exact hends c hc
  obtain ⟨w, ws, rfl⟩ := List.exists_cons_of_ne_nil hne
  obtain ⟨fuel, -, hparse⟩ := parseLine_spell hws hends' hcalm _ (Nat.le_refl _)
  have hspell : spell (w :: ws) ++ tail' ≠ [] := by
    obtain ⟨c, t, hbody, -⟩ := body_spec (hws.valid w List.mem_cons_self)
    simp [spell, Spelled.text, hbody]
  rw [readLine, stripEnd_line hnul, hstrip]
  rw [if_neg hspell, hparse]
  exact parseLine_done (.inr hlast) fuel

/-! ## Files with a layout -/

/-- The tokens that follow are keywords with their values. -/
inductive Follows : Token → List Bytes → Prop
  | nil : Follows .nothing []
  | keyword {tok : Bytes} {t : Token} {toks : List Bytes}
      (htok : (tok, t) ∈ [(Bytes.lit "machine", Token.machine), (Bytes.lit "login", Token.login),
        (Bytes.lit "password", Token.password)]) (h : Follows t toks) : Follows .nothing (tok :: toks)
  | value {tok : Bytes} {t : Token} {toks : List Bytes} (ht : t ∈ [Token.machine, .login, .password])
      (h : Follows .nothing toks) : Follows t (tok :: toks)

variable {t : Token} {toks a : List Bytes} {tok : Bytes}

theorem Follows.ne_macdef (h : Follows t toks) : t ≠ .macdef := by
  cases h with
  | nil => decide
  | keyword => decide
  | value ht =>
    rintro rfl
    exact absurd ht (by decide)

/-- A value is expected if the number of tokens is odd. -/
theorem Follows.even_iff (h : Follows t toks) : t = .nothing ↔ toks.length % 2 = 0 := by
  induction h with
  | nil => decide
  | @keyword tok t toks htok h ih =>
    have hne : t ≠ .nothing := by
      rintro rfl
      revert htok
      simp
    have hodd := mt ih.mpr hne
    rw [List.length_cons]
    simp only [true_iff]
    omega
  | @value tok t toks ht h ih =>
    have heven := ih.mp rfl
    rw [List.length_cons]
    constructor
    · rintro rfl
      exact absurd ht (by decide)
    · intro hlen
      omega

theorem Follows.step (h : Follows s.lastToken (tok :: toks)) :
    Follows (step s tok).lastToken toks := by
  generalize ht : s.lastToken = t at h
  cases h with
  | keyword htok h =>
    simp only [List.mem_cons, Prod.mk.injEq, List.not_mem_nil, or_false] at htok
    rw [Netrc.step, ht, if_neg (by decide), takeKeyword]
    rcases htok with ⟨rfl, rfl⟩ | ⟨rfl, rfl⟩ | ⟨rfl, rfl⟩ <;> exact h
  | value hvalue h =>
    have hne : s.lastToken ≠ .nothing := by
      rw [ht]
      rintro rfl
      exact absurd hvalue (by decide)
    rw [Netrc.step, if_pos hne]
    exact h

/-- The tokens may be taken, and what is left still follows. -/
theorem Follows.run (h : Follows s.lastToken (a ++ toks)) :
    Calm s a ∧ Follows (a.foldl Netrc.step s).lastToken toks := by
  induction a generalizing s with
  | nil => exact ⟨trivial, h⟩
  | cons tok a ih =>
    obtain ⟨hcalm, hfollows⟩ := ih h.step
    exact ⟨⟨h.ne_macdef, hcalm⟩, hfollows⟩

theorem follows_accounts (accounts : List Account) :
    Follows .nothing (accounts.flatMap Account.words) := by
  induction accounts with
  | nil => exact .nil
  | cons a accounts ih =>
    exact .keyword (t := .machine) (by simp) (.value (by simp) (.keyword (t := .login) (by simp)
      (.value (by simp) (.keyword (t := .password) (by simp) (.value (by simp) ih)))))

/-- A macro ends at the first blank line, and leaves everything as it was. -/
theorem readLine_body (hs : s.lastToken = .macdef) {line : Bytes} (hline : ¬IsBlank line)
    (hnul : Bytes.nul ∉ line) : readLine s (line ++ [Bytes.lf]) = some s := by
  rw [readLine, stripEnd_line hnul]
  rw [if_neg (stripEnd_ne_nil hline)]
  exact parseLine_done (.inr hs) _

theorem foldlM_body {body : List Bytes} (hs : s.lastToken = .macdef)
    (hbody : ∀ line ∈ body, ¬IsBlank line) (hnul : ∀ line ∈ body, Bytes.nul ∉ line) :
    body.foldlM (fun s line => readLine s (line ++ [Bytes.lf])) s = some s := by
  induction body with
  | nil => rfl
  | cons line body ih =>
    rw [List.foldlM_cons, readLine_body hs (hbody line List.mem_cons_self)
      (hnul line List.mem_cons_self)]
    exact ih (fun l hl => hbody l (List.mem_cons_of_mem line hl))
      fun l hl => hnul l (List.mem_cons_of_mem line hl)

/-- **The lines of a layout are read as their words.** -/
theorem Layout.foldlM {words lines : List Bytes} (h : Layout words lines)
    (hfollows : Follows s.lastToken words) (hnul : ∀ line ∈ lines, Bytes.nul ∉ line) :
    lines.foldlM (fun s line => readLine s (line ++ [Bytes.lf])) s =
      some (words.foldl Netrc.step s) := by
  induction h generalizing s with
  | nil => rfl
  | @line ws tail rest lines hws htail h ih =>
    obtain ⟨hcalm, hrest⟩ := hfollows.run
    have hnul' := hnul _ List.mem_cons_self
    rw [List.foldlM_cons, readLine_words hws htail hnul' hcalm fun _ => hfollows.ne_macdef,
      List.foldl_append]
    exact ih hrest fun l hl => hnul l (List.mem_cons_of_mem _ hl)
  | @macdef ws m name blank body lines accounts hws hm hname hbody hblank h ih =>
    obtain ⟨hcalm, hrest⟩ := hfollows.run
    generalize hs₁ : (ws.map Spelled.word).foldl Netrc.step s = s₁ at hrest
    -- before `macdef` whole entries have been read, so that no token waits for its value
    have hnothing : s₁.lastToken = .nothing := by
      rw [hrest.even_iff, ← (follows_accounts accounts).even_iff]
    have hmacdef : ((ws ++ [m]).map Spelled.word).foldl Netrc.step s =
        { s₁ with lastToken := .macdef } := by
      rw [List.map_append, List.foldl_append, hs₁, List.map_singleton, hm, List.foldl_cons,
        List.foldl_nil, Netrc.step, hnothing, if_neg (by decide)]
      rfl
    have hcalm' : Calm s ((ws ++ [m]).map Spelled.word) := by
      rw [List.map_append, Calm.append, hs₁]
      exact ⟨hcalm, by rw [hnothing]; decide, trivial⟩
    -- the line of `macdef` itself, whose name is not read
    have hfirst : readLine s (spell (ws ++ [m]) ++ name ++ [Bytes.lf]) =
        some { s₁ with lastToken := .macdef } := by
      rw [← hmacdef]
      exact readLine_macdef hws (by simp) hname (hnul _ List.mem_cons_self) hcalm'
        (by rw [hmacdef])
    -- the empty line ends the macro
    have hend : readLine { s₁ with lastToken := .macdef } (blank ++ [Bytes.lf]) = some s₁ := by
      rw [readLine, stripEnd_line (hnul _ (by simp)), stripEnd_isBlank hblank]
      dsimp only
      rw [if_pos rfl, if_pos rfl, ← hnothing]
    have hlines := ih (s := s₁) hrest fun l hl => hnul l (by simp [hl])
    rw [List.foldlM_cons, hfirst, List.foldl_append, hs₁]
    simp only [Option.bind_eq_bind, Option.bind_some]
    rw [List.foldlM_append, foldlM_body rfl hbody fun l hl => hnul l (by simp [hl])]
    simp only [Option.bind_eq_bind, Option.bind_some]
    rw [List.foldlM_cons, hend]
    exact hlines

/-- The file is read line by line. -/
theorem readLines_fileOf {lines : List Bytes} (h : ∀ line ∈ lines, IsLine line) (fuel : Nat)
    (hfuel : lines.length < fuel) : readLines fuel s (fileOf lines) =
      lines.foldlM (fun s line => readLine s (line ++ [Bytes.lf])) s := by
  induction lines generalizing s fuel with
  | nil =>
    obtain ⟨fuel, rfl⟩ : ∃ f, fuel = f + 1 := ⟨fuel - 1, by omega⟩
    rfl
  | cons line lines ih =>
    rw [List.length_cons] at hfuel
    obtain ⟨fuel, rfl⟩ : ∃ f, fuel = f + 1 := ⟨fuel - 1, by omega⟩
    obtain ⟨hlf, -, hlen⟩ := h line List.mem_cons_self
    have hfile : fileOf (line :: lines) = line ++ Bytes.lf :: fileOf lines := by simp [fileOf]
    rw [hfile, readLines, if_neg (by simp), Buffer.fgets_line hlf hlen, List.foldlM_cons]
    cases readLine s (line ++ [Bytes.lf]) with
    | none => rfl
    | some s' =>
      exact ih (fun l hl => h l (List.mem_cons_of_mem line hl)) fuel (by omega)

/-! ## Entries -/

/-- The list with the entry that is being read. -/
def entries (s : State) : List Entry := (maybeAddToList s).retval

/-- The words of an account add its entry. -/
theorem entries_account (hs : s.lastToken = .nothing) (a : Account) :
    (a.words.foldl Netrc.step s).lastToken = .nothing ∧
      entries (a.words.foldl Netrc.step s) = a.entry :: entries s := by
  obtain ⟨lastToken, current, retval⟩ := s
  subst hs
  rcases current with _ | ⟨host, login, password⟩
  · exact ⟨rfl, rfl⟩
  · cases login <;> exact ⟨rfl, rfl⟩

theorem entries_accounts (hs : s.lastToken = .nothing) (accounts : List Account) :
    entries ((accounts.flatMap Account.words).foldl Netrc.step s) =
      (accounts.map Account.entry).reverse ++ entries s := by
  induction accounts generalizing s with
  | nil => rfl
  | cons a accounts ih =>
    obtain ⟨hnothing, hentries⟩ := entries_account hs a
    rw [List.flatMap_cons, List.foldl_append, ih hnothing, hentries]
    simp

/-- The search looks at host and login of each entry. -/
theorem searchNetrc_entries (accounts : List Account) (host login : Bytes) :
    searchNetrc (accounts.map Account.entry) host login =
      (accounts.find? fun a => a.host = host ∧ a.login = login).map Account.entry := by
  induction accounts with
  | nil => rfl
  | cons a accounts ih =>
    rw [List.map_cons, searchNetrc, ih, List.find?_cons]
    by_cases h : a.host = host ∧ a.login = login
    · simp [Account.entry, h]
    · rw [if_neg (by simpa [Account.entry] using h)]
      simp [h]

theorem length_le_fileOf (lines : List Bytes) : lines.length ≤ (fileOf lines).length := by
  induction lines with
  | nil => exact Nat.le_refl _
  | cons line lines ih =>
    rw [fileOf, List.flatMap_cons, List.length_append, List.length_append, List.length_singleton,
      List.length_cons]
    rw [fileOf] at ih
    omega

/-- **Parsing inverts writing**, in every layout, and the search finds the first entry with the host
and the login. -/
theorem parseNetrc_layout (accounts : List Account) (lines : List Bytes)
    (h : Layout (accounts.flatMap Account.words) lines) (hlines : ∀ line ∈ lines, IsLine line) :
    parseNetrc (some (fileOf lines)) = some (accounts.map Account.entry) ∧
      ∀ host login, searchNetrc (accounts.map Account.entry) host login =
        (accounts.find? fun a => a.host = host ∧ a.login = login).map Account.entry := by
  refine ⟨?_, searchNetrc_entries accounts⟩
  have hlong := Nat.lt_succ_of_le (length_le_fileOf lines)
  have hread := h.foldlM (s := {}) (follows_accounts accounts) fun line hl => (hlines line hl).2.1
  rw [parseNetrc, readLines_fileOf hlines _ hlong, hread, Option.map_some]
  have hentries := entries_accounts (s := {}) rfl accounts
  rw [entries] at hentries
  rw [hentries]
  simp [entries, maybeAddToList]

/-- An entry over two lines with a comment, a macro, and an entry with a password in quotes. -/
theorem parseNetrc_layout_two :
    parseNetrc (some (fileOf [Bytes.lit "machine h login a # x", Bytes.lit " password p",
      Bytes.lit "macdef init", Bytes.lit "cd /tmp", [],
      Bytes.lit "machine h login b password \"q #\""])) =
        some ([⟨Bytes.lit "h", Bytes.lit "a", Bytes.lit "p"⟩,
          ⟨Bytes.lit "h", Bytes.lit "b", Bytes.lit "q #"⟩].map Account.entry) ∧
      ∀ host login, searchNetrc ([⟨Bytes.lit "h", Bytes.lit "a", Bytes.lit "p"⟩,
          ⟨Bytes.lit "h", Bytes.lit "b", Bytes.lit "q #"⟩].map Account.entry) host login =
        (([⟨Bytes.lit "h", Bytes.lit "a", Bytes.lit "p"⟩,
          ⟨Bytes.lit "h", Bytes.lit "b", Bytes.lit "q #"⟩] : List Account).find?
            fun a => a.host = host ∧ a.login = login).map Account.entry := by
  have hplain : ∀ word : Bytes, word ≠ [] →
      (∀ c ∈ word, (Bytes.isspace c = false ∧ c ≠ 35) ∧ c ≠ 34 ∧ c ≠ 39) →
      ∀ blanks : Bytes, (∀ c ∈ blanks, Bytes.isspace c = true) →
      (⟨blanks, word, none⟩ : Spelled).Valid := fun word hne hword blanks hblanks =>
    ⟨hblanks, fun c hc => (hword c hc).2, .inr (.inr ⟨rfl, hne, fun c hc => (hword c hc).1⟩)⟩
  refine parseNetrc_layout _ _ ?_ (by unfold IsLine popbufsize; decide)
  refine @Layout.line [⟨[], Bytes.lit "machine", none⟩, ⟨[32], Bytes.lit "h", none⟩,
    ⟨[32], Bytes.lit "login", none⟩, ⟨[32], Bytes.lit "a", none⟩] (Bytes.lit " # x")
    (Bytes.lit "password" :: Bytes.lit "p" ::
      [(⟨Bytes.lit "h", Bytes.lit "b", Bytes.lit "q #"⟩ : Account)].flatMap Account.words) _ ?_ ?_ ?_
  · refine ⟨?_, by decide⟩
    simp only [List.forall_mem_cons, List.not_mem_nil, false_imp_iff, implies_true, and_true]
    exact ⟨hplain _ (by decide) (by decide) _ (by decide),
      hplain _ (by decide) (by decide) _ (by decide), hplain _ (by decide) (by decide) _ (by decide),
      hplain _ (by decide) (by decide) _ (by decide)⟩
  -- the comment ends the first line, and the entry goes on in the next one
  · exact .comment (b := [32]) (Bytes.lit " x") (by decide) (.inl (by decide))
  refine @Layout.line [⟨[32], Bytes.lit "password", none⟩, ⟨[32], Bytes.lit "p", none⟩] []
    ([(⟨Bytes.lit "h", Bytes.lit "b", Bytes.lit "q #"⟩ : Account)].flatMap Account.words) _ ?_ ?_ ?_
  · refine ⟨?_, by decide⟩
    simp only [List.forall_mem_cons, List.not_mem_nil, false_imp_iff, implies_true, and_true]
    exact ⟨hplain _ (by decide) (by decide) _ (by decide),
      hplain _ (by decide) (by decide) _ (by decide)⟩
  · exact .blank (by decide)
  -- the macro goes up to the empty line
  refine @Layout.macdef [] ⟨[], Bytes.lit "macdef", none⟩ (Bytes.lit " init") []
    [Bytes.lit "cd /tmp"] _ [⟨Bytes.lit "h", Bytes.lit "b", Bytes.lit "q #"⟩] ?_ rfl
    (fun c hc => by cases hc; rfl) ?_ (fun c hc => by cases hc) ?_
  · refine ⟨?_, by decide⟩
    simp only [List.nil_append, List.forall_mem_cons, List.not_mem_nil, false_imp_iff, implies_true,
      and_true]
    exact hplain _ (by decide) (by decide) _ (by decide)
  · unfold IsBlank
    decide
  refine @Layout.line [⟨[], Bytes.lit "machine", none⟩, ⟨[32], Bytes.lit "h", none⟩,
    ⟨[32], Bytes.lit "login", none⟩, ⟨[32], Bytes.lit "b", none⟩,
    ⟨[32], Bytes.lit "password", none⟩, ⟨[32], Bytes.lit "q #", some 34⟩] [] [] [] ?_ ?_ .nil
  · refine ⟨?_, by decide⟩
    simp only [List.forall_mem_cons, List.not_mem_nil, false_imp_iff, implies_true, and_true]
    exact ⟨hplain _ (by decide) (by decide) _ (by decide),
      hplain _ (by decide) (by decide) _ (by decide), hplain _ (by decide) (by decide) _ (by decide),
      hplain _ (by decide) (by decide) _ (by decide), hplain _ (by decide) (by decide) _ (by decide),
      ⟨by decide, by decide, .inl rfl⟩⟩
  · exact .blank (by decide)

end Fetchmail.Config.Netrc
