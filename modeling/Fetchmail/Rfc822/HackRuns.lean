import Fetchmail.Rfc822.ReplyHackBounds

/-!
# Runs of `reply_hack`

What the loop of `reply_hack` does with one character after the other, in each of its states, and
from that what it does with blanks, quoted strings, comments, phrases and addresses, and with the
whole entry of an address list: it puts `@host` behind the address if there is no host part.
Behind a bracketed address with a host part the loop goes on as if it were still in the brackets.
-/

namespace Fetchmail.Rfc822

open Fetchmail.Lib

/-! ## Local addresses -/

/-- The address has a host part. -/
def hasHost (a : Bytes) : Bool := atSign ∈ a || bang ∈ a

/-- `@host` behind a local address. -/
def qualify (host a : Bytes) : Bytes := if a = [] ∨ hasHost a then a else a ++ atSign :: host

/-! ## Steps -/

section

variable {host : Bytes} {capacity : Nat} {b : UInt8} {s bf : Bytes} {st : HackState}
  {bare hp : Bool} {nws : UInt8} {pf : Option Nat} {n : Nat} {d : Int}

/-- Behind the host part, everything is passed over. -/
theorem hackStep_seen (hl : b ≠ lparen) (hr : b ≠ rparen) (hlast : bf.getLast? ≠ some comma) :
    hackStep host capacity b s ⟨bf, st, 0, bare, true, nws, pf, n⟩ =
      some ⟨bf ++ [b], st, 0, bare, true, nws, pf, n⟩ := by
  simp [hackStep, countParens, passComma, hl, hr, hlast]

/-- The character behind a comma is passed over, and then everything is reset. -/
theorem hackStep_reset (hl : b ≠ lparen) (hr : b ≠ rparen) (hlast : bf.getLast? = some comma)
    (hover : hp = true ∨ st = .inBrackets ∧ b ≠ rangle) :
    hackStep host capacity b s ⟨bf, st, 0, bare, hp, nws, pf, n⟩ =
      some ⟨bf ++ [b], st, 0, false, false, nws, none, n⟩ := by
  cases hp with
  | true => simp [hackStep, countParens, passComma, hl, hr, hlast]
  -- within brackets nothing is done but with a closing one
  | false =>
    obtain ⟨rfl, hangle⟩ := hover.resolve_left Bool.false_ne_true
    by_cases hseen : b = atSign ∨ b = bang
    · simp only [hackStep, countParens, hackSwitch, bracketsStep, passComma, hl, hr, hlast, hseen,
        if_true, if_false, reduceCtorEq, and_self, Option.map_some]
    · simp only [hackStep, countParens, hackSwitch, bracketsStep, passComma, hl, hr, hlast, hseen,
        hangle, if_true, if_false, reduceCtorEq, and_self, Option.map_some, false_and]

/-- A blank; the last one before a comment is remembered. -/
theorem hackStep_blank (hb : Bytes.isspace b = true) (hend : headerEnd (b :: s) = false)
    (hlast : bf.getLast? ≠ some comma) :
    hackStep host capacity b s ⟨bf, .seekAddress, 0, bare, false, nws, pf, n⟩ =
      some ⟨bf ++ [b], .seekAddress, 0, bare, false, nws,
        if Bytes.charAt s 0 = lparen ∧ bare = true ∧ nws ≠ semicolon ∧ nws ≠ rparen then
          some bf.length else pf, n⟩ := by
  obtain ⟨hcomma, hl, hlangle, hquote, -⟩ := isspace_ne hb
  have hr : b ≠ rparen := by
    rintro rfl
    revert hb
    decide
  have hat : b ≠ atSign ∧ b ≠ bang := by
    constructor <;> rintro rfl <;> revert hb <;> decide
  simp only [hackStep, countParens, hackSwitch, seekStep, seekCase, noteNws, hb, hend, hl, hr,
    hcomma, hlangle, hquote, hat.1, hat.2, if_true, if_false, reduceCtorEq, and_self, or_self,
    false_and, Bool.false_eq_true, not_false_eq_true, true_and]
  split
  · simp [passComma, hlast]
  · simp [passComma, hlast]

/-- The blank behind a comma. -/
theorem hackStep_blank_reset (hb : Bytes.isspace b = true) (hend : headerEnd (b :: s) = false)
    (hlast : bf.getLast? = some comma) :
    hackStep host capacity b s ⟨bf, .seekAddress, 0, bare, hp, nws, pf, n⟩ =
      some ⟨bf ++ [b], .seekAddress, 0, false, false, nws, none, n⟩ := by
  obtain ⟨hcomma, hl, hlangle, hquote, -⟩ := isspace_ne hb
  have hr : b ≠ rparen := by
    rintro rfl
    exact absurd hb (by decide)
  have hat : b ≠ atSign ∧ b ≠ bang := by
    constructor <;> rintro rfl <;> exact absurd hb (by decide)
  cases hp with
  | true => exact hackStep_reset hl hr hlast (.inl rfl)
  | false =>
    simp only [hackStep, countParens, hackSwitch, seekStep, seekCase, noteNws, hb, hend, hl, hr,
      hcomma, hlangle, hquote, hat.1, hat.2, if_true, if_false, reduceCtorEq, and_self, or_self,
      false_and, Bool.false_eq_true, not_false_eq_true, true_and]
    split <;> simp [passComma, hlast]

/-- A character of an address. -/
structure AddrChar (b : UInt8) : Prop where
  plain : PlainChar b
  rparen : b ≠ rparen
  semicolon : b ≠ semicolon

theorem addrChar {b : UInt8} (h : atomChar b = true ∨ b = Bytes.dot ∨ b = 64) : AddrChar b := by
  refine ⟨plainChar h, ?_, ?_⟩
  all_goals
    rintro rfl
    revert h
    decide

/-- A character of a word, where addresses are looked for. -/
structure WordChar (b : UInt8) : Prop where
  isspace : Bytes.isspace b = false
  lparen : b ≠ lparen
  rparen : b ≠ rparen
  langle : b ≠ langle
  dquote : b ≠ dquote
  comma : b ≠ comma
  atSign : b ≠ atSign
  bang : b ≠ bang

theorem AddrChar.word (hb : AddrChar b) (hat : b ≠ atSign) (hbang : b ≠ bang) : WordChar b :=
  ⟨hb.plain.isspace, hb.plain.lparen, hb.rparen, hb.plain.langle, hb.plain.dquote, hb.plain.comma,
    hat, hbang⟩

theorem WordChar.headerEnd (hb : WordChar b) : headerEnd (b :: s) = false := by
  apply headerEnd_of_ne
  rintro rfl
  exact absurd hb.isspace (by decide)

/-- A comment that follows makes a difference only behind a bare name. -/
theorem hackStep_word (hb : WordChar b) (hnext : Bytes.charAt s 0 ≠ lparen ∨ bare = false)
    (hlast : bf.getLast? ≠ some comma) :
    hackStep host capacity b s ⟨bf, .seekAddress, 0, bare, false, nws, pf, n⟩ =
      some ⟨bf ++ [b], .seekAddress, 0, true, false, b, pf, n⟩ := by
  have hend := @WordChar.headerEnd b s hb
  rcases hnext with hnext | rfl
  · simp [hackStep, countParens, hackSwitch, seekStep, seekCase, noteNws, passComma, hb.isspace,
      hb.lparen, hb.rparen, hb.langle, hb.dquote, hb.comma, hb.atSign, hb.bang, hend, hnext, hlast]
  · simp [hackStep, countParens, hackSwitch, seekStep, seekCase, noteNws, passComma, hb.isspace,
      hb.lparen, hb.rparen, hb.langle, hb.dquote, hb.comma, hb.atSign, hb.bang, hend, hlast]

/-- The character before a comment. Its place is remembered. -/
theorem hackStep_before (hb : AddrChar b) (hat : b ≠ atSign) (hbang : b ≠ bang)
    (hnext : Bytes.charAt s 0 = lparen) (hlast : bf.getLast? ≠ some comma) :
    hackStep host capacity b s ⟨bf, .seekAddress, 0, true, false, nws, pf, n⟩ =
      some ⟨bf ++ [b], .seekAddress, 0, true, false, b, some bf.length, n⟩ := by
  have hend : headerEnd (b :: s) = false := headerEnd_of_ne hb.plain.lf
  simp [hackStep, countParens, hackSwitch, seekStep, seekCase, noteNws, passComma, hb.plain.isspace,
    hb.plain.lparen, hb.rparen, hb.plain.langle, hb.plain.dquote, hb.plain.comma, hb.semicolon, hat,
    hbang, hend, hnext, hlast]

/-- `@` or `!` -/
theorem hackStep_host (hb : b = atSign ∨ b = bang) (hlast : bf.getLast? ≠ some comma) :
    hackStep host capacity b s ⟨bf, .seekAddress, 0, bare, false, nws, pf, n⟩ =
      some ⟨bf ++ [b], .seekAddress, 0, bare, true, b, pf, n⟩ := by
  rcases hb with rfl | rfl <;>
    simp [hackStep, countParens, hackSwitch, seekStep, seekCase, noteNws, passComma, hlast, atSign,
      bang, lparen, rparen, langle, Bytes.isspace]

theorem hackStep_dquote (hlast : bf.getLast? ≠ some comma) :
    hackStep host capacity dquote s ⟨bf, .seekAddress, 0, bare, false, nws, pf, n⟩ =
      some ⟨bf ++ [dquote], .inString, 0, bare, false, dquote, pf, n⟩ := by
  simp [hackStep, countParens, hackSwitch, seekStep, seekCase, noteNws, passComma, hlast, atSign,
    bang, lparen, rparen, langle, dquote, Bytes.isspace]

theorem hackStep_langle (hlast : bf.getLast? ≠ some comma) :
    hackStep host capacity langle s ⟨bf, .seekAddress, 0, bare, false, nws, pf, n⟩ =
      some ⟨bf ++ [langle], .inBrackets, 0, bare, false, langle, pf, n⟩ := by
  simp [hackStep, countParens, hackSwitch, seekStep, seekCase, noteNws, passComma, hlast,
    lparen, rparen, langle, Bytes.isspace]

/-- Backslashes at the end of a text. -/
def slashes (s : Bytes) : Nat := (s.reverse.takeWhile (· = backslash)).length

/-- In a string, a comma may have been passed. -/
theorem hackStep_string (hb : b ≠ dquote ∨ slashes bf % 2 = 1) :
    hackStep host capacity b s ⟨bf, .inString, 0, bare, false, nws, none, n⟩ =
      some ⟨bf ++ [b], .inString, 0, bare && decide (bf.getLast? ≠ some comma), false, nws, none,
        n⟩ := by
  have hstring : stringStep b ⟨bf, .inString, 0, bare, false, nws, none, n⟩ =
      ⟨bf, .inString, 0, bare, false, nws, none, n⟩ := by
    unfold stringStep
    by_cases hquote : b = dquote
    · have hodd := hb.resolve_left fun hne => hne hquote
      unfold slashes at hodd
      rw [if_pos hquote]
      dsimp only
      rw [if_neg (by omega)]
    · rw [if_neg hquote]
  -- a comma that was passed clears the flag even in a string
  by_cases hlast : bf.getLast? = some comma <;>
    simp [hackStep, countParens, hackSwitch, hstring, passComma, hlast]

theorem hackStep_stringEnd (heven : slashes bf % 2 = 0) :
    hackStep host capacity dquote s ⟨bf, .inString, 0, bare, false, nws, none, n⟩ =
      some ⟨bf ++ [dquote], .seekAddress, 0, bare && decide (bf.getLast? ≠ some comma), false, nws,
        none, n⟩ := by
  have hstring : stringStep dquote ⟨bf, .inString, 0, bare, false, nws, none, n⟩ =
      ⟨bf, .seekAddress, 0, bare, false, nws, none, n⟩ := by
    unfold stringStep
    unfold slashes at heven
    rw [if_pos rfl]
    dsimp only
    rw [if_pos heven]
  by_cases hlast : bf.getLast? = some comma <;>
    simp [hackStep, countParens, hackSwitch, hstring, passComma, hlast]

/-- Within brackets, which may have been left behind. -/
theorem hackStep_brackets (hl : b ≠ lparen) (hr : b ≠ rparen) (hangle : b ≠ rangle)
    (hlast : bf.getLast? ≠ some comma) :
    hackStep host capacity b s ⟨bf, .inBrackets, 0, bare, hp, nws, pf, n⟩ =
      some ⟨bf ++ [b], .inBrackets, 0, bare, hp || decide (b = atSign ∨ b = bang), nws, pf, n⟩ := by
  cases hp with
  | true => simpa using hackStep_seen hl hr hlast
  | false =>
    by_cases hseen : b = atSign ∨ b = bang
    · simp only [hackStep, countParens, hackSwitch, bracketsStep, passComma, hl, hr, hlast, hseen,
        if_true, if_false, reduceCtorEq, and_self, false_and, Option.map_some, decide_true,
        Bool.or_true]
    · simp only [hackStep, countParens, hackSwitch, bracketsStep, passComma, hl, hr, hlast, hseen,
        hangle, if_true, if_false, reduceCtorEq, and_self, false_and, Option.map_some, decide_false,
        Bool.or_false]

/-- The closing bracket of a local address. -/
theorem hackStep_rangle {w : HackVars} (hne : bf ≠ []) (hangle : bf.getLast? ≠ some langle)
    (hlast : bf.getLast? ≠ some comma) (hhost : comma ∉ host)
    (h : hackStep host capacity rangle s ⟨bf, .inBrackets, 0, bare, false, nws, pf, n⟩ = some w) :
    w = ⟨bf ++ atSign :: host ++ [rangle], .seekAddress, 0, bare, true, nws, pf, n + 1⟩ := by
  have hlast' : (bf ++ atSign :: host).getLast? ≠ some comma := by
    have hle := lastComma_putHost hhost bf bf.length
    rw [List.take_length, List.drop_length, List.append_nil] at hle
    unfold lastComma at hle
    intro hcomma
    rw [if_pos hcomma, if_neg hlast] at hle
    omega
  have hchars : rangle ≠ lparen ∧ rangle ≠ rparen ∧ ¬ (rangle = atSign ∨ rangle = bang) := by decide
  simp only [hackStep, countParens, hackSwitch, bracketsStep, putHost, hchars.1, hchars.2.1,
    hchars.2.2, hne, hangle, if_true, if_false, reduceCtorEq, and_self, Bool.false_eq_true, ne_eq,
    not_false_eq_true, List.take_length, List.drop_length, List.append_nil] at h
  split at h
  · simp only [Option.map_some, passComma, hlast', false_and, if_false, Option.some.injEq] at h
    exact h.symm
  · cases h

/-- Brackets around nothing are not left. -/
theorem hackStep_null (hangle : bf.getLast? = some langle) :
    hackStep host capacity rangle s ⟨bf, .inBrackets, 0, bare, false, nws, pf, n⟩ =
      some ⟨bf ++ [rangle], .inBrackets, 0, bare, false, nws, pf, n⟩ := by
  have hcomma : some langle ≠ some comma := by decide
  have hchars : rangle ≠ lparen ∧ rangle ≠ rparen ∧ ¬ (rangle = atSign ∨ rangle = bang) := by decide
  simp only [hackStep, countParens, hackSwitch, bracketsStep, passComma, hchars.1, hchars.2.1,
    hchars.2.2, hangle, hcomma, if_true, if_false, reduceCtorEq, and_self, ne_eq, not_true_eq_false,
    and_false, false_and, Option.map_some]

/-- A comment begins. -/
theorem hackStep_open (hst : st ≠ .inString) (hd : 0 ≤ d) :
    hackStep host capacity lparen s ⟨bf, st, d, bare, hp, nws, pf, n⟩ =
      some ⟨bf ++ [lparen], st, d + 1, bare, hp, nws, pf, n⟩ := by
  have hne : d + 1 ≠ 0 := by omega
  simp only [hackStep, countParens, passComma, hst, hne, if_true, if_false, and_false, false_and,
    Option.map_some]

/-- In a comment. -/
theorem hackStep_comment (hl : b ≠ lparen) (hr : b ≠ rparen) (hd : d ≠ 0) :
    hackStep host capacity b s ⟨bf, st, d, bare, hp, nws, pf, n⟩ =
      some ⟨bf ++ [b], st, d, bare, hp, nws, pf, n⟩ := by
  have hcount : countParens b ⟨bf, st, d, bare, hp, nws, pf, n⟩ =
      ⟨bf, st, d, bare, hp, nws, pf, n⟩ := by
    simp only [countParens, hl, hr, if_false, ite_self]
  simp only [hackStep, hcount, passComma, hd, if_false, and_false, false_and, Option.map_some]

theorem hackStep_inner (hst : st ≠ .inString) (hd : d ≠ 1) :
    hackStep host capacity rparen s ⟨bf, st, d, bare, hp, nws, pf, n⟩ =
      some ⟨bf ++ [rparen], st, d - 1, bare, hp, nws, pf, n⟩ := by
  have hne : d - 1 ≠ 0 := by omega
  have hrl : rparen ≠ lparen := by decide
  simp only [hackStep, countParens, passComma, hst, hne, hrl, if_true, if_false, and_false,
    false_and, Option.map_some]

/-- The end of a comment counts as part of an address. -/
theorem hackStep_close (hnext : Bytes.charAt s 0 ≠ lparen) (hlast : bf.getLast? ≠ some comma) :
    hackStep host capacity rparen s ⟨bf, .seekAddress, 1, bare, false, nws, pf, n⟩ =
      some ⟨bf ++ [rparen], .seekAddress, 0, true, false, rparen, pf, n⟩ := by
  have hend : headerEnd (rparen :: s) = false := headerEnd_of_ne (by decide)
  have hcount : countParens rparen ⟨bf, .seekAddress, 1, bare, false, nws, pf, n⟩ =
      ⟨bf, .seekAddress, 0, bare, false, nws, pf, n⟩ := rfl
  have hspace : Bytes.isspace rparen = false := rfl
  have hchars : rparen ≠ langle ∧ ¬ (rparen = atSign ∨ rparen = bang) ∧ rparen ≠ dquote ∧
      rparen ≠ comma := by decide
  simp [hackStep, hcount, hackSwitch, seekStep, seekCase, noteNws, passComma, hlast, hend, hnext,
    hspace, hchars.1, hchars.2.1, hchars.2.2.1, hchars.2.2.2]

theorem hackStep_close_passed (hst : st ≠ .inString) (h : hp = true ∨ st = .inBrackets)
    (hlast : bf.getLast? ≠ some comma) :
    hackStep host capacity rparen s ⟨bf, st, 1, bare, hp, nws, pf, n⟩ =
      some ⟨bf ++ [rparen], st, 0, bare, hp, nws, pf, n⟩ := by
  have hrl : rparen ≠ lparen := by decide
  have hcount : countParens rparen ⟨bf, st, 1, bare, hp, nws, pf, n⟩ =
      ⟨bf, st, 0, bare, hp, nws, pf, n⟩ := by
    simp only [countParens, hst, hrl, if_true, if_false]
    rfl
  cases hp with
  | true => simp [hackStep, hcount, passComma, hlast]
  | false =>
    obtain rfl : st = .inBrackets := h.resolve_left Bool.false_ne_true
    have hchars : ¬ (rparen = atSign ∨ rparen = bang) ∧ rparen ≠ rangle := by decide
    simp [hackStep, hcount, hackSwitch, bracketsStep, passComma, hlast, hchars.1, hchars.2]

/-- A comma at the end of a comment clears the flags. -/
theorem hackStep_close_comma (hlast : bf.getLast? = some comma) :
    hackStep host capacity rparen s ⟨bf, .seekAddress, 1, bare, hp, nws, pf, n⟩ =
      some ⟨bf ++ [rparen], .seekAddress, 0, false, false, if hp then nws else rparen, none, n⟩ := by
  have hcount : countParens rparen ⟨bf, .seekAddress, 1, bare, hp, nws, pf, n⟩ =
      ⟨bf, .seekAddress, 0, bare, hp, nws, pf, n⟩ := rfl
  cases hp with
  | true => simp [hackStep, hcount, passComma, hlast]
  | false =>
    have hend : headerEnd (rparen :: s) = false := headerEnd_of_ne (by decide)
    have hspace : Bytes.isspace rparen = false := rfl
    have hchars : rparen ≠ langle ∧ ¬ (rparen = atSign ∨ rparen = bang) ∧ rparen ≠ dquote ∧
        rparen ≠ comma := by decide
    simp [hackStep, hcount, hackSwitch, seekStep, seekCase, noteNws, passComma, hlast, hend, hspace,
      hchars.1, hchars.2.1, hchars.2.2.1, hchars.2.2.2]

/-! ## Walking back to the end of an address -/

/-- What the walk goes over. -/
def Skipped (s : Bytes) : Prop := ∀ b ∈ s, Bytes.isspace b = true

theorem walkBack_append {x y : Bytes} {c : UInt8} (hc : Bytes.isspace c = false)
    (hcomma : c ≠ comma) (hy : Skipped y) : walkBack (x ++ [c] ++ y) = some (x ++ [c]).length := by
  have hdrop : (x ++ [c] ++ y).reverse.dropWhile (fun b => Bytes.isspace b || b = comma) =
      c :: x.reverse := by
    rw [List.reverse_append, List.dropWhile_append_of_pos (fun b hb => by
      rw [hy b (List.mem_reverse.mp hb), Bool.true_or])]
    rw [List.reverse_append, List.reverse_singleton, List.singleton_append,
      List.dropWhile_cons_of_neg (by simp [hc, hcomma])]
  rw [walkBack, hdrop]
  simp

/-- At a comma, or at the end of the header. -/
theorem hackStep_end {w : HackVars} {place : Nat} (hb : b = comma ∨ b = Bytes.lf)
    (hend : b = Bytes.lf → headerEnd (b :: s) = true ∧ nws ≠ semicolon) (hhost : comma ∉ host)
    (hlast : bf.getLast? ≠ some comma)
    (hplace : walkBack (addressText ⟨bf, .seekAddress, 0, true, false, nws, pf, n⟩) = some place)
    (h : hackStep host capacity b s ⟨bf, .seekAddress, 0, true, false, nws, pf, n⟩ = some w) :
    ∃ nws' : UInt8, w = ⟨bf.take place ++ atSign :: host ++ bf.drop place ++ [b], .seekAddress, 0,
      true, true, nws', pf, n + 1⟩ := by
  -- the new text does not end with a comma, so nothing is reset
  have hlast' : (bf.take place ++ atSign :: host ++ bf.drop place).getLast? ≠ some comma := by
    have hle := lastComma_putHost hhost bf place
    unfold lastComma at hle
    intro hcomma
    rw [if_pos hcomma, if_neg hlast] at hle
    omega
  -- only a semicolon as the last character would leave the list alone
  obtain ⟨nws', hnote, hsemicolon⟩ : ∃ nws',
      noteNws b ⟨bf, .seekAddress, 0, true, false, nws, pf, n⟩ =
        ⟨bf, .seekAddress, 0, true, false, nws', pf, n⟩ ∧ nws' ≠ semicolon := by
    rcases hb with rfl | rfl
    · exact ⟨comma, rfl, by decide⟩
    · exact ⟨nws, rfl, (hend rfl).2⟩
  have hplace' :
      walkBack (addressText ⟨bf, .seekAddress, 0, true, false, nws', pf, n⟩) = some place :=
    hplace
  have hcase : b = comma ∨ headerEnd (b :: s) = true := by
    rcases hb with rfl | rfl
    · exact .inl rfl
    · exact .inr (hend rfl).1
  have hchars : b ≠ lparen ∧ b ≠ rparen ∧ b ≠ langle ∧ ¬ (b = atSign ∨ b = bang) ∧ b ≠ dquote := by
    rcases hb with rfl | rfl <;> decide
  refine ⟨nws', ?_⟩
  simp only [hackStep, countParens, hackSwitch, seekStep, seekCase, hnote, putHost, hchars.1,
    hchars.2.1, hchars.2.2.1, hchars.2.2.2.1, hchars.2.2.2.2, hcase, hsemicolon, hplace', if_true,
    if_false, reduceCtorEq, and_self, Bool.false_eq_true, ne_eq, not_false_eq_true,
    Option.bind_some] at h
  split at h
  · simp only [Option.map_some, passComma, hlast', false_and, if_false, Option.some.injEq] at h
    exact h.symm
  · cases h

/-! ## Runs -/

theorem getLast_ne_of_append {x y : Bytes} (hx : x.getLast? ≠ some comma)
    (hy : ∀ b ∈ y, b ≠ comma) : (x ++ y).getLast? ≠ some comma := by
  intro hlast
  rw [List.getLast?_append] at hlast
  cases hy' : y.getLast? with
  | none =>
    rw [hy'] at hlast
    exact hx hlast
  | some c =>
    rw [hy'] at hlast
    exact hy c (List.mem_of_getLast? hy') (Option.some.inj hlast)

/-- Characters that need no attention behind the host part. -/
theorem hackLoop_seen {text : Bytes} (h : ∀ b ∈ text, b ≠ comma ∧ b ≠ lparen ∧ b ≠ rparen)
    (s : Bytes) (hlast : bf.getLast? ≠ some comma) :
    hackLoop host capacity (text ++ s) ⟨bf, st, 0, bare, true, nws, pf, n⟩ =
      hackLoop host capacity s ⟨bf ++ text, st, 0, bare, true, nws, pf, n⟩ := by
  induction text generalizing bf with
  | nil => rw [List.nil_append, List.append_nil]
  | cons b text ih =>
    obtain ⟨hcomma, hl, hr⟩ := h b (List.mem_cons_self ..)
    have hlast' : (bf ++ [b]).getLast? ≠ some comma :=
      getLast_ne_of_append hlast (by simpa using hcomma)
    rw [List.cons_append, hackLoop, hackStep_seen hl hr hlast, Option.bind_some,
      ih (fun x hx => h x (List.mem_cons_of_mem b hx)) hlast', List.append_assoc]
    rfl

theorem hasHost_cons (b : UInt8) (s : Bytes) :
    hasHost (b :: s) = (decide (b = atSign ∨ b = bang) || hasHost s) := by
  unfold hasHost
  simp only [List.mem_cons, eq_comm, Bool.decide_or]
  cases decide (b = atSign) <;> cases decide (b = bang) <;> cases decide (atSign ∈ s) <;> rfl

theorem hasHost_append (s t : Bytes) : hasHost (s ++ t) = (hasHost s || hasHost t) := by
  induction s with
  | nil => rfl
  | cons b s ih => rw [List.cons_append, hasHost_cons, hasHost_cons, ih, Bool.or_assoc]

theorem hasHost_of_forall {s : Bytes} (h : ∀ b ∈ s, b ≠ atSign ∧ b ≠ bang) : hasHost s = false := by
  simp only [hasHost, Bool.or_eq_false_iff, decide_eq_false_iff_not]
  exact ⟨fun hat => (h _ hat).1 rfl, fun hbang => (h _ hbang).2 rfl⟩

/-- Text within brackets. -/
theorem hackLoop_brackets {text : Bytes}
    (h : ∀ b ∈ text, b ≠ comma ∧ b ≠ lparen ∧ b ≠ rparen ∧ b ≠ rangle) (s : Bytes)
    (hlast : bf.getLast? ≠ some comma) :
    hackLoop host capacity (text ++ s) ⟨bf, .inBrackets, 0, bare, hp, nws, pf, n⟩ =
      hackLoop host capacity s
        ⟨bf ++ text, .inBrackets, 0, bare, hp || hasHost text, nws, pf, n⟩ := by
  induction text generalizing bf hp with
  | nil =>
    have hnone : hasHost [] = false := rfl
    rw [List.nil_append, List.append_nil, hnone, Bool.or_false]
  | cons b text ih =>
    obtain ⟨hcomma, hl, hr, hangle⟩ := h b (List.mem_cons_self ..)
    have hlast' : (bf ++ [b]).getLast? ≠ some comma :=
      getLast_ne_of_append hlast (by simpa using hcomma)
    rw [List.cons_append, hackLoop, hackStep_brackets hl hr hangle hlast, Option.bind_some,
      ih (fun x hx => h x (List.mem_cons_of_mem b hx)) hlast', List.append_assoc, Bool.or_assoc,
      ← hasHost_cons]
    rfl

theorem charAt_append {y : Bytes} (hy : y.head? ≠ some lparen) {s : Bytes}
    (hs : Bytes.charAt s 0 ≠ lparen) : Bytes.charAt (y ++ s) 0 ≠ lparen := by
  cases y with
  | nil => exact hs
  | cons c y =>
    intro hc
    exact hy (congrArg some hc)

/-! ## Blanks, quotes and comments -/

theorem Blanks.isspace {w : Bytes} (h : Blanks w) : Skipped w := by
  induction h with
  | nil => exact fun b hb => by cases hb
  | blank hb _ _ ih => exact List.forall_mem_cons.mpr ⟨hb, ih⟩
  | fold hb _ ih =>
    exact List.forall_mem_cons.mpr ⟨rfl, List.forall_mem_cons.mpr ⟨isspace_of_blank hb, ih⟩⟩

theorem isspace_ne_parens {b : UInt8} (h : Bytes.isspace b = true) :
    b ≠ comma ∧ b ≠ lparen ∧ b ≠ rparen ∧ b ≠ rangle := by
  refine ⟨?_, ?_, ?_, ?_⟩ <;> rintro rfl <;> revert h <;> decide

theorem head_ne_lparen {w : Bytes} (h : ∀ b ∈ w, b ≠ lparen) : w.head? ≠ some lparen :=
  fun hhead => h _ (List.mem_of_mem_head? hhead) rfl

/-- A blank among blanks. -/
theorem hackLoop_blank {w : Bytes} (s : Bytes) (hb : Bytes.isspace b = true) (hw : Skipped w)
    (hend : headerEnd (b :: (w ++ s)) = false) (hlast : bf.getLast? ≠ some comma) :
    hackLoop host capacity (b :: (w ++ s)) ⟨bf, .seekAddress, 0, bare, false, nws, pf, n⟩ =
      hackLoop host capacity (w ++ s) ⟨bf ++ [b], .seekAddress, 0, bare, false, nws,
        if w = [] ∧ Bytes.charAt s 0 = lparen ∧ bare = true ∧ nws ≠ semicolon ∧ nws ≠ rparen then
          some bf.length else pf, n⟩ := by
  have hnext : Bytes.charAt (w ++ s) 0 = lparen ↔ w = [] ∧ Bytes.charAt s 0 = lparen := by
    cases w with
    | nil => simp
    | cons c w =>
      have hc := (isspace_ne_parens (hw c (List.mem_cons_self ..))).2.1
      simpa [Bytes.charAt] using hc
  rw [hackLoop, hackStep_blank hb hend hlast, Option.bind_some]
  simp only [hnext, and_assoc]

/-- Blanks between words. The place before a comment is noted if there are any. -/
theorem Blanks.hack {w : Bytes} (h : Blanks w) (s : Bytes) (hlast : bf.getLast? ≠ some comma) :
    hackLoop host capacity (w ++ s) ⟨bf, .seekAddress, 0, bare, false, nws, pf, n⟩ =
      hackLoop host capacity s ⟨bf ++ w, .seekAddress, 0, bare, false, nws,
        if w ≠ [] ∧ Bytes.charAt s 0 = lparen ∧ bare = true ∧ nws ≠ semicolon ∧ nws ≠ rparen then
          some (bf ++ w).dropLast.length else pf, n⟩ := by
  -- a blank in front of others: its place counts only if it is the last one
  have hend : ∀ {b : UInt8} {w bf : Bytes}, Blanks w → b ≠ comma →
      (∀ {bf : Bytes}, bf.getLast? ≠ some comma →
        hackLoop host capacity (w ++ s) ⟨bf, .seekAddress, 0, bare, false, nws, pf, n⟩ =
          hackLoop host capacity s ⟨bf ++ w, .seekAddress, 0, bare, false, nws,
            if w ≠ [] ∧ Bytes.charAt s 0 = lparen ∧ bare = true ∧ nws ≠ semicolon ∧
                nws ≠ rparen then
              some (bf ++ w).dropLast.length else pf, n⟩) → bf.getLast? ≠ some comma →
      hackLoop host capacity (w ++ s) ⟨bf ++ [b], .seekAddress, 0, bare, false, nws,
          if w = [] ∧ Bytes.charAt s 0 = lparen ∧ bare = true ∧ nws ≠ semicolon ∧ nws ≠ rparen then
            some bf.length else pf, n⟩ =
        hackLoop host capacity s ⟨bf ++ b :: w, .seekAddress, 0, bare, false, nws,
          if Bytes.charAt s 0 = lparen ∧ bare = true ∧ nws ≠ semicolon ∧ nws ≠ rparen then
            some (bf ++ b :: w).dropLast.length else pf, n⟩ := by
    intro b w bf hw hb ih hlast
    have hassoc : bf ++ b :: w = bf ++ [b] ++ w := by simp
    by_cases hnil : w = []
    · subst hnil
      simp
    · rw [if_neg (fun hw => hnil hw.1), ih (getLast_ne_of_append hlast (by simpa using hb)), hassoc]
      simp only [ne_eq, hnil, not_false_eq_true, true_and]
  induction h generalizing bf with
  | nil => simp
  | @blank b w hb hlf hw ih =>
    rw [List.cons_append, hackLoop_blank s hb hw.isspace (headerEnd_of_ne hlf) hlast,
      hend hw (isspace_ne hb).1 ih hlast]
    simp
  | @fold b w hb hw ih =>
    have hblank := isspace_of_blank hb
    have hlf : b ≠ Bytes.lf := by
      rcases hb with rfl | rfl <;> decide
    have hfirst : hackLoop host capacity (Bytes.lf :: (b :: w ++ s))
        ⟨bf, .seekAddress, 0, bare, false, nws, pf, n⟩ =
        hackLoop host capacity (b :: w ++ s)
          ⟨bf ++ [Bytes.lf], .seekAddress, 0, bare, false, nws, pf, n⟩ := by
      rw [hackLoop_blank s (by decide) (List.forall_mem_cons.mpr ⟨hblank, hw.isspace⟩)
        (headerEnd_fold hb) hlast]
      simp
    have hlast' : (bf ++ [Bytes.lf]).getLast? ≠ some comma :=
      getLast_ne_of_append hlast (by decide)
    rw [List.cons_append, hfirst, List.cons_append,
      hackLoop_blank s hblank hw.isspace (headerEnd_of_ne hlf) hlast',
      hend hw (isspace_ne hblank).1 ih hlast']
    simp

/-- The rest of a quoted string. -/
theorem QuotedText.hack {q : Bytes} (h : QuotedText q) (heven : slashes bf % 2 = 0) :
    hackLoop host capacity (q ++ dquote :: s) ⟨bf, .inString, 0, bare, false, nws, none, n⟩ =
      hackLoop host capacity s ⟨bf ++ (q ++ [dquote]), .seekAddress, 0,
        bare && decide (bf.getLast? ≠ some comma) && decide (comma ∉ q), false, nws, none, n⟩ := by
  -- the backslashes before a quote are counted in `before`, so their number is carried along
  have hback : ∀ (x : Bytes), slashes (x ++ [backslash]) = slashes x + 1 := by
    intro x
    simp [slashes]
  have hother : ∀ (x : Bytes) {b : UInt8}, b ≠ backslash → slashes (x ++ [b]) = 0 := by
    intro x b hb
    simp [slashes, hb]
  -- a comma that was passed clears the flag at the character behind it
  have hflag : ∀ (x q : Bytes) (b : UInt8) (k : Bool),
      (k && decide ((x ++ [b]).getLast? ≠ some comma) && decide (comma ∉ q)) =
        (k && decide (comma ∉ b :: q)) := by
    intro x q b k
    rw [List.getLast?_concat, Bool.and_assoc, ← Bool.decide_and]
    simp only [ne_eq, Option.some.injEq, List.mem_cons, not_or, eq_comm]
  induction h generalizing bf bare s with
  | nil =>
    show hackLoop host capacity (dquote :: s) _ = _
    rw [hackLoop, hackStep_stringEnd heven, Option.bind_some]
    simp
  | @char b q hquote hb _ _ ih =>
    show hackLoop host capacity (b :: (q ++ dquote :: s)) _ = _
    rw [hackLoop, hackStep_string (.inl hquote), Option.bind_some, ih (by rw [hother _ hb]), hflag]
    simp
  | @escape b q _ ih =>
    have hodd : slashes (bf ++ [backslash]) % 2 = 1 := by
      rw [hback]
      omega
    have heven' : slashes (bf ++ [backslash] ++ [b]) % 2 = 0 := by
      by_cases hb : b = backslash
      · rw [hb, hback, hback]
        omega
      · rw [hother _ hb]
    show hackLoop host capacity (backslash :: b :: (q ++ dquote :: s)) _ = _
    rw [hackLoop, hackStep_string (.inl (by decide)), Option.bind_some, hackLoop,
      hackStep_string (.inr hodd), Option.bind_some, ih heven', hflag, hflag]
    simp
  | @fold b q hb _ ih =>
    have hquote : b ≠ dquote := (isspace_ne (isspace_of_blank hb)).2.2.2.1
    have hslash : b ≠ backslash := (isspace_ne (isspace_of_blank hb)).2.2.2.2
    show hackLoop host capacity (Bytes.lf :: b :: (q ++ dquote :: s)) _ = _
    rw [hackLoop, hackStep_string (.inl (by decide)), Option.bind_some, hackLoop,
      hackStep_string (.inl hquote), Option.bind_some, ih (by rw [hother _ hslash]), hflag, hflag]
    simp

/-- A comment, inside of its parentheses. -/
theorem CommentText.hack {c : Bytes} (h : CommentText c) (hst : st ≠ .inString) (s : Bytes)
    (hd : 1 ≤ d) :
    hackLoop host capacity (c ++ s) ⟨bf, st, d, bare, hp, nws, pf, n⟩ =
      hackLoop host capacity s ⟨bf ++ c, st, d, bare, hp, nws, pf, n⟩ := by
  have hne : d ≠ 0 := by omega
  induction h generalizing bf s d with
  | nil => rw [List.nil_append, List.append_nil]
  | @char b c hl hr _ _ _ ih =>
    show hackLoop host capacity (b :: (c ++ s)) _ = _
    rw [hackLoop, hackStep_comment hl hr hne, Option.bind_some, ih s hd hne]
    simp
  | @fold b c hb _ ih =>
    obtain ⟨-, hl, hr, -⟩ := isspace_ne_parens (isspace_of_blank hb)
    show hackLoop host capacity (Bytes.lf :: b :: (c ++ s)) _ = _
    rw [hackLoop, hackStep_comment (by decide) (by decide) hne, Option.bind_some, hackLoop,
      hackStep_comment hl hr hne, Option.bind_some, ih s hd hne]
    simp
  -- the inner comment is one deeper
  | @nested c c' _ _ ih ih' =>
    show hackLoop host capacity (lparen :: ((c ++ rparen :: c') ++ s)) _ = _
    rw [hackLoop, hackStep_open hst (by omega), Option.bind_some, List.append_assoc,
      ih _ (by omega) (by omega), List.cons_append, hackLoop, hackStep_inner hst (by omega),
      Option.bind_some, Int.add_sub_cancel, ih' s hd hne]
    simp

/-- A comment behind the host part, or where brackets have not been left. -/
theorem CommentText.hack_passed {c : Bytes} (h : CommentText c) (hend : c.getLast? ≠ some comma)
    (hst : st ≠ .inString) (hpass : hp = true ∨ st = .inBrackets) (s : Bytes) :
    hackLoop host capacity (lparen :: (c ++ rparen :: s)) ⟨bf, st, 0, bare, hp, nws, pf, n⟩ =
      hackLoop host capacity s
        ⟨bf ++ lparen :: (c ++ [rparen]), st, 0, bare, hp, nws, pf, n⟩ := by
  have hlast : (bf ++ [lparen] ++ c).getLast? ≠ some comma := by
    rw [List.getLast?_append]
    cases hc : c.getLast? with
    | none => simp [lparen, comma]
    | some b => simpa [hc] using hend
  rw [hackLoop, hackStep_open hst (Int.le_refl 0), Option.bind_some, h.hack hst _ (by decide),
    Int.zero_add, hackLoop, hackStep_close_passed hst hpass hlast, Option.bind_some]
  simp

/-- A comment in front of the host part. -/
theorem CommentText.hack_seek {c : Bytes} (h : CommentText c) (hend : c.getLast? ≠ some comma)
    (s : Bytes) (hs : Bytes.charAt s 0 ≠ lparen) :
    hackLoop host capacity (lparen :: (c ++ rparen :: s))
        ⟨bf, .seekAddress, 0, bare, false, nws, pf, n⟩ =
      hackLoop host capacity s
        ⟨bf ++ lparen :: (c ++ [rparen]), .seekAddress, 0, true, false, rparen, pf, n⟩ := by
  have hlast : (bf ++ [lparen] ++ c).getLast? ≠ some comma := by
    rw [List.getLast?_append]
    cases hc : c.getLast? with
    | none => simp [lparen, comma]
    | some b => simpa [hc] using hend
  rw [hackLoop, hackStep_open (by decide) (Int.le_refl 0), Option.bind_some,
    h.hack (by decide) _ (by decide), Int.zero_add, hackLoop, hackStep_close hs hlast,
    Option.bind_some]
  simp

/-- A comment that ends with a comma. -/
theorem CommentText.hack_comma {c : Bytes} (h : CommentText c) (hend : c.getLast? = some comma) :
    ∃ nws', ∀ s, hackLoop host capacity (lparen :: (c ++ rparen :: s))
        ⟨bf, .seekAddress, 0, bare, hp, nws, pf, n⟩ =
      hackLoop host capacity s
        ⟨bf ++ lparen :: (c ++ [rparen]), .seekAddress, 0, false, false, nws', none, n⟩ := by
  have hlast : (bf ++ [lparen] ++ c).getLast? = some comma := by
    rw [List.getLast?_append, hend]
    rfl
  refine ⟨if hp then nws else rparen, fun s => ?_⟩
  rw [hackLoop, hackStep_open (by decide) (Int.le_refl 0), Option.bind_some,
    h.hack (by decide) _ (by decide), Int.zero_add, hackLoop, hackStep_close_comma hlast,
    Option.bind_some]
  simp

/-- A quoted string. -/
theorem QuotedText.hack_seek {q : Bytes} (h : QuotedText q) (hlast : bf.getLast? ≠ some comma) :
    hackLoop host capacity (dquote :: (q ++ dquote :: s))
        ⟨bf, .seekAddress, 0, bare, false, nws, none, n⟩ =
      hackLoop host capacity s ⟨bf ++ dquote :: (q ++ [dquote]), .seekAddress, 0,
        bare && decide (comma ∉ q), false, dquote, none, n⟩ := by
  have heven : slashes (bf ++ [dquote]) % 2 = 0 := by
    simp [slashes, dquote, backslash]
  have hquote : (bf ++ [dquote]).getLast? ≠ some comma := by
    rw [List.getLast?_concat]
    decide
  rw [hackLoop, hackStep_dquote hlast, Option.bind_some, h.hack heven, decide_eq_true hquote,
    Bool.and_true]
  simp

/-- A string that is left open. -/
theorem hackLoop_string {text : Bytes} (h : dquote ∉ text) :
    ∃ bare', ∀ s, hackLoop host capacity (text ++ s) ⟨bf, .inString, 0, bare, false, nws, none, n⟩ =
      hackLoop host capacity s ⟨bf ++ text, .inString, 0, bare', false, nws, none, n⟩ := by
  induction text generalizing bf bare with
  | nil => exact ⟨bare, fun s => by rw [List.nil_append, List.append_nil]⟩
  | cons b text ih =>
    rw [List.mem_cons, not_or] at h
    obtain ⟨bare', hrun⟩ := @ih (bf ++ [b]) (bare && decide (bf.getLast? ≠ some comma)) h.2
    refine ⟨bare', fun s => ?_⟩
    rw [List.cons_append, hackLoop, hackStep_string (.inl (Ne.symm h.1)), Option.bind_some, hrun,
      List.append_assoc]
    rfl

/-! ## Within brackets -/

/-- The parentheses of a text that are left open. -/
def parenSum : Bytes → Int
  | [] => 0
  | b :: s => (if b = lparen then 1 else if b = rparen then -1 else 0) + parenSum s

/-- Whatever has been seen, only a closing bracket leaves the brackets. -/
theorem hackStep_within (hangle : b ≠ rangle) :
    ∃ bare' hp' pf', (∀ s, hackStep host capacity b s ⟨bf, .inBrackets, d, bare, hp, nws, pf, n⟩ =
        some ⟨bf ++ [b], .inBrackets, d + parenSum [b], bare', hp', nws, pf', n⟩) ∧
      (b ≠ atSign ∧ b ≠ bang → hp = false → hp' = false) := by
  have hcount : countParens b ⟨bf, .inBrackets, d, bare, hp, nws, pf, n⟩ =
      ⟨bf, .inBrackets, d + parenSum [b], bare, hp, nws, pf, n⟩ := by
    unfold countParens parenSum parenSum
    by_cases hl : b = lparen
    · simp [hl]
    · by_cases hr : b = rparen
      · have hrl : rparen ≠ lparen := by decide
        simp [hr, hrl, Int.sub_eq_add_neg]
      · simp [hl, hr]
  generalize d + parenSum [b] = e at hcount
  -- the `switch` does nothing but note a host part
  obtain ⟨hp₁, hswitch, hnone⟩ : ∃ hp₁, (∀ s,
      (if e = 0 ∧ hp = false then
        hackSwitch host capacity b s ⟨bf, .inBrackets, e, bare, hp, nws, pf, n⟩
      else some ⟨bf, .inBrackets, e, bare, hp, nws, pf, n⟩) =
        some ⟨bf, .inBrackets, e, bare, hp₁, nws, pf, n⟩) ∧
      (b ≠ atSign ∧ b ≠ bang → hp = false → hp₁ = false) := by
    by_cases hlook : e = 0 ∧ hp = false
    · obtain ⟨rfl, rfl⟩ := hlook
      by_cases hseen : b = atSign ∨ b = bang
      · exact ⟨true, fun s => by simp [hackSwitch, bracketsStep, hseen],
          fun hne => absurd hseen (not_or.mpr hne)⟩
      · exact ⟨false, fun s => by simp [hackSwitch, bracketsStep, hseen, hangle], fun _ _ => rfl⟩
    · exact ⟨hp, fun s => if_neg hlook, fun _ h => h⟩
  by_cases hpassed : bf.getLast? = some comma ∧ e = 0
  · have hpass : passComma ⟨bf, .inBrackets, e, bare, hp₁, nws, pf, n⟩ =
        ⟨bf, .inBrackets, e, false, false, nws, none, n⟩ := if_pos hpassed
    exact ⟨false, false, none,
      fun s => by simp only [hackStep, hcount, hswitch s, Option.map_some, hpass], fun _ _ => rfl⟩
  · have hpass : passComma ⟨bf, .inBrackets, e, bare, hp₁, nws, pf, n⟩ =
        ⟨bf, .inBrackets, e, bare, hp₁, nws, pf, n⟩ := if_neg hpassed
    exact ⟨bare, hp₁, pf,
      fun s => by simp only [hackStep, hcount, hswitch s, Option.map_some, hpass], hnone⟩

theorem parenSum_append (x y : Bytes) : parenSum (x ++ y) = parenSum x + parenSum y := by
  induction x with
  | nil => simp [parenSum]
  | cons b x ih =>
    rw [List.cons_append, parenSum, parenSum, ih]
    omega

/-- Text within brackets, with any parentheses. -/
theorem hackLoop_within {text : Bytes} (h : rangle ∉ text) :
    ∃ bare' hp' pf', (∀ s, hackLoop host capacity (text ++ s)
        ⟨bf, .inBrackets, d, bare, hp, nws, pf, n⟩ =
      hackLoop host capacity s
        ⟨bf ++ text, .inBrackets, d + parenSum text, bare', hp', nws, pf', n⟩) ∧
      (hasHost text = false → hp = false → hp' = false) := by
  induction text generalizing bf d bare hp pf with
  | nil =>
    refine ⟨bare, hp, pf, fun s => ?_, fun _ h => h⟩
    rw [List.nil_append, List.append_nil, parenSum, Int.add_zero]
  | cons b text ih =>
    rw [List.mem_cons, not_or] at h
    obtain ⟨bare₁, hp₁, pf₁, hstep, hnone₁⟩ :=
      @hackStep_within host capacity b bf bare hp nws pf n d (Ne.symm h.1)
    obtain ⟨bare', hp', pf', hrun, hnone⟩ :=
      @ih (bf ++ [b]) bare₁ hp₁ pf₁ (d + parenSum [b]) h.2
    refine ⟨bare', hp', pf', fun s => ?_, fun hhost hp => ?_⟩
    · have hsum : d + parenSum [b] + parenSum text = d + parenSum (b :: text) := by
        rw [Int.add_assoc, ← parenSum_append, List.singleton_append]
      rw [List.cons_append, hackLoop, hstep, Option.bind_some, hrun, hsum, List.append_assoc]
      rfl
    · rw [hasHost_cons, Bool.or_eq_false_iff, decide_eq_false_iff_not, not_or] at hhost
      exact hnone hhost.2 (hnone₁ hhost.1 hp)

/-- A comment within brackets. -/
theorem CommentText.hack_within {c : Bytes} (h : CommentText c) :
    ∃ bare' hp' pf', ∀ s, hackLoop host capacity (lparen :: (c ++ rparen :: s))
        ⟨bf, .inBrackets, 0, bare, hp, nws, pf, n⟩ =
      hackLoop host capacity s
        ⟨bf ++ lparen :: (c ++ [rparen]), .inBrackets, 0, bare', hp', nws, pf', n⟩ := by
  obtain ⟨bare', hp', pf', hclose, -⟩ := @hackStep_within host capacity rparen
    (bf ++ [lparen] ++ c) bare hp nws pf n 1 (by decide)
  refine ⟨bare', hp', pf', fun s => ?_⟩
  have hzero : (1 : Int) + parenSum [rparen] = 0 := by decide
  rw [hackLoop, hackStep_open (by decide) (Int.le_refl 0), Option.bind_some,
    h.hack (by decide) _ (by decide), Int.zero_add, hackLoop, hclose, hzero, Option.bind_some]
  simp

end

end Fetchmail.Rfc822
