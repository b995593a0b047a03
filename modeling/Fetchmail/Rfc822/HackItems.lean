import Fetchmail.Rfc822.AddrList
import Fetchmail.Rfc822.HackAddrs

/-!
# Items in the Loop of `reply_hack`

The loop comes to an item with its flags cleared, or right behind a comma, where the first character
is passed over, or in brackets or a string that it has not left. How it comes to an item, and what
the item looks like, decide whether `@host` is put in where it has to be, and how the item is left.
-/

namespace Fetchmail.Rfc822

open Fetchmail.Lib

/-! ## How the loop comes to an item -/

inductive Start where
  /-- the flags have been cleared -/
  | clear
  /-- a comma lies right behind, and the flag for the host part is still set -/
  | missed
  /-- in brackets that were left open -/
  | brackets
  /-- in a string that was left open -/
  | string

/-- How many characters are passed over, before the flags are cleared. -/
def Start.lost : Start → Nat
  | .missed => 1
  | _ => 0

/-- Addresses are looked for. -/
def Start.Seeks (start : Start) : Prop := start = .clear ∨ start = .missed

def Start.Holds : Start → HackVars → Prop
  | .clear, v => v.state = .seekAddress ∧ v.hasBareNamePart = false ∧ v.hasHostPart = false ∧
      v.parensFrom = none ∧ v.before.getLast? ≠ some comma
  | .missed, v => v.state = .seekAddress ∧ v.hasHostPart = true ∧ v.before.getLast? = some comma
  | .brackets, v => v.state = .inBrackets ∧
      (v.hasHostPart = false ∨ v.before.getLast? = some comma)
  | .string, v => v.state = .inString ∧ v.hasHostPart = false ∧ v.parensFrom = none ∧
      v.before.getLast? ≠ some backslash

/-- How the loop comes from the end of one item to the next one. -/
def Behind.start (after : Behind) (lead : Bytes) : Start :=
  match after with
  | .brackets => .brackets
  | .string => .string
  | .seen | .idle => if lead = [] then .missed else .clear

/-! ## Items that are read right -/

/-- Words, with nothing in them that the loop takes for something else. -/
def Words (q : Bytes) : Prop := ∀ b ∈ q, WordChar b ∨ Bytes.isspace b = true ∧ b ≠ Bytes.lf

/-- How an address, with what stands around it, is read right, and left. -/
inductive Form.Tame : Start → Bytes → Form → Behind → Prop where
  /-- an address, without the character that is passed over -/
  | bare {start : Start} {a : Bytes} {after : Behind} (hs : start.Seeks)
      (h : Settled a false (a.drop start.lost) after) : Form.Tame start a .bare after
  /-- a comment behind an address counts as a name -/
  | commentAfter {start : Start} {k : Bool} {a u c : Bytes} (hs : start.Seeks)
      (h : SeekAddr (hasHost a) false k (a.drop start.lost)) (hc : c.getLast? ≠ some comma) :
      Form.Tame start a (.commentAfter u c) .seen
  /-- a comma at its end clears the flags, which does no harm to an address with a host part -/
  | commentAfterComma {start : Start} {h k : Bool} {a u c : Bytes} (hs : start.Seeks)
      (hseek : SeekAddr h false k (a.drop start.lost)) (ha : hasHost a = true)
      (hc : c.getLast? = some comma) : Form.Tame start a (.commentAfter u c) .idle
  /-- a comment in front counts as a name, too -/
  | commentBefore {a c u : Bytes} {after : Behind}
      (h : Settled a (decide (c.getLast? ≠ some comma)) a after) :
      Form.Tame .clear a (.commentBefore c u) after
  /-- a comma in front of a parenthesis does not clear the flags -/
  | commentMissed {a c u : Bytes} (hc : c.getLast? ≠ some comma) (ha : hasHost a = true)
      (hpass : Passing a) : Form.Tame .missed a (.commentBefore c u) .seen
  /-- but a comma at the end of the comment does -/
  | commentMissedComma {a c u : Bytes} {after : Behind} (hc : c.getLast? = some comma)
      (h : Settled a false a after) : Form.Tame .missed a (.commentBefore c u) after
  /-- a phrase without `!` -/
  | phrase {start : Start} {a words : Bytes} {first : UInt8} (hs : start.Seeks)
      (hbang : bang ∉ (first :: words).drop start.lost) (ha : InBrackets a) :
      Form.Tame start a (.phrase first words) (afterAngle a)
  /-- `!` in a phrase is taken for a host part -/
  | phraseBang {start : Start} {a words : Bytes} {first : UInt8} (hs : start.Seeks)
      (hbang : bang ∈ (first :: words).drop start.lost) (ha : hasHost a = true)
      (hpass : Passing a) : Form.Tame start a (.phrase first words) .seen
  /-- a quoted phrase -/
  | quotedPhrase {a q u : Bytes} (ha : InBrackets a) :
      Form.Tame .clear a (.quotedPhrase q u) (afterAngle a)
  /-- without its first quote the phrase is read as words, and the second one begins a string -/
  | words {start : Start} {a q u : Bytes} (hs : start = .missed ∨ start = .string)
      (ha : hasHost a = true) (hq : Words q) (hquote : dquote ∉ a) :
      Form.Tame start a (.quotedPhrase q u) .string
  /-- there may be what is taken for a host part in the phrase -/
  | wordsHost {start : Start} {a x y u : Bytes} {m : UInt8} (hs : start = .missed ∨ start = .string)
      (ha : hasHost a = true) (hx : Words x) (hm : m = atSign ∨ m = bang) (hy : Passing y)
      (hpass : Passing a) : Form.Tame start a (.quotedPhrase (x ++ m :: y) u) .seen
  /-- in brackets nothing is put in behind an address without brackets -/
  | openAddr {a : Bytes} {form : Form} (hb : form.bracketed = false) (ha : hasHost a = true)
      (hangle : rangle ∉ a) (hsum : parenSum a = 0) : Form.Tame .brackets a form .brackets
  | openPhrase {a words : Bytes} {first : UInt8} (hbang : hasHost a = true ∨ bang ∉ first :: words)
      (ha : InBrackets a) : Form.Tame .brackets a (.phrase first words) (afterAngle a)
  /-- in brackets the quotes of a phrase are not heeded -/
  | openQuoted {a q u : Bytes} (hangle : rangle ∉ q) (hsum : parenSum q = 0)
      (hq : hasHost a = true ∨ hasHost q = false) (ha : InBrackets a) :
      Form.Tame .brackets a (.quotedPhrase q u) (afterAngle a)
  /-- nor is anything but a quote in a string -/
  | openString {a : Bytes} {form : Form} (ha : hasHost a = true)
      (hquote : dquote ∉ form.render a) : Form.Tame .string a form .string

/-- How `<addr>` is read right, and left. -/
inductive Angle.Tame : Start → Bytes → Behind → Prop where
  | angle {start : Start} {a : Bytes} (hs : start = .clear ∨ start = .brackets)
      (ha : InBrackets a) : Angle.Tame start a (afterAngle a)
  /-- without its first bracket it is an address like others -/
  | missed {k : Bool} {a : Bytes} (h : SeekAddr true false k a) : Angle.Tame .missed a .seen
  | string {a : Bytes} (ha : hasHost a = true ∨ a = []) (hquote : dquote ∉ a) :
      Angle.Tame .string a .string

def Item.Tame (start : Start) (i : Item) (after : Behind) : Prop :=
  match i with
  | .entry e => e.form.Tame start e.addr after
  | .angle x => Angle.Tame start x.addr after

/-- What is made of an item. -/
def Item.Hacked (host : Bytes) (i : Item) (out : Bytes) : Prop :=
  match i with
  | .entry e => e.form.Hacked host e.addr out
  | .angle x => out = langle :: (qualify host x.addr ++ [rangle])

section

variable {host : Bytes} {capacity : Nat} {b : UInt8} {s bf : Bytes} {bare hp k k' k₀ k₁ : Bool}
  {nws : UInt8} {pf : Option Nat} {n : Nat} {a trail u c : Bytes} {v w : HackVars} {start : Start}
  {after : Behind}

/-! ## The text of an item -/

theorem Form.render_phrase (a words y : Bytes) (first : UInt8) :
    Form.render a (.phrase first words) ++ y =
      (first :: words) ++ langle :: (a ++ rangle :: y) := by
  simp [Form.render]

theorem Form.render_quotedPhrase (a q u y : Bytes) : Form.render a (.quotedPhrase q u) ++ y =
    dquote :: (q ++ dquote :: (u ++ langle :: (a ++ rangle :: y))) := by
  simp [Form.render]

theorem Form.render_commentAfter (a u c y : Bytes) : Form.render a (.commentAfter u c) ++ y =
    a ++ (u ++ lparen :: (c ++ rparen :: y)) := by
  simp [Form.render]

theorem Form.render_commentBefore (a c u y : Bytes) : Form.render a (.commentBefore c u) ++ y =
    lparen :: (c ++ rparen :: (u ++ (a ++ y))) := by
  simp [Form.render]

/-! ## The first characters -/

theorem addrText_head (h : AddrText k a) : ∀ x ∈ a.head?, x ≠ comma ∧ x ≠ lparen ∧ x ≠ rparen := by
  intro x hx
  cases h with
  | nil => cases hx
  | char hb =>
    cases hx
    have hchar := addrChar hb
    exact ⟨hchar.plain.comma, hchar.plain.lparen, hchar.rparen⟩
  | quoted => cases hx; decide

/-- Where addresses are looked for, the first character may be passed over; then the flags are
clear. -/
theorem Start.enter (hs : start.Seeks) (hv : start.Holds v) (hd : v.parendepth = 0) {x : Bytes}
    (hne : x ≠ []) (hhead : ∀ y ∈ x.head?, y ≠ comma ∧ y ≠ lparen ∧ y ≠ rparen) :
    ∃ nws n, (∀ s, hackLoop host capacity (x ++ s) v =
        hackLoop host capacity (x.drop start.lost ++ s)
          ⟨v.before ++ x.take start.lost, .seekAddress, 0, false, false, nws, none, n⟩) ∧
      (v.before ++ x.take start.lost).getLast? ≠ some comma := by
  obtain ⟨bf, st, d, bare, hp, nws, pf, n⟩ := v
  obtain rfl : d = 0 := hd
  rcases hs with rfl | rfl
  · obtain ⟨hst, hbare, hhp, hpf, hlast⟩ := hv
    dsimp only at hst hbare hhp hpf hlast
    subst hst hbare hhp hpf
    refine ⟨nws, n, fun s => ?_, ?_⟩
    · simp [Start.lost]
    · simpa [Start.lost] using hlast
  · obtain ⟨hst, hhp, hlast⟩ := hv
    dsimp only at hst hhp hlast
    subst hst hhp
    obtain ⟨c, x, rfl⟩ := List.exists_cons_of_ne_nil hne
    obtain ⟨hcomma, hl, hr⟩ := hhead c rfl
    refine ⟨nws, n, fun s => ?_, ?_⟩
    · rw [List.cons_append, hackLoop, hackStep_reset hl hr hlast (.inl rfl), Option.bind_some]
      rfl
    · show (bf ++ [c]).getLast? ≠ some comma
      rw [List.getLast?_concat]
      exact fun heq => hcomma (Option.some.inj heq)

/-- In brackets the first character may be passed over, too. -/
theorem Start.enter_brackets (hv : Start.brackets.Holds v) (hd : v.parendepth = 0) {x : Bytes}
    (hne : x ≠ []) (hhead : ∀ y ∈ x.head?, y ≠ lparen ∧ y ≠ rparen) (hangle : rangle ∉ x) :
    ∃ bare hp nws pf n, (∀ s, hackLoop host capacity (x ++ s) v =
        hackLoop host capacity s
          ⟨v.before ++ x, .inBrackets, parenSum x, bare, hp, nws, pf, n⟩) ∧
      (hasHost x = false → hp = false) := by
  obtain ⟨bf, st, d, bare, hp, nws, pf, n⟩ := v
  obtain rfl : d = 0 := hd
  obtain ⟨hst, hflag⟩ := hv
  dsimp only at hst hflag
  subst hst
  -- either no host was seen, or the first character clears that one was
  rcases hflag with rfl | hlast
  · obtain ⟨bare', hp', pf', hrun, hnone⟩ :=
      @hackLoop_within host capacity bf bare false nws pf n 0 x hangle
    rw [Int.zero_add] at hrun
    exact ⟨bare', hp', nws, pf', n, hrun, fun hhost => hnone hhost rfl⟩
  · obtain ⟨c, x, rfl⟩ := List.exists_cons_of_ne_nil hne
    obtain ⟨hl, hr⟩ := hhead c rfl
    rw [List.mem_cons, not_or] at hangle
    obtain ⟨bare', hp', pf', hrun, hnone⟩ :=
      @hackLoop_within host capacity (bf ++ [c]) false false nws none n 0 x hangle.2
    have hsum : parenSum (c :: x) = 0 + parenSum x := by rw [parenSum, if_neg hl, if_neg hr]
    refine ⟨bare', hp', nws, pf', n, fun s => ?_, fun hhost => hnone ?_ rfl⟩
    · rw [List.cons_append, hackLoop, hackStep_reset hl hr hlast (.inr ⟨rfl, Ne.symm hangle.1⟩),
        Option.bind_some, hrun, hsum, List.append_assoc]
      rfl
    · rw [hasHost_cons, Bool.or_eq_false_iff] at hhost
      exact hhost.2

/-! ## Phrases -/

theorem PhraseText.chars {p : Bytes} (h : PhraseText p) :
    ∀ b ∈ p, b ≠ comma ∧ b ≠ lparen ∧ b ≠ rparen ∧ b ≠ rangle ∧ b ≠ atSign := by
  induction h with
  | nil => exact fun b hb => by cases hb
  | @char b p hb _ ih =>
    have hchar := addrChar (.inl hb)
    refine List.forall_mem_cons.mpr
      ⟨⟨hchar.plain.comma, hchar.plain.lparen, hchar.rparen, hchar.plain.rangle, ?_⟩, ih⟩
    rintro rfl
    revert hb
    decide
  | @blanks w p hw _ ih =>
    intro b hb
    rcases List.mem_append.mp hb with hb | hb
    · have hspace := hw.isspace b hb
      obtain ⟨hcomma, hl, hr, hangle⟩ := isspace_ne_parens hspace
      refine ⟨hcomma, hl, hr, hangle, ?_⟩
      rintro rfl
      revert hspace
      decide
    · exact ih b hb

/-- The words of a phrase. -/
theorem PhraseText.hack {p : Bytes} (h : PhraseText p) (hbang : bang ∉ p)
    (hlast : bf.getLast? ≠ some comma) :
    ∃ bare' nws', ∀ s, Bytes.charAt s 0 ≠ lparen →
      hackLoop host capacity (p ++ s) ⟨bf, .seekAddress, 0, bare, false, nws, none, n⟩ =
        hackLoop host capacity s ⟨bf ++ p, .seekAddress, 0, bare', false, nws', none, n⟩ := by
  induction h generalizing bf bare nws with
  | nil => exact ⟨bare, nws, fun s _ => by rw [List.nil_append, List.append_nil]⟩
  | @char b p hb h ih =>
    have hchar := addrChar (.inl hb)
    rw [List.mem_cons, not_or] at hbang
    have hat : b ≠ atSign := by
      rintro rfl
      exact absurd hb (by decide)
    obtain ⟨bare', nws', hrun⟩ := @ih (bf ++ [b]) true b hbang.2
      (getLast_ne_of_append hlast (by simpa using hchar.plain.comma))
    refine ⟨bare', nws', fun s hs => ?_⟩
    have hnext := charAt_append (head_ne_lparen fun x hx => (h.chars x hx).2.1) hs
    rw [List.cons_append, hackLoop,
      hackStep_word (hchar.word hat (Ne.symm hbang.1)) (.inl hnext) hlast, Option.bind_some,
      hrun s hs, List.append_assoc]
    rfl
  -- blanks change what is known of the address only before a parenthesis
  | @blanks w p hw h ih =>
    rw [List.mem_append, not_or] at hbang
    obtain ⟨bare', nws', hrun⟩ := @ih (bf ++ w) bare nws hbang.2
      (getLast_ne_of_append hlast fun x hx => (isspace_ne (hw.isspace x hx)).1)
    refine ⟨bare', nws', fun s hs => ?_⟩
    have hnext := charAt_append (head_ne_lparen fun x hx => (h.chars x hx).2.1) hs
    rw [List.append_assoc, hw.hack _ hlast, if_neg fun hparen => hnext hparen.2.1, hrun s hs,
      List.append_assoc]

/-- Words, up to what does not belong to them. -/
theorem hackLoop_words {q : Bytes} (hq : Words q) (hlast : bf.getLast? ≠ some comma) :
    ∃ bare' nws', (∀ s, Bytes.charAt s 0 ≠ lparen →
      hackLoop host capacity (q ++ s) ⟨bf, .seekAddress, 0, bare, false, nws, none, n⟩ =
        hackLoop host capacity s ⟨bf ++ q, .seekAddress, 0, bare', false, nws', none, n⟩) ∧
      (bf ++ q).getLast? ≠ some comma := by
  induction q generalizing bf bare nws with
  | nil =>
    refine ⟨bare, nws, fun s _ => by rw [List.nil_append, List.append_nil], ?_⟩
    rwa [List.append_nil]
  | cons b q ih =>
    obtain ⟨hb, hq⟩ := List.forall_mem_cons.mp hq
    -- no comma and no parenthesis is in a word, so that nothing is qualified on the way
    have hplain : ∀ {x : UInt8}, WordChar x ∨ Bytes.isspace x = true ∧ x ≠ Bytes.lf →
        x ≠ lparen ∧ x ≠ comma := by
      rintro x (hx | hx)
      · exact ⟨hx.lparen, hx.comma⟩
      · exact ⟨(isspace_ne_parens hx.1).2.1, (isspace_ne_parens hx.1).1⟩
    have hnext : ∀ {s : Bytes}, Bytes.charAt s 0 ≠ lparen → Bytes.charAt (q ++ s) 0 ≠ lparen :=
      charAt_append (head_ne_lparen fun x hx => (hplain (hq x hx)).1)
    have hlast' : (bf ++ [b]).getLast? ≠ some comma :=
      getLast_ne_of_append hlast (by simpa using (hplain hb).2)
    have hassoc : bf ++ b :: q = bf ++ [b] ++ q := by simp
    rw [hassoc]
    rcases hb with hb | hb
    · obtain ⟨bare', nws', hrun, hend⟩ := @ih (bf ++ [b]) true b hq hlast'
      refine ⟨bare', nws', fun s hs => ?_, hend⟩
      rw [List.cons_append, hackLoop, hackStep_word hb (.inl (hnext hs)) hlast, Option.bind_some,
        hrun s hs]
    · obtain ⟨bare', nws', hrun, hend⟩ := @ih (bf ++ [b]) bare nws hq hlast'
      refine ⟨bare', nws', fun s hs => ?_, hend⟩
      rw [List.cons_append, hackLoop, hackStep_blank hb.1 (headerEnd_of_ne hb.2) hlast,
        if_neg fun hparen => hnext hs hparen.1, Option.bind_some, hrun s hs]

/-- A phrase with `!` in it. -/
theorem PhraseText.hack_bang {p : Bytes} (h : PhraseText p) (hbang : bang ∈ p)
    (hlast : bf.getLast? ≠ some comma) (s : Bytes) :
    ∃ bare' nws', hackLoop host capacity (p ++ s)
        ⟨bf, .seekAddress, 0, bare, false, nws, none, n⟩ =
      hackLoop host capacity s ⟨bf ++ p, .seekAddress, 0, bare', true, nws', none, n⟩ := by
  -- up to the first `!` there is nothing else to be seen
  induction h generalizing bf bare nws with
  | nil => cases hbang
  | @char b p hb h ih =>
    have hchar := addrChar (.inl hb)
    have hlast' : (bf ++ [b]).getLast? ≠ some comma :=
      getLast_ne_of_append hlast (by simpa using hchar.plain.comma)
    have hassoc : bf ++ b :: p = bf ++ [b] ++ p := by simp
    rw [hassoc]
    by_cases hfirst : b = bang
    · refine ⟨bare, b, ?_⟩
      rw [List.cons_append, hackLoop, hackStep_host (.inr hfirst) hlast, Option.bind_some,
        hackLoop_seen (fun x hx => ⟨(h.chars x hx).1, (h.chars x hx).2.1, (h.chars x hx).2.2.1⟩) s
          hlast']
    · have hrest : bang ∈ p := (List.mem_cons.mp hbang).resolve_left (Ne.symm hfirst)
      have hat : b ≠ atSign := by
        rintro rfl
        exact absurd hb (by decide)
      obtain ⟨bare', nws', hrun⟩ := @ih (bf ++ [b]) true b hrest hlast'
      have hnext : Bytes.charAt (p ++ s) 0 ≠ lparen := by
        obtain ⟨c, p, rfl⟩ := List.exists_cons_of_ne_nil (List.ne_nil_of_mem hrest)
        exact (h.chars c List.mem_cons_self).2.1
      refine ⟨bare', nws', ?_⟩
      rw [List.cons_append, hackLoop, hackStep_word (hchar.word hat hfirst) (.inl hnext) hlast,
        Option.bind_some, hrun]
  | @blanks w p hw h ih =>
    have hrest : bang ∈ p := by
      refine (List.mem_append.mp hbang).resolve_left fun hmem => ?_
      exact absurd (hw.isspace _ hmem) (by decide)
    obtain ⟨bare', nws', hrun⟩ := @ih (bf ++ w) bare nws hrest
      (getLast_ne_of_append hlast fun x hx => (isspace_ne (hw.isspace x hx)).1)
    have hnext : Bytes.charAt (p ++ s) 0 ≠ lparen := by
      obtain ⟨c, p, rfl⟩ := List.exists_cons_of_ne_nil (List.ne_nil_of_mem hrest)
      exact (h.chars c List.mem_cons_self).2.1
    refine ⟨bare', nws', ?_⟩
    rw [List.append_assoc, hw.hack _ hlast, if_neg fun hparen => hnext hparen.2.1, hrun,
      List.append_assoc]

theorem charAt_langle (y : Bytes) : Bytes.charAt (langle :: y) 0 ≠ lparen := by
  show langle ≠ lparen
  decide

/-- `<addr>` where addresses are looked for. -/
theorem InBrackets.hack_langle (ha : InBrackets a) (htext : AddrText k a) (ht : Blanks trail)
    (he : EndsEntry b s) (hhost : comma ∉ host) (hlast : bf.getLast? ≠ some comma)
    (hrun : hackLoop host capacity (langle :: (a ++ rangle :: (trail ++ b :: s)))
      ⟨bf, .seekAddress, 0, bare, false, nws, none, n⟩ = some w) :
    Resumes host capacity s (bf ++ langle :: (qualify host a ++ rangle :: (trail ++ [b])))
      (afterAngle a) w := by
  rw [hackLoop, hackStep_langle hlast, Option.bind_some] at hrun
  have hend := ha.hack_angle htext ht he hhost (List.getLast?_concat ..) (fun _ => rfl) hrun
  simpa using hend

/-! ## Where addresses are looked for -/

section

variable {form : Form}

/-- An address without anything around it. -/
theorem Settled.hack_start (hs : start.Seeks) (h : Settled a false (a.drop start.lost) after)
    (hv : start.Holds v) (hd : v.parendepth = 0) (htext : AddrText k₀ a) (hne : a ≠ [])
    (ht : Blanks trail) (he : EndsEntry b s) (hhost : comma ∉ host)
    (hrun : hackLoop host capacity (a ++ (trail ++ b :: s)) v = some w) :
    Resumes host capacity s (v.before ++ (qualify host a ++ (trail ++ [b]))) after w := by
  obtain ⟨nws, n, henter, hlast⟩ :=
    @Start.enter host capacity v start hs hv hd a hne (addrText_head htext)
  rw [henter] at hrun
  have hend := h.hack hne (fun hfalse => Bool.noConfusion hfalse) ht he hhost hlast hrun
  rw [qualify_eq]
  rw [List.append_assoc, ← List.append_assoc (a.take _), List.take_append_drop] at hend
  rwa [List.append_assoc]

/-- An address with a comment behind it. -/
theorem SeekAddr.hack_after (hs : start.Seeks)
    (h : SeekAddr (hasHost a) false k (a.drop start.lost)) (hcend : c.getLast? ≠ some comma)
    (hv : start.Holds v) (hd : v.parendepth = 0) (htext : AddrText k₀ a) (hne : a ≠ [])
    (hu : Blanks u) (hc : CommentText c) (ht : Blanks trail) (he : EndsEntry b s)
    (hhost : comma ∉ host)
    (hrun : hackLoop host capacity (a ++ (u ++ lparen :: (c ++ rparen :: (trail ++ b :: s)))) v =
      some w) :
    ∃ out, Form.Hacked host a (.commentAfter u c) out ∧
      Resumes host capacity s (v.before ++ (out ++ (trail ++ [b]))) .seen w := by
  obtain ⟨nws, n, henter, hlast⟩ :=
    @Start.enter host capacity v start hs hv hd a hne (addrText_head htext)
  rw [henter] at hrun
  have heq := List.take_append_drop start.lost a
  have hend := @SeekAddr.hack_comment host capacity b s v.before nws n k (a.drop start.lost) trail
    u c w (a.take start.lost) (by rwa [heq]) (by rwa [heq]) hu hc hcend ht he hhost hlast hrun
  rwa [heq] at hend

/-- One with a comment that ends with a comma. -/
theorem SeekAddr.hack_after_comma (hs : start.Seeks) (h : SeekAddr k' false k (a.drop start.lost))
    (hcend : c.getLast? = some comma) (hv : start.Holds v) (hd : v.parendepth = 0)
    (htext : AddrText k₀ a) (hne : a ≠ []) (hu : Blanks u) (hc : CommentText c) (ht : Blanks trail)
    (he : EndsEntry b s)
    (hrun : hackLoop host capacity (a ++ (u ++ lparen :: (c ++ rparen :: (trail ++ b :: s)))) v =
      some w) :
    Resumes host capacity s
      (v.before ++ (a ++ (u ++ lparen :: (c ++ rparen :: (trail ++ [b]))))) .idle w := by
  obtain ⟨nws, n, henter, hlast⟩ :=
    @Start.enter host capacity v start hs hv hd a hne (addrText_head htext)
  rw [henter] at hrun
  have hend := h.hack_comma hu hc hcend ht he hlast hrun
  rwa [List.append_assoc, ← List.append_assoc (a.take _), List.take_append_drop] at hend

/-- The address behind a comment, with the flags cleared. -/
theorem CommentText.hack_addr (hc : CommentText c) (hu : Blanks u)
    (h : Settled a (decide (c.getLast? ≠ some comma)) a after) (hne : a ≠ [])
    (htext : AddrText k₀ a) (ht : Blanks trail) (he : EndsEntry b s) (hhost : comma ∉ host)
    (hrun : hackLoop host capacity (lparen :: (c ++ rparen :: (u ++ (a ++ (trail ++ b :: s)))))
      ⟨bf, .seekAddress, 0, false, false, nws, none, n⟩ = some w) :
    Resumes host capacity s
      (bf ++ lparen :: (c ++ rparen :: (u ++ (qualify host a ++ (trail ++ [b]))))) after w := by
  have hnext : ∀ y, Bytes.charAt (a ++ y) 0 ≠ lparen := by
    intro y
    obtain ⟨x, a, rfl⟩ := List.exists_cons_of_ne_nil hne
    exact (addrText_head htext x rfl).2.1
  have hlast₁ : (bf ++ lparen :: (c ++ [rparen])).getLast? ≠ some comma := by
    rw [← List.cons_append, ← List.append_assoc, List.getLast?_concat]
    decide
  have hlast₂ : (bf ++ lparen :: (c ++ [rparen]) ++ u).getLast? ≠ some comma :=
    getLast_ne_of_append hlast₁ fun x hx => (blank_seen hu x hx).1
  obtain ⟨nws', hfront⟩ := @CommentText.hack_front host capacity (u ++ (a ++ (trail ++ b :: s))) bf
    nws n c hc (charAt_append (head_ne_lparen fun x hx => (blank_seen hu x hx).2.1) (hnext _))
  rw [hfront, hu.hack _ hlast₁, if_neg fun hparen => hnext _ hparen.2.1] at hrun
  have hend := h.hack hne (fun _ => hne) ht he hhost hlast₂ hrun
  rw [qualify_eq]
  simpa using hend

/-- A phrase and its address. -/
theorem PhraseText.hack_addr {p : Bytes} (hp : PhraseText p) (hbang : bang ∉ p)
    (ha : InBrackets a) (htext : AddrText k₀ a) (ht : Blanks trail) (he : EndsEntry b s)
    (hhost : comma ∉ host) (hlast : bf.getLast? ≠ some comma)
    (hrun : hackLoop host capacity (p ++ langle :: (a ++ rangle :: (trail ++ b :: s)))
      ⟨bf, .seekAddress, 0, bare, false, nws, none, n⟩ = some w) :
    Resumes host capacity s (bf ++ (p ++ langle :: (qualify host a ++ rangle :: (trail ++ [b]))))
      (afterAngle a) w := by
  obtain ⟨bare', nws', hphrase⟩ := @PhraseText.hack host capacity bf bare nws n p hp hbang hlast
  rw [hphrase _ (charAt_langle _)] at hrun
  have hend := ha.hack_langle htext ht he hhost
    (getLast_ne_of_append hlast fun x hx => (hp.chars x hx).1) hrun
  simpa using hend

/-- Behind what is taken for a host part, an address in brackets is passed over. -/
theorem Passing.hack_angle {y : Bytes} (hy : Passing y) (hpass : Passing a) (ht : Blanks trail)
    (he : EndsEntry b s) (hlast : bf.getLast? ≠ some comma)
    (hrun : hackLoop host capacity (y ++ (a ++ rangle :: (trail ++ b :: s)))
      ⟨bf, .seekAddress, 0, bare, true, nws, pf, n⟩ = some w) :
    Resumes host capacity s (bf ++ (y ++ (a ++ rangle :: (trail ++ [b])))) .seen w := by
  have hall : Passing (y ++ (a ++ [rangle])) := by
    intro x hx
    rcases List.mem_append.mp hx with hx | hx
    · exact hy x hx
    · rcases List.mem_append.mp hx with hx | hx
      · exact hpass x hx
      · rw [List.mem_singleton.mp hx]
        decide
  have htext : y ++ (a ++ rangle :: (trail ++ b :: s)) =
      (y ++ (a ++ [rangle])) ++ (trail ++ b :: s) := by simp
  rw [htext, hackLoop_seen hall _ hlast] at hrun
  have hend := resumes_seen ht he (getLast_ne_of_append hlast fun x hx => (hall x hx).1) hrun
  simpa using hend

/-- A quoted phrase and its address. -/
theorem QuotedText.hack_addr {q : Bytes} (hq : QuotedText q) (hu : Blanks u) (ha : InBrackets a)
    (htext : AddrText k₀ a) (ht : Blanks trail) (he : EndsEntry b s) (hhost : comma ∉ host)
    (hlast : bf.getLast? ≠ some comma)
    (hrun : hackLoop host capacity
      (dquote :: (q ++ dquote :: (u ++ langle :: (a ++ rangle :: (trail ++ b :: s)))))
      ⟨bf, .seekAddress, 0, bare, false, nws, none, n⟩ = some w) :
    Resumes host capacity s (bf ++ dquote :: (q ++ dquote :: (u ++ langle :: (qualify host a ++
      rangle :: (trail ++ [b]))))) (afterAngle a) w := by
  have hlast₁ : (bf ++ dquote :: (q ++ [dquote])).getLast? ≠ some comma := by
    rw [← List.cons_append, ← List.append_assoc, List.getLast?_concat]
    decide
  have hlast₂ : (bf ++ dquote :: (q ++ [dquote]) ++ u).getLast? ≠ some comma :=
    getLast_ne_of_append hlast₁ fun x hx => (blank_seen hu x hx).1
  -- no comment begins behind the blanks
  rw [hq.hack_seek hlast, hu.hack _ hlast₁, if_neg fun hparen => charAt_langle _ hparen.2.1]
    at hrun
  have hend := ha.hack_langle htext ht he hhost hlast₂ hrun
  simpa using hend

/-! ## Strings that are left open -/

theorem Blanks.dquote {x : Bytes} (hx : Blanks x) : dquote ∉ x := fun hmem =>
  absurd (hx.isspace _ hmem) (by decide)

/-- In a string, nothing but a quote is heeded. -/
theorem resumes_string {x : Bytes} (hx : dquote ∉ x) (ht : Blanks trail) (he : EndsEntry b s)
    (hrun : hackLoop host capacity (x ++ (trail ++ b :: s))
      ⟨bf, .inString, 0, bare, false, nws, none, n⟩ = some w) :
    Resumes host capacity s (bf ++ (x ++ (trail ++ [b]))) .string w := by
  have hall : dquote ∉ x ++ (trail ++ [b]) := by
    simp only [List.mem_append, List.mem_singleton, not_or]
    exact ⟨hx, ht.dquote, he.ne.2.2.2.symm⟩
  obtain ⟨bare', hstring⟩ :=
    @hackLoop_string host capacity bf bare nws n (x ++ (trail ++ [b])) hall
  have htext : x ++ (trail ++ b :: s) = x ++ (trail ++ [b]) ++ s := by simp
  rw [htext, hstring] at hrun
  exact ⟨_, rfl, rfl, ⟨rfl, rfl, rfl⟩, hrun⟩

/-- A quote that is missed, or ends a string that was left open. -/
theorem Start.enter_quote (hs : start = .missed ∨ start = .string) (hv : start.Holds v)
    (hd : v.parendepth = 0) (s : Bytes) :
    ∃ bare nws n, hackLoop host capacity (Rfc822.dquote :: s) v =
      hackLoop host capacity s
        ⟨v.before ++ [Rfc822.dquote], .seekAddress, 0, bare, false, nws, none, n⟩ := by
  obtain ⟨bf, st, d, bare, hp, nws, pf, n⟩ := v
  obtain rfl : d = 0 := hd
  rcases hs with rfl | rfl
  · obtain ⟨hst, hhp, hlast⟩ := hv
    dsimp only at hst hhp hlast
    subst hst hhp
    refine ⟨false, nws, n, ?_⟩
    rw [hackLoop, hackStep_reset (by decide) (by decide) hlast (.inl rfl), Option.bind_some]
  · obtain ⟨hst, hhp, hpf, hlast⟩ := hv
    dsimp only at hst hhp hpf hlast
    subst hst hhp hpf
    -- before the quote that ends the string no backslash stands
    have heven : slashes bf % 2 = 0 := by
      have hhead : bf.reverse.head? ≠ some backslash := by rwa [List.head?_reverse]
      have hnone : bf.reverse.takeWhile (· = backslash) = [] := by
        cases hrev : bf.reverse with
        | nil => rfl
        | cons c y =>
          rw [hrev] at hhead
          rw [List.takeWhile_cons_of_neg]
          simpa using hhead
      rw [slashes, hnone]
      rfl
    refine ⟨bare && decide (bf.getLast? ≠ some comma), nws, n, ?_⟩
    rw [hackLoop, hackStep_stringEnd heven, Option.bind_some]

/-- The words of a quoted phrase, behind the first quote. -/
theorem Words.hack_string {q : Bytes} (hq : Words q) (hquote : dquote ∉ a) (hu : Blanks u)
    (ht : Blanks trail) (he : EndsEntry b s) (hlast : bf.getLast? ≠ some comma)
    (hrun : hackLoop host capacity
      (q ++ dquote :: (u ++ langle :: (a ++ rangle :: (trail ++ b :: s))))
      ⟨bf, .seekAddress, 0, bare, false, nws, none, n⟩ = some w) :
    Resumes host capacity s
      (bf ++ (q ++ dquote :: (u ++ langle :: (a ++ rangle :: (trail ++ [b]))))) .string w := by
  obtain ⟨bare', nws', hwords, hlast'⟩ := @hackLoop_words host capacity bf bare nws n q hq hlast
  have hnext : ∀ y, Bytes.charAt (dquote :: y) 0 ≠ lparen := fun y => by
    show dquote ≠ lparen
    decide
  have hrest : dquote ∉ u ++ langle :: (a ++ [rangle]) := by
    simp only [List.mem_append, List.mem_cons, List.not_mem_nil, or_false, not_or]
    exact ⟨hu.dquote, by decide, hquote, by decide⟩
  have htext : u ++ langle :: (a ++ rangle :: (trail ++ b :: s)) =
      (u ++ langle :: (a ++ [rangle])) ++ (trail ++ b :: s) := by simp
  rw [hwords _ (hnext _), hackLoop, hackStep_dquote hlast', Option.bind_some, htext] at hrun
  have hend := resumes_string hrest ht he hrun
  simpa using hend

/-! ## Brackets that are left open -/

/-- An address with a host part, and what stands around it without brackets. -/
theorem Form.hack_open (hb : form.bracketed = false) (hwell : form.WellFormed) (hne : a ≠ [])
    (htext : AddrText k₀ a) (hangle : rangle ∉ a) (hsum : parenSum a = 0)
    (hv : Start.brackets.Holds v) (hd : v.parendepth = 0) (ht : Blanks trail) (he : EndsEntry b s)
    (hrun : hackLoop host capacity (form.render a ++ (trail ++ b :: s)) v = some w) :
    Resumes host capacity s (v.before ++ (form.render a ++ (trail ++ [b]))) .brackets w := by
  have hblank : ∀ {u : Bytes}, Blanks u → rangle ∉ u ∧ parenSum u = 0 := fun hu =>
    ⟨fun hmem => (isspace_ne_parens (hu.isspace _ hmem)).2.2.2 rfl,
      parenSum_zero fun x hx => (blank_seen hu x hx).2⟩
  obtain ⟨bare, hp, nws, pf, n, henter, -⟩ := @Start.enter_brackets host capacity v hv hd a hne
    (fun y hy => (addrText_head htext y hy).2) hangle
  rw [hsum] at henter
  cases form with
  | phrase first words => cases hb
  | quotedPhrase q u => cases hb
  | bare =>
    rw [Form.render, henter] at hrun
    have hend := resumes_brackets ht he hrun
    rwa [List.append_assoc] at hend
  -- the parentheses are counted, whatever the state
  | commentAfter u c =>
    obtain ⟨hu, hc⟩ := hwell
    obtain ⟨bare₁, hp₁, pf₁, hblanks, -⟩ := @hackLoop_within host capacity (v.before ++ a) bare hp
      nws pf n 0 u (hblank hu).1
    obtain ⟨bare₂, hp₂, pf₂, hcomment⟩ := @CommentText.hack_within host capacity
      (v.before ++ a ++ u) bare₁ hp₁ nws pf₁ n c hc
    rw [render_commentAfter, henter, hblanks, (hblank hu).2, Int.add_zero, hcomment] at hrun
    have hend := resumes_brackets ht he hrun
    rw [render_commentAfter]
    simpa using hend
  | commentBefore c u =>
    obtain ⟨hc, hu⟩ := hwell
    obtain ⟨bf, st, d, bare₀, hp₀, nws₀, pf₀, n₀⟩ := v
    obtain rfl : d = 0 := hd
    obtain ⟨hst, -⟩ := hv
    dsimp only at hst
    subst hst
    obtain ⟨bare₁, hp₁, pf₁, hcomment⟩ :=
      @CommentText.hack_within host capacity bf bare₀ hp₀ nws₀ pf₀ n₀ c hc
    have hangle' : rangle ∉ u ++ a := by
      rw [List.mem_append, not_or]
      exact ⟨(hblank hu).1, hangle⟩
    obtain ⟨bare₂, hp₂, pf₂, haddr, -⟩ := @hackLoop_within host capacity
      (bf ++ lparen :: (c ++ [rparen])) bare₁ hp₁ nws₀ pf₁ n₀ 0 (u ++ a) hangle'
    rw [render_commentBefore, ← List.append_assoc u, hcomment, haddr, parenSum_append,
      (hblank hu).2, hsum, Int.add_zero, Int.add_zero] at hrun
    have hend := resumes_brackets ht he hrun
    rw [render_commentBefore]
    simpa using hend

/-- An address in brackets, with text in front of it that is taken for text within brackets. -/
theorem InBrackets.hack_front (ha : InBrackets a) (htext : AddrText k₀ a) {p : Bytes}
    (hhead : ∀ y ∈ (p ++ [langle]).head?, y ≠ lparen ∧ y ≠ rparen) (hangle : rangle ∉ p)
    (hsum : parenSum p = 0) (hhost' : hasHost a = true ∨ hasHost p = false)
    (hv : Start.brackets.Holds v) (hd : v.parendepth = 0) (ht : Blanks trail) (he : EndsEntry b s)
    (hhost : comma ∉ host)
    (hrun : hackLoop host capacity (p ++ langle :: (a ++ rangle :: (trail ++ b :: s))) v =
      some w) :
    Resumes host capacity s
      (v.before ++ (p ++ langle :: (qualify host a ++ rangle :: (trail ++ [b])))) (afterAngle a)
      w := by
  have hangle' : rangle ∉ p ++ [langle] := by
    rw [List.mem_append, List.mem_singleton, not_or]
    exact ⟨hangle, by decide⟩
  have hsum' : parenSum (p ++ [langle]) = 0 := by
    rw [parenSum_append, hsum]
    rfl
  obtain ⟨bare, hp, nws, pf, n, henter, hflag⟩ :=
    @Start.enter_brackets host capacity v hv hd (p ++ [langle]) (by simp) hhead hangle'
  rw [List.append_cons, henter, hsum'] at hrun
  have hopen : (v.before ++ (p ++ [langle])).getLast? = some langle := by
    rw [← List.append_assoc, List.getLast?_concat]
  have hend := ha.hack_angle htext ht he hhost hopen (fun hlocal => hflag ?_) hrun
  · simpa using hend
  · have hnone := hhost'.resolve_left (by rw [hlocal]; exact Bool.false_ne_true)
    rw [hasHost_append, hnone]
    rfl

/-! ## Items -/

theorem Start.clear_eq (hv : Start.clear.Holds v) (hd : v.parendepth = 0) :
    ∃ bf nws n, v = ⟨bf, .seekAddress, 0, false, false, nws, none, n⟩ ∧
      bf.getLast? ≠ some comma := by
  obtain ⟨bf, st, d, bare, hp, nws, pf, n⟩ := v
  obtain rfl : d = 0 := hd
  obtain ⟨hst, hbare, hhp, hpf, hlast⟩ := hv
  dsimp only at hst hbare hhp hpf hlast
  subst hst hbare hhp hpf
  exact ⟨bf, nws, n, rfl, hlast⟩

theorem Start.missed_eq (hv : Start.missed.Holds v) (hd : v.parendepth = 0) :
    ∃ bf bare nws pf n, v = ⟨bf, .seekAddress, 0, bare, true, nws, pf, n⟩ ∧
      bf.getLast? = some comma := by
  obtain ⟨bf, st, d, bare, hp, nws, pf, n⟩ := v
  obtain rfl : d = 0 := hd
  obtain ⟨hst, hhp, hlast⟩ := hv
  dsimp only at hst hhp hlast
  subst hst hhp
  exact ⟨bf, bare, nws, pf, n, rfl, hlast⟩

theorem Start.string_eq (hv : Start.string.Holds v) (hd : v.parendepth = 0) :
    ∃ bf bare nws n, v = ⟨bf, .inString, 0, bare, false, nws, none, n⟩ := by
  obtain ⟨bf, st, d, bare, hp, nws, pf, n⟩ := v
  obtain rfl : d = 0 := hd
  obtain ⟨hst, hhp, hpf, -⟩ := hv
  dsimp only at hst hhp hpf
  subst hst hhp hpf
  exact ⟨bf, bare, nws, n, rfl⟩

theorem phrase_drop {first : UInt8} {words : Bytes} (hfirst : atomChar first = true)
    (hwords : PhraseText words) (hs : start.Seeks) :
    PhraseText ((first :: words).drop start.lost) := by
  rcases hs with rfl | rfl
  · exact .char hfirst hwords
  · exact hwords

/-- What is made of a phrase and its address, where addresses are looked for. -/
theorem Form.hack_phrase {first : UInt8} {words : Bytes} (hs : start.Seeks)
    (hfirst : atomChar first = true) (hwords : PhraseText words) (hv : start.Holds v)
    (hd : v.parendepth = 0)
    (hrun : hackLoop host capacity
      (Form.render a (.phrase first words) ++ (trail ++ b :: s)) v = some w) :
    ∃ x p bare nws n, x ++ p = first :: words ∧ PhraseText p ∧
      p = (first :: words).drop start.lost ∧ (v.before ++ x).getLast? ≠ some comma ∧
      hackLoop host capacity (p ++ langle :: (a ++ rangle :: (trail ++ b :: s)))
        ⟨v.before ++ x, .seekAddress, 0, bare, false, nws, none, n⟩ = some w := by
  have hhead : ∀ y ∈ (first :: words).head?, y ≠ comma ∧ y ≠ lparen ∧ y ≠ rparen := by
    rintro y ⟨⟩
    have hchar := addrChar (.inl hfirst)
    exact ⟨hchar.plain.comma, hchar.plain.lparen, hchar.rparen⟩
  obtain ⟨nws, n, henter, hlast⟩ := @Start.enter host capacity v start hs hv hd (first :: words)
    (List.cons_ne_nil _ _) hhead
  rw [render_phrase, henter] at hrun
  exact ⟨_, _, false, nws, n, List.take_append_drop start.lost (first :: words),
    phrase_drop hfirst hwords hs, rfl, hlast, hrun⟩

/-- A comment behind a comma that was missed: the host part of the item before hides it, and what
comes behind it. -/
theorem CommentText.hack_missed (hc : CommentText c) (hu : Blanks u)
    (hcend : c.getLast? ≠ some comma) (hpass : Passing a) (ht : Blanks trail) (he : EndsEntry b s)
    (hrun : hackLoop host capacity (lparen :: (c ++ rparen :: (u ++ (a ++ (trail ++ b :: s)))))
      ⟨bf, .seekAddress, 0, bare, true, nws, pf, n⟩ = some w) :
    Resumes host capacity s (bf ++ lparen :: (c ++ rparen :: (u ++ (a ++ (trail ++ [b]))))) .seen
      w := by
  have hua : Passing (u ++ a) := fun x hx =>
    (List.mem_append.mp hx).elim (blank_seen hu x) (hpass x)
  have hlastc : (bf ++ lparen :: (c ++ [rparen])).getLast? ≠ some comma := by
    rw [← List.cons_append, ← List.append_assoc, List.getLast?_concat]
    decide
  rw [← List.append_assoc u, hc.hack_passed hcend (by decide) (.inl rfl),
    hackLoop_seen hua _ hlastc] at hrun
  have hend := resumes_seen ht he (getLast_ne_of_append hlastc fun x hx => (hua x hx).1) hrun
  simpa using hend

/-- But a comma at the end of the comment clears the flags. -/
theorem CommentText.hack_missed_comma (hc : CommentText c) (hu : Blanks u)
    (hcend : c.getLast? = some comma) (h : Settled a false a after) (hne : a ≠ [])
    (ht : Blanks trail) (he : EndsEntry b s) (hhost : comma ∉ host)
    (hrun : hackLoop host capacity (lparen :: (c ++ rparen :: (u ++ (a ++ (trail ++ b :: s)))))
      ⟨bf, .seekAddress, 0, bare, true, nws, pf, n⟩ = some w) :
    Resumes host capacity s
      (bf ++ lparen :: (c ++ rparen :: (u ++ (qualify host a ++ (trail ++ [b]))))) after w := by
  obtain ⟨nws', hcomment⟩ :=
    @CommentText.hack_comma host capacity bf bare true nws pf n c hc hcend
  have hlastc : (bf ++ lparen :: (c ++ [rparen])).getLast? ≠ some comma := by
    rw [← List.cons_append, ← List.append_assoc, List.getLast?_concat]
    decide
  rw [hcomment, hu.hack _ hlastc, if_neg fun hparen => Bool.false_ne_true hparen.2.2.1] at hrun
  have hend := h.hack hne (fun hfalse => Bool.noConfusion hfalse) ht he hhost
    (getLast_ne_of_append hlastc fun x hx => (blank_seen hu x hx).1) hrun
  rw [qualify_eq]
  simpa using hend

/-- Words in which a host part is seen. -/
theorem Words.hack_host {x y : Bytes} {m : UInt8} (hx : Words x) (hm : m = atSign ∨ m = bang)
    (hy : Passing y) (hu : Blanks u) (hpass : Passing a) (ht : Blanks trail) (he : EndsEntry b s)
    (hlast : bf.getLast? ≠ some comma)
    (hrun : hackLoop host capacity
      (x ++ m :: (y ++ dquote :: (u ++ langle :: (a ++ rangle :: (trail ++ b :: s)))))
      ⟨bf, .seekAddress, 0, bare, false, nws, none, n⟩ = some w) :
    Resumes host capacity s
      (bf ++ (x ++ m :: (y ++ dquote :: (u ++ langle :: (a ++ rangle :: (trail ++ [b])))))) .seen
      w := by
  obtain ⟨bare', nws', hwords, hlast'⟩ := @hackLoop_words host capacity bf bare nws n x hx hlast
  have hmark : m ≠ lparen ∧ m ≠ comma := by
    rcases hm with rfl | rfl <;> decide
  have hnext : ∀ z, Bytes.charAt (m :: z) 0 ≠ lparen := fun _ => hmark.1
  have hlastm : (bf ++ x ++ [m]).getLast? ≠ some comma := by
    rw [List.getLast?_concat]
    exact fun heq => hmark.2 (Option.some.inj heq)
  have hrest : Passing (y ++ dquote :: (u ++ [langle])) := by
    intro z hz
    simp only [List.mem_append, List.mem_cons, List.not_mem_nil, or_false] at hz
    rcases hz with hz | rfl | hz | rfl
    · exact hy z hz
    · decide
    · exact blank_seen hu z hz
    · decide
  have hsplit : y ++ dquote :: (u ++ langle :: (a ++ rangle :: (trail ++ b :: s))) =
      (y ++ dquote :: (u ++ [langle])) ++ (a ++ rangle :: (trail ++ b :: s)) := by simp
  -- from the `@` or `!` on the address has its host, and all up to the comma is passed over
  rw [hwords _ (hnext _), hackLoop, hackStep_host hm hlast', Option.bind_some, hsplit] at hrun
  have hend := hrest.hack_angle hpass ht he hlastm hrun
  simpa using hend

/-- A quoted phrase that is taken for text within brackets. -/
theorem QuotedText.hack_front {q : Bytes} (hangle : rangle ∉ q) (hsum : parenSum q = 0)
    (hq : hasHost a = true ∨ hasHost q = false) (hu : Blanks u) (ha : InBrackets a)
    (htext : AddrText k₀ a) (hv : Start.brackets.Holds v) (hd : v.parendepth = 0)
    (ht : Blanks trail) (he : EndsEntry b s) (hhost : comma ∉ host)
    (hrun : hackLoop host capacity
      ((dquote :: (q ++ dquote :: u)) ++ langle :: (a ++ rangle :: (trail ++ b :: s))) v = some w) :
    Resumes host capacity s (v.before ++ ((dquote :: (q ++ dquote :: u)) ++
      langle :: (qualify host a ++ rangle :: (trail ++ [b])))) (afterAngle a) w := by
  have hblank : hasHost u = false := hasHost_of_forall fun x hx => by
    constructor <;> rintro rfl <;> exact absurd (hu.isspace _ hx) (by decide)
  have hnone : hasHost a = true ∨ hasHost (dquote :: (q ++ dquote :: u)) = false := by
    refine hq.imp_right fun hq => ?_
    have hquote : ¬ (dquote = atSign ∨ dquote = bang) := by decide
    rw [hasHost_cons, hasHost_append, hasHost_cons, hq, hblank, decide_eq_false hquote]
    rfl
  have hangle' : rangle ∉ dquote :: (q ++ dquote :: u) := by
    simp only [List.mem_cons, List.mem_append, not_or]
    exact ⟨by decide, hangle, by decide,
      fun hmem => (isspace_ne_parens (hu.isspace _ hmem)).2.2.2 rfl⟩
  have hsum' : parenSum (dquote :: (q ++ dquote :: u)) = 0 := by
    have hquote : ∀ x, parenSum (dquote :: x) = parenSum x := fun x => by
      rw [parenSum, if_neg (by decide), if_neg (by decide), Int.zero_add]
    rw [hquote, parenSum_append, hquote, hsum, parenSum_zero fun x hx => (blank_seen hu x hx).2]
    rfl
  exact ha.hack_front htext (by rintro y ⟨⟩; decide) hangle' hsum' hnone hv hd ht he hhost hrun

/-- What stands in front of the brackets, with the first character that was passed over. -/
theorem phrase_out {x p front y : Bytes} (heq : x ++ p = front) (z : Bytes) :
    z ++ (front ++ y) = z ++ x ++ (p ++ y) := by
  rw [← heq]
  simp

/-- An address and what stands around it. -/
theorem Form.Tame.hack {form : Form} (h : form.Tame start a after)
    (hwell : form.WellFormed) (htext : AddrText k₀ a) (hne : a ≠ []) (hv : start.Holds v)
    (hd : v.parendepth = 0) (ht : Blanks trail) (he : EndsEntry b s) (hhost : comma ∉ host)
    (hrun : hackLoop host capacity (form.render a ++ (trail ++ b :: s)) v = some w) :
    ∃ out, form.Hacked host a out ∧
      Resumes host capacity s (v.before ++ (out ++ (trail ++ [b]))) after w := by
  cases h with
  | bare hs h => exact ⟨_, .address .bare, h.hack_start hs hv hd htext hne ht he hhost hrun⟩
  | commentAfter hs h hcend =>
    rw [render_commentAfter] at hrun
    exact h.hack_after hs hcend hv hd htext hne hwell.1 hwell.2 ht he hhost hrun
  | commentAfterComma hs h ha hcend =>
    rw [render_commentAfter] at hrun
    refine ⟨_, .address _, ?_⟩
    rw [render_commentAfter, qualify_hosted ha]
    exact h.hack_after_comma hs hcend hv hd htext hne hwell.1 hwell.2 ht he hrun
  | commentBefore h =>
    obtain ⟨bf, nws, n, rfl, -⟩ := Start.clear_eq hv hd
    rw [render_commentBefore] at hrun
    refine ⟨_, .address _, ?_⟩
    rw [render_commentBefore]
    exact hwell.1.hack_addr hwell.2 h hne htext ht he hhost hrun
  | commentMissed hcend ha hpass =>
    obtain ⟨bf, bare, nws, pf, n, rfl, -⟩ := Start.missed_eq hv hd
    rw [render_commentBefore] at hrun
    refine ⟨_, .address _, ?_⟩
    rw [render_commentBefore, qualify_hosted ha]
    exact hwell.1.hack_missed hwell.2 hcend hpass ht he hrun
  | commentMissedComma hcend h =>
    obtain ⟨bf, bare, nws, pf, n, rfl, -⟩ := Start.missed_eq hv hd
    rw [render_commentBefore] at hrun
    refine ⟨_, .address _, ?_⟩
    rw [render_commentBefore]
    exact hwell.1.hack_missed_comma hwell.2 hcend h hne ht he hhost hrun
  | phrase hs hbang ha =>
    obtain ⟨x, p, bare, nws, n, heq, hp, rfl, hlast, hrun⟩ :=
      Form.hack_phrase hs hwell.1 hwell.2 hv hd hrun
    refine ⟨_, .address _, ?_⟩
    rw [render_phrase, phrase_out heq]
    exact hp.hack_addr hbang ha htext ht he hhost hlast hrun
  | phraseBang hs hbang ha hpass =>
    obtain ⟨x, p, bare, nws, n, heq, hp, rfl, hlast, hrun⟩ :=
      Form.hack_phrase hs hwell.1 hwell.2 hv hd hrun
    obtain ⟨bare', nws', hphrase⟩ := @PhraseText.hack_bang host capacity (v.before ++ x) bare nws n
      _ hp hbang hlast (langle :: (a ++ rangle :: (trail ++ b :: s)))
    have hlangle : Passing [langle] := fun x hx => by
      rw [List.mem_singleton.mp hx]
      decide
    rw [hphrase, ← List.singleton_append] at hrun
    have hend := hlangle.hack_angle hpass ht he
      (getLast_ne_of_append hlast fun x hx => (hp.chars x hx).1) hrun
    refine ⟨_, .address _, ?_⟩
    rw [render_phrase, qualify_hosted ha, phrase_out heq]
    simpa using hend
  | quotedPhrase ha =>
    obtain ⟨bf, nws, n, rfl, hlast⟩ := Start.clear_eq hv hd
    rw [render_quotedPhrase] at hrun
    refine ⟨_, .address _, ?_⟩
    rw [render_quotedPhrase]
    exact hwell.1.hack_addr hwell.2 ha htext ht he hhost hlast hrun
  -- without the first quote the phrase is read as words
  | words hs ha hq hquote =>
    rw [render_quotedPhrase] at hrun
    obtain ⟨bare, nws, n, henter⟩ := @Start.enter_quote host capacity v start hs hv hd _
    rw [henter] at hrun
    refine ⟨_, .address _, ?_⟩
    rw [render_quotedPhrase, qualify_hosted ha, List.append_cons]
    exact hq.hack_string hquote hwell.2 ht he (by rw [List.getLast?_concat]; decide) hrun
  | wordsHost hs ha hx hm hy hpass =>
    rw [render_quotedPhrase, List.append_assoc, List.cons_append] at hrun
    obtain ⟨bare, nws, n, henter⟩ := @Start.enter_quote host capacity v start hs hv hd _
    rw [henter] at hrun
    refine ⟨_, .address _, ?_⟩
    rw [render_quotedPhrase, qualify_hosted ha, List.append_assoc, List.cons_append,
      List.append_cons]
    exact hx.hack_host hm hy hwell.2 hpass ht he (by rw [List.getLast?_concat]; decide) hrun
  | openAddr hb ha hangle hsum =>
    refine ⟨_, .address _, ?_⟩
    rw [qualify_hosted ha]
    exact Form.hack_open hb hwell hne htext hangle hsum hv hd ht he hrun
  | openPhrase hbang ha =>
    obtain ⟨hfirst, hwords⟩ := hwell
    have hchars := (PhraseText.char hfirst hwords).chars
    have hnone := hbang.imp_right fun hbang => hasHost_of_forall fun x hx =>
      ⟨(hchars x hx).2.2.2.2, fun heq => hbang (heq ▸ hx)⟩
    have hplain : ∀ x ∈ _, x ≠ lparen ∧ x ≠ rparen := fun x hx =>
      ⟨(hchars x hx).2.1, (hchars x hx).2.2.1⟩
    rw [render_phrase] at hrun
    refine ⟨_, .address _, ?_⟩
    rw [render_phrase]
    exact ha.hack_front htext (by rintro y ⟨⟩; exact hplain _ List.mem_cons_self)
      (fun hmem => (hchars _ hmem).2.2.2.1 rfl) (parenSum_zero hplain) hnone hv hd ht he hhost hrun
  | @openQuoted _ q u hangle hsum hq ha =>
    have hbytes : ∀ x y, Form.render x (.quotedPhrase q u) ++ y =
        (dquote :: (q ++ dquote :: u)) ++ langle :: (x ++ rangle :: y) := by
      intro x y
      simp [Form.render]
    rw [hbytes] at hrun
    refine ⟨_, .address _, ?_⟩
    rw [hbytes]
    exact QuotedText.hack_front hangle hsum hq hwell.2 ha htext hv hd ht he hhost hrun
  | openString ha hquote =>
    obtain ⟨bf, bare, nws, n, rfl⟩ := Start.string_eq hv hd
    refine ⟨_, .address _, ?_⟩
    rw [qualify_hosted ha]
    exact resumes_string hquote ht he hrun

theorem SeekAddr.hosted (h : SeekAddr k₁ k k' a) (hk : k₁ = true) : hasHost a = true := by
  induction h with
  | nil => cases hk
  | char _ _ _ _ ih => rw [hasHost_cons, ih hk, Bool.or_true]
  | host hb _ => rw [hasHost_cons, decide_eq_true hb, Bool.true_or]
  | quoted _ _ ih => rw [hasHost_cons, hasHost_append, hasHost_cons, ih hk]; simp

/-- An address in brackets, without a phrase. -/
theorem Angle.Tame.hack (h : Angle.Tame start a after) (htext : AddrText k₀ a)
    (hv : start.Holds v) (hd : v.parendepth = 0) (ht : Blanks trail) (he : EndsEntry b s)
    (hhost : comma ∉ host)
    (hrun : hackLoop host capacity (langle :: (a ++ rangle :: (trail ++ b :: s))) v = some w) :
    Resumes host capacity s
      (v.before ++ langle :: (qualify host a ++ rangle :: (trail ++ [b]))) after w := by
  cases h with
  | angle hs ha =>
    rcases hs with rfl | rfl
    · obtain ⟨bf, nws, n, rfl, hlast⟩ := Start.clear_eq hv hd
      exact ha.hack_langle htext ht he hhost hlast hrun
    · have hnone : hasHost [] = false := rfl
      exact ha.hack_front htext (by rintro y ⟨⟩; decide) List.not_mem_nil rfl (.inr hnone) hv hd ht
        he hhost hrun
  -- the address is read outside of brackets
  | missed h =>
    obtain ⟨bf, bare, nws, pf, n, rfl, hlast⟩ := Start.missed_eq hv hd
    have hlast' : (bf ++ [langle]).getLast? ≠ some comma := by
      rw [List.getLast?_concat]
      decide
    obtain ⟨nws', hacks, -⟩ :=
      @SeekAddr.hack host capacity (bf ++ [langle]) nws n _ _ _ a h hlast'
    have hrangle : Passing [rangle] := fun x hx => by
      rw [List.mem_singleton.mp hx]
      decide
    have hlast₂ : (bf ++ [langle] ++ a ++ [rangle]).getLast? ≠ some comma := by
      rw [List.getLast?_concat]
      decide
    rw [hackLoop, hackStep_reset (by decide) (by decide) hlast (.inl rfl), Option.bind_some,
      hacks _ (.inl rfl), ← List.singleton_append,
      hackLoop_seen hrangle _ (h.append_last hlast')] at hrun
    have hend := resumes_seen ht he hlast₂ hrun
    rw [qualify_hosted (h.hosted rfl)]
    simpa using hend
  | string ha hquote =>
    obtain ⟨bf, bare, nws, n, rfl⟩ := Start.string_eq hv hd
    have hall : dquote ∉ langle :: (a ++ [rangle]) := by
      simp only [List.mem_append, List.mem_cons, List.not_mem_nil, or_false, not_or]
      exact ⟨by decide, hquote, by decide⟩
    have hsame : qualify host a = a := by
      rcases ha with ha | rfl
      · exact qualify_hosted ha
      · rfl
    have htext' : langle :: (a ++ rangle :: (trail ++ b :: s)) =
        (langle :: (a ++ [rangle])) ++ (trail ++ b :: s) := by simp
    rw [htext'] at hrun
    have hend := resumes_string hall ht he hrun
    rw [hsame]
    simpa using hend

/-- **An item.** -/
theorem Item.Tame.hack {i : Item} (h : i.Tame start after) (hv : start.Holds v)
    (hd : v.parendepth = 0) (he : EndsEntry b s) (hhost : comma ∉ host)
    (hrun : hackLoop host capacity (i.render i.addr ++ (i.trail ++ b :: s)) v = some w) :
    ∃ out, i.Hacked host out ∧
      Resumes host capacity s (v.before ++ (out ++ (i.trail ++ [b]))) after w := by
  cases i with
  | entry e => exact Form.Tame.hack h e.wellFormed e.text e.nonempty hv hd e.trails he hhost hrun
  | angle x =>
    have htext : (Item.angle x).render x.addr ++ (x.trail ++ b :: s) =
        langle :: (x.addr ++ rangle :: (x.trail ++ b :: s)) := by
      simp [Item.render]
    have hend := Angle.Tame.hack h x.text hv hd x.trails he hhost (htext ▸ hrun)
    refine ⟨_, rfl, ?_⟩
    simpa [Item.trail] using hend

end

end

end Fetchmail.Rfc822
