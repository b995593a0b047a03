import Fetchmail.Rfc822.HackRuns

/-!
# Addresses in the Loop of `reply_hack`

What the loop of `reply_hack` makes of the address of an item. Without brackets, quotes are heeded up
to the host part, and `@host` is put in where the item ends, if a name has been seen and no host
part; before a comment that can be behind the comment. In brackets quotes are not heeded, and
`@host` is put in before the closing one.
-/

namespace Fetchmail.Rfc822

open Fetchmail.Lib

section

variable {host : Bytes} {capacity : Nat} {b : UInt8} {s bf : Bytes} {st : HackState}
  {bare hp : Bool} {nws : UInt8} {pf : Option Nat} {n : Nat} {h k k' : Bool} {a : Bytes}

/-! ## Addresses without brackets -/

/-- Text that makes no difference behind a host part. -/
def Passing (s : Bytes) : Prop := ∀ b ∈ s, b ≠ comma ∧ b ≠ lparen ∧ b ≠ rparen

/-- An address without brackets. What is in quotes in front of the host part counts neither as a
host part nor as a name, but a comma in it clears what was seen of the name. Behind the host part
quotes are not heeded. -/
inductive SeekAddr : (hosted bare bare' : Bool) → Bytes → Prop where
  | nil {k : Bool} : SeekAddr false k k []
  | char {h k k' : Bool} {b : UInt8} {s : Bytes} (hb : AddrChar b) (hat : b ≠ atSign)
      (hbang : b ≠ bang) (hs : SeekAddr h true k' s) : SeekAddr h k k' (b :: s)
  | host {k : Bool} {b : UInt8} {s : Bytes} (hb : b = atSign ∨ b = bang) (hs : Passing s) :
      SeekAddr true k k (b :: s)
  | quoted {h k k' : Bool} {q s : Bytes} (hq : QuotedText q)
      (hs : SeekAddr h (k && decide (comma ∉ q)) k' s) :
      SeekAddr h k k' (dquote :: (q ++ dquote :: s))

namespace SeekAddr

theorem head (ha : SeekAddr h k k' (b :: s)) :
    b ≠ comma ∧ b ≠ lparen ∧ b ≠ rparen ∧ b ≠ rangle := by
  cases ha with
  | char hb => exact ⟨hb.plain.comma, hb.plain.lparen, hb.rparen, hb.plain.rangle⟩
  | host hb => rcases hb with rfl | rfl <;> decide
  | quoted => decide

theorem append_last (ha : SeekAddr h k k' a) (hlast : bf.getLast? ≠ some comma) :
    (bf ++ a).getLast? ≠ some comma := by
  induction ha generalizing bf with
  | nil => rwa [List.append_nil]
  | @char h k k' b a hb _ _ _ ih =>
    rw [List.append_cons]
    exact ih (getLast_ne_of_append hlast (by simpa using hb.plain.comma))
  | @host k b a hb hs =>
    apply getLast_ne_of_append hlast
    rw [List.forall_mem_cons]
    refine ⟨?_, fun x hx => (hs x hx).1⟩
    rcases hb with rfl | rfl <;> decide
  | @quoted h k k' q a _ _ ih =>
    have hlast' : (bf ++ dquote :: (q ++ [dquote])).getLast? ≠ some comma := by
      rw [← List.cons_append, ← List.append_assoc, List.getLast?_concat]
      decide
    have hassoc : bf ++ dquote :: (q ++ dquote :: a) = bf ++ dquote :: (q ++ [dquote]) ++ a := by
      simp
    rw [hassoc]
    exact ih hlast'

/-- The walk stops at the last character. -/
theorem last_char (ha : SeekAddr h k k' a) (hlocal : h = false) (hne : a ≠ []) :
    ∃ x c, a = x ++ [c] ∧ Bytes.isspace c = false ∧ c ≠ comma := by
  induction ha with
  | nil => exact absurd rfl hne
  | @char h k k' b s hb _ _ _ ih =>
    by_cases hs : s = []
    · exact ⟨[], b, by rw [hs]; rfl, hb.plain.isspace, hb.plain.comma⟩
    · obtain ⟨x, c, rfl, hc⟩ := ih hlocal hs
      exact ⟨b :: x, c, rfl, hc⟩
  | host => cases hlocal
  | @quoted h k k' q s _ _ ih =>
    by_cases hs : s = []
    · exact ⟨dquote :: q, dquote, by rw [hs]; rfl, by decide⟩
    · obtain ⟨x, c, rfl, hc⟩ := ih hlocal hs
      exact ⟨dquote :: (q ++ dquote :: x), c, by simp, hc⟩

end SeekAddr

/-- The last character that is no blank ends no group and no comment. -/
def Plainly (nws : UInt8) : Prop := nws ≠ semicolon ∧ nws ≠ rparen

/-- An address outside of brackets. A comment behind it makes a difference only if there is no
host part. -/
theorem SeekAddr.hack (ha : SeekAddr h k k' a) (hlast : bf.getLast? ≠ some comma) :
    ∃ nws', (∀ s, h = true ∨ Bytes.charAt s 0 ≠ lparen →
        hackLoop host capacity (a ++ s) ⟨bf, .seekAddress, 0, k, false, nws, none, n⟩ =
          hackLoop host capacity s ⟨bf ++ a, .seekAddress, 0, k', h, nws', none, n⟩) ∧
      (a ≠ [] ∨ Plainly nws → Plainly nws') := by
  induction ha generalizing bf nws with
  | nil =>
    refine ⟨nws, fun s _ => ?_, fun hor => hor.resolve_left fun hne => hne rfl⟩
    rw [List.nil_append, List.append_nil]
  -- the character is part of a bare name
  | @char h k k' b a hb hat hbang ha ih =>
    have hlast' : (bf ++ [b]).getLast? ≠ some comma :=
      getLast_ne_of_append hlast (by simpa using hb.plain.comma)
    obtain ⟨nws', hrun, hnws⟩ := @ih (bf ++ [b]) b hlast'
    refine ⟨nws', fun s hs => ?_, fun _ => hnws (.inr ⟨hb.semicolon, hb.rparen⟩)⟩
    have hnext : Bytes.charAt (a ++ s) 0 ≠ lparen := by
      cases a with
      | nil =>
        cases ha
        exact hs.resolve_left Bool.false_ne_true
      | cons c a => exact ha.head.2.1
    rw [List.cons_append, hackLoop, hackStep_word (hb.word hat hbang) (.inl hnext) hlast,
      Option.bind_some, hrun s hs, List.append_assoc]
    rfl
  -- the rest is passed over
  | @host k b a hb hrest =>
    have hne : b ≠ comma ∧ Plainly b := by
      rcases hb with rfl | rfl
      · exact ⟨by decide, by decide, by decide⟩
      · exact ⟨by decide, by decide, by decide⟩
    have hlast' : (bf ++ [b]).getLast? ≠ some comma :=
      getLast_ne_of_append hlast (by simpa using hne.1)
    refine ⟨b, fun s _ => ?_, fun _ => hne.2⟩
    rw [List.cons_append, hackLoop, hackStep_host hb hlast, Option.bind_some,
      hackLoop_seen hrest s hlast', List.append_assoc]
    rfl
  -- in the string only the flag for the bare name can change
  | @quoted h k k' q a hq ha ih =>
    have hlast' : (bf ++ dquote :: (q ++ [dquote])).getLast? ≠ some comma := by
      rw [← List.cons_append, ← List.append_assoc, List.getLast?_concat]
      decide
    obtain ⟨nws', hrun, hnws⟩ := @ih (bf ++ dquote :: (q ++ [dquote])) dquote hlast'
    refine ⟨nws', fun s hs => ?_, fun _ => hnws (.inr ⟨by decide, by decide⟩)⟩
    have htext : dquote :: (q ++ dquote :: a) ++ s = dquote :: (q ++ dquote :: (a ++ s)) := by simp
    rw [htext, hq.hack_seek hlast, hrun s hs]
    simp

/-! ## The end of an item -/

/-- What ends an item: a comma, or the end of the header. -/
def EndsEntry (b : UInt8) (s : Bytes) : Prop := b = comma ∨ b = Bytes.lf ∧ headerEnd (b :: s) = true

theorem EndsEntry.ne (h : EndsEntry b s) : b ≠ lparen ∧ b ≠ rparen ∧ b ≠ rangle ∧ b ≠ dquote := by
  rcases h with rfl | ⟨rfl, -⟩ <;> decide

/-- How the loop leaves an item. -/
inductive Behind where
  /-- a host part has been seen, or put in -/
  | seen
  /-- there is none, and no bare name either -/
  | idle
  /-- it is still in the brackets -/
  | brackets
  /-- it is still in a string -/
  | string

def Behind.Holds : Behind → HackVars → Prop
  | .seen, v => v.state = .seekAddress ∧ v.hasHostPart = true
  | .idle, v => v.state = .seekAddress ∧ v.hasHostPart = false
  | .brackets, v => v.state = .inBrackets
  | .string, v => v.state = .inString ∧ v.hasHostPart = false ∧ v.parensFrom = none

/-- Behind the end of an item, with `out` made of the header so far, the loop comes to `w` from what
is left of it. -/
def Resumes (host : Bytes) (capacity : Nat) (s out : Bytes) (after : Behind) (w : HackVars) : Prop :=
  ∃ v : HackVars, v.before = out ∧ v.parendepth = 0 ∧ after.Holds v ∧
    hackLoop host capacity s v = some w

section

variable {w : HackVars} {trail : Bytes}

theorem blank_seen {u : Bytes} (h : Blanks u) : Passing u := by
  intro b hb
  obtain ⟨hcomma, hl, hr, -⟩ := isspace_ne_parens (h.isspace b hb)
  exact ⟨hcomma, hl, hr⟩

theorem EndsEntry.head (h : EndsEntry b s) {u : Bytes} (hu : Blanks u) :
    Bytes.charAt (u ++ b :: s) 0 ≠ lparen :=
  charAt_append (head_ne_lparen fun x hx => (blank_seen hu x hx).2.1) h.ne.1

/-- Behind the host part. -/
theorem resumes_seen (hw : Blanks trail) (h : EndsEntry b s) (hlast : bf.getLast? ≠ some comma)
    (hrun : hackLoop host capacity (trail ++ b :: s)
      ⟨bf, .seekAddress, 0, bare, true, nws, pf, n⟩ = some w) :
    Resumes host capacity s (bf ++ (trail ++ [b])) .seen w := by
  have hlast' : (bf ++ trail).getLast? ≠ some comma :=
    getLast_ne_of_append hlast fun x hx => (blank_seen hw x hx).1
  rw [hackLoop_seen (blank_seen hw) _ hlast, hackLoop, hackStep_seen h.ne.1 h.ne.2.1 hlast',
    Option.bind_some, List.append_assoc] at hrun
  exact ⟨_, rfl, rfl, ⟨rfl, rfl⟩, hrun⟩

theorem hackStep_idle (h : EndsEntry b s) (hlast : bf.getLast? ≠ some comma) :
    ∃ bare' nws', hackStep host capacity b s ⟨bf, .seekAddress, 0, false, false, nws, none, n⟩ =
      some ⟨bf ++ [b], .seekAddress, 0, bare', false, nws', none, n⟩ := by
  have hchars : b ≠ lparen ∧ b ≠ rparen ∧ b ≠ langle ∧ ¬ (b = atSign ∨ b = bang) ∧ b ≠ dquote := by
    rcases h with rfl | ⟨rfl, -⟩ <;> decide
  refine ⟨!Bytes.isspace b, if Bytes.isspace b then nws else b, ?_⟩
  cases hb : Bytes.isspace b <;>
    simp [hackStep, countParens, hackSwitch, seekStep, seekCase, noteNws, passComma, hb, hlast,
      hchars.1, hchars.2.1, hchars.2.2.1, hchars.2.2.2.1, hchars.2.2.2.2]

/-- Where there is neither a host part nor a name, nothing is put in. -/
theorem resumes_idle (hw : Blanks trail) (h : EndsEntry b s) (hlast : bf.getLast? ≠ some comma)
    (hrun : hackLoop host capacity (trail ++ b :: s)
      ⟨bf, .seekAddress, 0, false, false, nws, none, n⟩ = some w) :
    Resumes host capacity s (bf ++ (trail ++ [b])) .idle w := by
  have hlast' : (bf ++ trail).getLast? ≠ some comma :=
    getLast_ne_of_append hlast fun x hx => (blank_seen hw x hx).1
  obtain ⟨bare', nws', hstep⟩ := @hackStep_idle host capacity b s (bf ++ trail) nws n h hlast'
  rw [hw.hack _ hlast, if_neg fun hparen => Bool.false_ne_true hparen.2.2.1, hackLoop, hstep,
    Option.bind_some, List.append_assoc] at hrun
  exact ⟨_, rfl, rfl, ⟨rfl, rfl⟩, hrun⟩

/-- The end of a local address. `y` is what the walk goes over, and `z` what stands behind the
address. -/
theorem resumes_local {x y z : Bytes} {c : UInt8} (h : EndsEntry b s) (hhost : comma ∉ host)
    (hc : Bytes.isspace c = false) (hcomma : c ≠ comma) (hy : Skipped y)
    (hlast : (x ++ [c] ++ z).getLast? ≠ some comma) (hnws : nws ≠ semicolon)
    (haddr : addressText ⟨x ++ [c] ++ z, .seekAddress, 0, true, false, nws, pf, n⟩ = x ++ [c] ++ y)
    (hrun : hackLoop host capacity (b :: s)
      ⟨x ++ [c] ++ z, .seekAddress, 0, true, false, nws, pf, n⟩ = some w) :
    Resumes host capacity s (x ++ [c] ++ atSign :: host ++ z ++ [b]) .seen w := by
  have hplace : walkBack (addressText ⟨x ++ [c] ++ z, .seekAddress, 0, true, false, nws, pf, n⟩) =
      some (x ++ [c]).length := by
    rw [haddr, walkBack_append hc hcomma hy]
  rw [hackLoop] at hrun
  obtain ⟨v, hstep, hloop⟩ := Option.bind_eq_some_iff.mp hrun
  have hb : b = comma ∨ b = Bytes.lf := h.imp_right fun h => h.1
  have hend : b = Bytes.lf → headerEnd (b :: s) = true ∧ nws ≠ semicolon := by
    rintro rfl
    have hne : Bytes.lf ≠ comma := by decide
    exact ⟨(h.resolve_left hne).2, hnws⟩
  obtain ⟨nws', rfl⟩ := hackStep_end hb hend hhost hlast hplace hstep
  rw [List.take_left, List.drop_left] at hloop
  exact ⟨_, rfl, rfl, ⟨rfl, rfl⟩, hloop⟩

/-! ## Addresses and comments -/

/-- What is put in behind an address. -/
def addition (host a : Bytes) : Bytes := if a = [] ∨ hasHost a then [] else atSign :: host

theorem qualify_eq (host a : Bytes) : qualify host a = a ++ addition host a := by
  unfold qualify addition
  split
  · rw [List.append_nil]
  · rfl

theorem qualify_hosted (ha : hasHost a = true) : qualify host a = a := if_pos (.inr ha)

theorem qualify_local (hne : a ≠ []) (ha : hasHost a = false) :
    qualify host a = a ++ atSign :: host := by
  rw [qualify, if_neg (by simp [hne, ha])]

theorem addition_hosted (ha : hasHost a = true) : addition host a = [] := if_pos (.inr ha)

theorem addition_local (hne : a ≠ []) (ha : hasHost a = false) :
    addition host a = atSign :: host := by
  rw [addition, if_neg (by simp [hne, ha])]

/-- The loop puts something in behind the address exactly if that is a local one: a host part, or
the lack of a name, keeps it from that. It looks at `t` of the address, from a start with `k`. -/
inductive Settled (a : Bytes) : (k : Bool) → (t : Bytes) → Behind → Prop where
  | hosted {k k' : Bool} {t : Bytes} (ht : SeekAddr true k k' t) (ha : hasHost a = true) :
      Settled a k t .seen
  | named {k : Bool} {t : Bytes} (ht : SeekAddr false k true t) (ha : hasHost a = false) :
      Settled a k t .seen
  | nameless {k : Bool} {t : Bytes} (ht : SeekAddr false k false t) (ha : hasHost a = true) :
      Settled a k t .idle

section

variable {t trail u c : Bytes} {w : HackVars} {after : Behind}

/-- An address that is followed by blanks and the end of the item. -/
theorem Settled.hack (h : Settled a k t after) (hne : a ≠ []) (htne : k = true → t ≠ [])
    (ht : Blanks trail) (he : EndsEntry b s) (hhost : comma ∉ host)
    (hlast : bf.getLast? ≠ some comma)
    (hrun : hackLoop host capacity (t ++ (trail ++ b :: s))
      ⟨bf, .seekAddress, 0, k, false, nws, none, n⟩ = some w) :
    Resumes host capacity s (bf ++ (t ++ (addition host a ++ (trail ++ [b])))) after w := by
  cases h with
  | hosted hseek ha =>
    obtain ⟨nws', hacks, -⟩ := @SeekAddr.hack host capacity bf nws n _ _ _ t hseek hlast
    rw [hacks _ (.inl rfl)] at hrun
    rw [addition_hosted ha, List.nil_append, ← List.append_assoc]
    exact resumes_seen ht he (hseek.append_last hlast) hrun
  -- the walk back stops at the last character of the address
  | named hseek ha =>
    have hne' : t ≠ [] := by
      rintro rfl
      cases hseek
      exact htne rfl rfl
    obtain ⟨nws', hacks, hnws⟩ := @SeekAddr.hack host capacity bf nws n _ _ _ t hseek hlast
    have hlast' := hseek.append_last hlast
    obtain ⟨x, c, rfl, hc, hcomma⟩ := hseek.last_char rfl hne'
    rw [hacks _ (.inr (he.head ht)), ht.hack _ hlast', if_neg fun hparen => he.ne.1 hparen.2.1,
      ← List.append_assoc] at hrun
    have hend := resumes_local he hhost hc hcomma ht.isspace (by
      rw [List.append_assoc bf x]
      exact getLast_ne_of_append hlast' fun y hy => (blank_seen ht y hy).1)
      (hnws (.inl hne')).1 rfl hrun
    rw [addition_local hne ha]
    simpa using hend
  | nameless hseek ha =>
    obtain ⟨nws', hacks, -⟩ := @SeekAddr.hack host capacity bf nws n _ _ _ t hseek hlast
    rw [hacks _ (.inr (he.head ht))] at hrun
    rw [addition_hosted ha, List.nil_append, ← List.append_assoc]
    exact resumes_idle ht he (hseek.append_last hlast) hrun

/-- A local address right before a comment. Its end is noted if it is outside of quotes and not the
first that is. -/
theorem SeekAddr.hack_paren (ha : SeekAddr h k k' t) (hlocal : h = false)
    (hlast : bf.getLast? ≠ some comma) :
    ∃ bare' nws' pf', (∀ y, hackLoop host capacity (t ++ lparen :: y)
        ⟨bf, .seekAddress, 0, k, false, nws, none, n⟩ =
      hackLoop host capacity (lparen :: y)
        ⟨bf ++ t, .seekAddress, 0, bare', false, nws', pf', n⟩) ∧
      (pf' = none ∨ pf' = some (bf ++ t).dropLast.length ∧ t ≠ []) := by
  induction ha generalizing bf nws with
  | @nil k =>
    refine ⟨k, nws, none, fun y => ?_, .inl rfl⟩
    rw [List.nil_append, List.append_nil]
  | @char h k k' b t hb hat hbang ha ih =>
    have hlast' : (bf ++ [b]).getLast? ≠ some comma :=
      getLast_ne_of_append hlast (by simpa using hb.plain.comma)
    by_cases hnil : t = []
    -- the last character
    · subst hnil
      cases k with
      | true =>
        refine ⟨true, b, some bf.length, fun y => ?_, .inr ⟨by simp, List.cons_ne_nil _ _⟩⟩
        rw [List.singleton_append, hackLoop, hackStep_before hb hat hbang rfl hlast,
          Option.bind_some]
      | false =>
        refine ⟨true, b, none, fun y => ?_, .inl rfl⟩
        rw [List.singleton_append, hackLoop, hackStep_word (hb.word hat hbang) (.inr rfl) hlast,
          Option.bind_some]
    · obtain ⟨bare', nws', pf', hrun, hplace⟩ := @ih (bf ++ [b]) b hlocal hlast'
      have hassoc : bf ++ b :: t = bf ++ [b] ++ t := by simp
      rw [hassoc]
      refine ⟨bare', nws', pf', fun y => ?_,
        hplace.imp_right fun hplace => ⟨hplace.1, List.cons_ne_nil _ _⟩⟩
      obtain ⟨c, t, rfl⟩ := List.exists_cons_of_ne_nil hnil
      have hnext : Bytes.charAt (c :: t ++ lparen :: y) 0 ≠ lparen := ha.head.2.1
      rw [List.cons_append, hackLoop, hackStep_word (hb.word hat hbang) (.inl hnext) hlast,
        Option.bind_some, hrun]
  | host => cases hlocal
  | @quoted h k k' q t hq ha ih =>
    have hlast' : (bf ++ dquote :: (q ++ [dquote])).getLast? ≠ some comma := by
      rw [← List.cons_append, ← List.append_assoc, List.getLast?_concat]
      decide
    obtain ⟨bare', nws', pf', hrun, hplace⟩ :=
      @ih (bf ++ dquote :: (q ++ [dquote])) dquote hlocal hlast'
    have hassoc : bf ++ dquote :: (q ++ dquote :: t) = bf ++ dquote :: (q ++ [dquote]) ++ t := by
      simp
    rw [hassoc]
    refine ⟨bare', nws', pf', fun y => ?_,
      hplace.imp_right fun hplace => ⟨hplace.1, List.cons_ne_nil _ _⟩⟩
    have htext : dquote :: (q ++ dquote :: t) ++ lparen :: y =
        dquote :: (q ++ dquote :: (t ++ lparen :: y)) := by simp
    rw [htext, hq.hack_seek hlast, hrun]

/-- A local address and the blanks before a comment. The place before the comment is noted, or it is
not. -/
theorem SeekAddr.hack_before (ha : SeekAddr false false k' t) (hu : Blanks u)
    (hlast : bf.getLast? ≠ some comma) (y : Bytes) :
    ∃ bare' nws' pf', hackLoop host capacity (t ++ (u ++ lparen :: y))
        ⟨bf, .seekAddress, 0, false, false, nws, none, n⟩ =
      hackLoop host capacity (lparen :: y)
        ⟨bf ++ t ++ u, .seekAddress, 0, bare', false, nws', pf', n⟩ ∧
      (pf' = none ∨ pf' = some (bf ++ t ++ u).dropLast.length ∧ t ≠ []) := by
  by_cases hune : u = []
  · obtain ⟨bare', nws', pf', hrun, hplace⟩ :=
      @SeekAddr.hack_paren host capacity bf nws n _ _ _ t ha rfl hlast
    rw [hune, List.nil_append, List.append_nil]
    exact ⟨bare', nws', pf', hrun y, hplace⟩
  · obtain ⟨nws', hacks, -⟩ := @SeekAddr.hack host capacity bf nws n _ _ _ t ha hlast
    have hnext : Bytes.charAt (u ++ lparen :: y) 0 ≠ lparen := by
      obtain ⟨x, u, rfl⟩ := List.exists_cons_of_ne_nil hune
      exact (blank_seen hu x (List.mem_cons_self ..)).2.1
    rw [hacks _ (.inr hnext), hu.hack _ (ha.append_last hlast)]
    refine ⟨k', nws', _, rfl, ?_⟩
    split
    · refine .inr ⟨rfl, ?_⟩
      rename_i hnoted
      rintro rfl
      cases ha
      exact Bool.false_ne_true hnoted.2.2.1
    · exact .inl rfl

/-- What is made of an address and what stands around it: `@host` is put in behind a local address,
or behind the comment that follows it. -/
inductive Form.Hacked (host a : Bytes) : Form → Bytes → Prop where
  | address (form : Form) : Form.Hacked host a form (form.render (qualify host a))
  | comment (u c : Bytes) (hne : a ≠ []) (ha : hasHost a = false) :
      Form.Hacked host a (.commentAfter u c)
        (a ++ (u ++ lparen :: (c ++ rparen :: (atSign :: host))))

/-- An address that is followed by a comment. `x` is what the loop has passed over of it. -/
theorem SeekAddr.hack_comment {x : Bytes} (ha : SeekAddr (hasHost (x ++ t)) false k' t)
    (hne : x ++ t ≠ []) (hu : Blanks u) (hc : CommentText c) (hcend : c.getLast? ≠ some comma)
    (ht : Blanks trail) (he : EndsEntry b s) (hhost : comma ∉ host)
    (hlast : (bf ++ x).getLast? ≠ some comma)
    (hrun : hackLoop host capacity (t ++ (u ++ lparen :: (c ++ rparen :: (trail ++ b :: s))))
      ⟨bf ++ x, .seekAddress, 0, false, false, nws, none, n⟩ = some w) :
    ∃ out, Form.Hacked host (x ++ t) (.commentAfter u c) out ∧
      Resumes host capacity s (bf ++ (out ++ (trail ++ [b]))) .seen w := by
  have hlastc : (bf ++ x ++ t ++ u ++ lparen :: (c ++ [rparen])).getLast? ≠ some comma := by
    rw [← List.cons_append, ← List.append_assoc, List.getLast?_concat]
    decide
  have hlastt : (bf ++ x ++ t).getLast? ≠ some comma := ha.append_last hlast
  cases hhosted : hasHost (x ++ t) with
  -- the rest of the item is passed over
  | true =>
    obtain ⟨nws', hacks, -⟩ := @SeekAddr.hack host capacity (bf ++ x) nws n _ _ _ t ha hlast
    rw [hacks _ (.inl hhosted), hhosted, hackLoop_seen (blank_seen hu) _ hlastt,
      hc.hack_passed hcend (by decide) (.inl rfl)] at hrun
    refine ⟨_, .address _, ?_⟩
    have hend := resumes_seen ht he hlastc hrun
    rw [Form.render, qualify_hosted hhosted]
    simpa using hend
  | false =>
    rw [hhosted] at ha
    obtain ⟨bare', nws₀, pf', hbefore, hplace⟩ := @SeekAddr.hack_before host capacity (bf ++ x) nws
      n _ t u ha hu hlast (c ++ rparen :: (trail ++ b :: s))
    rw [hbefore, hc.hack_seek hcend _ (he.head ht), ht.hack _ hlastc,
      if_neg fun hparen => he.ne.1 hparen.2.1] at hrun
    rcases hplace with rfl | ⟨rfl, htne⟩
    -- the walk back stops behind the comment
    · have htext : bf ++ x ++ t ++ u ++ lparen :: (c ++ [rparen]) ++ trail =
          (bf ++ x ++ t ++ u ++ lparen :: c) ++ [rparen] ++ trail := by simp
      have hlastall : ((bf ++ x ++ t ++ u ++ lparen :: c) ++ [rparen] ++ trail).getLast? ≠
          some comma := by
        rw [← htext]
        exact getLast_ne_of_append hlastc fun x hx => (blank_seen ht x hx).1
      rw [htext] at hrun
      have hend := resumes_local he hhost (by decide) (by decide) ht.isspace hlastall (by decide)
        rfl hrun
      refine ⟨_, .comment u c hne hhosted, ?_⟩
      simpa using hend
    -- the text up to the place that was noted in front of the parenthesis
    · obtain ⟨y, d, rfl, hd, hcomma⟩ := ha.last_char rfl htne
      have htext : bf ++ x ++ (y ++ [d]) ++ u ++ lparen :: (c ++ [rparen]) ++ trail =
          (bf ++ x ++ y) ++ [d] ++ (u ++ lparen :: (c ++ rparen :: trail)) := by simp
      have hlastall : ((bf ++ x ++ y) ++ [d] ++ (u ++ lparen :: (c ++ rparen :: trail))).getLast? ≠
          some comma := by
        rw [← htext]
        exact getLast_ne_of_append hlastc fun x hx => (blank_seen ht x hx).1
      rw [htext] at hrun
      have hplaced : addressText ⟨(bf ++ x ++ y) ++ [d] ++ (u ++ lparen :: (c ++ rparen :: trail)),
          .seekAddress, 0, true, false, rparen,
          some (bf ++ x ++ (y ++ [d]) ++ u).dropLast.length, n⟩ = (bf ++ x ++ y) ++ [d] ++ u := by
        have hlen : (bf ++ x ++ (y ++ [d]) ++ u).dropLast.length + 1 =
            ((bf ++ x ++ y) ++ [d] ++ u).length := by
          simp only [List.length_dropLast, List.length_append, List.length_singleton]
          omega
        show List.take ((bf ++ x ++ (y ++ [d]) ++ u).dropLast.length + 1) _ = _
        rw [hlen, ← List.append_assoc _ u, List.take_left]
      have hend := resumes_local he hhost hd hcomma hu.isspace hlastall (by decide) hplaced hrun
      refine ⟨_, .address _, ?_⟩
      rw [Form.render, qualify_local hne hhosted]
      simpa using hend

/-- An address with a comment that ends with a comma. -/
theorem SeekAddr.hack_comma (ha : SeekAddr h false k' t) (hu : Blanks u) (hc : CommentText c)
    (hcend : c.getLast? = some comma) (ht : Blanks trail) (he : EndsEntry b s)
    (hlast : bf.getLast? ≠ some comma)
    (hrun : hackLoop host capacity (t ++ (u ++ lparen :: (c ++ rparen :: (trail ++ b :: s))))
      ⟨bf, .seekAddress, 0, false, false, nws, none, n⟩ = some w) :
    Resumes host capacity s
      (bf ++ (t ++ (u ++ lparen :: (c ++ rparen :: (trail ++ [b]))))) .idle w := by
  obtain ⟨bare₁, nws₁, pf₁, hbefore⟩ : ∃ bare₁ nws₁ pf₁,
      hackLoop host capacity (t ++ (u ++ lparen :: (c ++ rparen :: (trail ++ b :: s))))
        ⟨bf, .seekAddress, 0, false, false, nws, none, n⟩ =
      hackLoop host capacity (lparen :: (c ++ rparen :: (trail ++ b :: s)))
        ⟨bf ++ t ++ u, .seekAddress, 0, bare₁, h, nws₁, pf₁, n⟩ := by
    -- the address may have its host already; up to the comment both are read alike
    cases h with
    | true =>
      obtain ⟨nws', hacks, -⟩ := @SeekAddr.hack host capacity bf nws n _ _ _ t ha hlast
      refine ⟨k', nws', none, ?_⟩
      rw [hacks _ (.inl rfl), hackLoop_seen (blank_seen hu) _ (ha.append_last hlast)]
    | false =>
      obtain ⟨bare', nws', pf', hbefore, -⟩ :=
        @SeekAddr.hack_before host capacity bf nws n _ t u ha hu hlast _
      exact ⟨bare', nws', pf', hbefore⟩
  obtain ⟨nws₂, hcomment⟩ := @CommentText.hack_comma host capacity (bf ++ t ++ u) bare₁ h nws₁ pf₁
    n c hc hcend
  have hlastc : (bf ++ t ++ u ++ lparen :: (c ++ [rparen])).getLast? ≠ some comma := by
    rw [← List.cons_append, ← List.append_assoc, List.getLast?_concat]
    decide
  rw [hbefore, hcomment] at hrun
  have hend := resumes_idle ht he hlastc hrun
  simpa using hend

/-- A comment in front of an address. It counts as a bare name, unless it ends with a comma. -/
theorem CommentText.hack_front (hc : CommentText c) (hs : Bytes.charAt s 0 ≠ lparen) :
    ∃ nws', hackLoop host capacity (lparen :: (c ++ rparen :: s))
        ⟨bf, .seekAddress, 0, false, false, nws, none, n⟩ =
      hackLoop host capacity s ⟨bf ++ lparen :: (c ++ [rparen]), .seekAddress, 0,
        decide (c.getLast? ≠ some comma), false, nws', none, n⟩ := by
  by_cases hcend : c.getLast? = some comma
  · obtain ⟨nws', hcomment⟩ :=
      @CommentText.hack_comma host capacity bf false false nws none n c hc hcend
    refine ⟨nws', ?_⟩
    rw [hcomment, decide_eq_false (not_not_intro hcend)]
  · refine ⟨rparen, ?_⟩
    rw [hc.hack_seek hcend s hs, decide_eq_true hcend]

end

/-! ## Addresses in brackets -/

/-- An address in brackets. Quotes are not heeded there, and a comma takes back what was seen of a
host part. -/
structure InBrackets (a : Bytes) : Prop where
  chars : ∀ b ∈ a, b ≠ lparen ∧ b ≠ rparen ∧ b ≠ rangle
  /-- behind each comma, and the character after it, there still is a host part -/
  seen : hasHost a = true → ∀ x y, a = x ++ comma :: y → hasHost y.tail = true

theorem AddrText.last_char {k : Bool} {a : Bytes} (h : AddrText k a) (hne : a ≠ []) :
    ∃ x c, a = x ++ [c] ∧ Bytes.isspace c = false ∧ c ≠ comma ∧ c ≠ langle := by
  induction h with
  | nil => exact absurd rfl hne
  | @char k b s hb _ ih =>
    by_cases hs : s = []
    · have hchar := (addrChar hb).plain
      exact ⟨[], b, by rw [hs]; rfl, hchar.isspace, hchar.comma, hchar.langle⟩
    · obtain ⟨x, c, rfl, hc⟩ := ih hs
      exact ⟨b :: x, c, rfl, hc⟩
  | @quoted k q s _ _ ih =>
    by_cases hs : s = []
    · exact ⟨dquote :: q, dquote, by rw [hs]; rfl, by decide⟩
    · obtain ⟨x, c, rfl, hc⟩ := ih hs
      exact ⟨dquote :: (q ++ dquote :: x), c, by simp, hc⟩

/-- How an address in brackets is left: only where something is put in are the brackets left, too. -/
def afterAngle (a : Bytes) : Behind := if hasHost a ∨ a = [] then .brackets else .seen

theorem parenSum_zero {x : Bytes} (hx : ∀ b ∈ x, b ≠ lparen ∧ b ≠ rparen) : parenSum x = 0 := by
  induction x with
  | nil => rfl
  | cons b x ih =>
    obtain ⟨hb, hx⟩ := List.forall_mem_cons.mp hx
    rw [parenSum, if_neg hb.1, if_neg hb.2, ih hx, Int.add_zero]

/-- The text behind the last comma. -/
theorem split_last_comma {x : Bytes} (hx : comma ∈ x) : ∃ y z, x = y ++ comma :: z ∧ comma ∉ z := by
  obtain ⟨y, z, heq, hnone⟩ := List.eq_append_cons_of_mem (List.mem_reverse.mpr hx)
  refine ⟨z.reverse, y.reverse, ?_, fun hmem => hnone (List.mem_reverse.mp hmem)⟩
  rw [← List.reverse_reverse x, heq]
  simp

theorem InBrackets.hack (ha : InBrackets a) (hlast : bf.getLast? ≠ some comma)
    (hflag : hasHost a = false → hp = false) (s : Bytes) :
    ∃ bare' pf', hackLoop host capacity (a ++ s) ⟨bf, .inBrackets, 0, bare, hp, nws, pf, n⟩ =
      hackLoop host capacity s ⟨bf ++ a, .inBrackets, 0, bare', hasHost a, nws, pf', n⟩ := by
  have hrangle : ∀ {x : Bytes}, x ⊆ a → rangle ∉ x :=
    fun hx hmem => (ha.chars _ (hx hmem)).2.2 rfl
  have hsum : ∀ {x : Bytes}, x ⊆ a → parenSum x = 0 := fun hx =>
    parenSum_zero fun b hb => ⟨(ha.chars b (hx hb)).1, (ha.chars b (hx hb)).2.1⟩
  have hplain : ∀ {x : Bytes}, x ⊆ a → comma ∉ x →
      ∀ b ∈ x, b ≠ comma ∧ b ≠ lparen ∧ b ≠ rparen ∧ b ≠ rangle := fun hx hcomma b hb =>
    ⟨fun heq => hcomma (heq ▸ hb), ha.chars b (hx hb)⟩
  cases hhosted : hasHost a with
  | false =>
    obtain ⟨bare', hp', pf', hrun, hnone⟩ := @hackLoop_within host capacity bf bare hp nws pf n 0 a
      (hrangle fun _ h => h)
    obtain rfl := hnone hhosted (hflag hhosted)
    refine ⟨bare', pf', ?_⟩
    rw [hrun, hsum fun _ h => h, Int.add_zero]
  | true =>
    by_cases hcomma : comma ∈ a
    -- the flags are cleared behind the last comma, and the host part comes after that
    · obtain ⟨x, y, heq, hy⟩ := split_last_comma hcomma
      have hseen := ha.seen hhosted x y heq
      obtain ⟨c, y, rfl⟩ : ∃ c z, y = c :: z := by
        cases y with
        | nil => cases hseen
        | cons c z => exact ⟨c, z, rfl⟩
      have htext : a = x ++ [comma] ++ (c :: y) := by rw [heq, List.append_cons]
      have hx : x ++ [comma] ⊆ a := htext ▸ List.subset_append_left _ _
      have hcy : c :: y ⊆ a := htext ▸ List.subset_append_right _ _
      obtain ⟨hcc, hl, hr, hangle⟩ := hplain hcy hy c List.mem_cons_self
      obtain ⟨bare₁, hp₁, pf₁, hrun, -⟩ :=
        @hackLoop_within host capacity bf bare hp nws pf n 0 (x ++ [comma]) (hrangle hx)
      have hlast₁ : (bf ++ (x ++ [comma])).getLast? = some comma := by
        rw [← List.append_assoc, List.getLast?_concat]
      have hlast₂ : (bf ++ (x ++ [comma]) ++ [c]).getLast? ≠ some comma := by
        rw [List.getLast?_concat]
        exact fun heq => hcc (Option.some.inj heq)
      refine ⟨false, none, ?_⟩
      rw [List.tail_cons] at hseen
      rw [htext, List.append_assoc, hrun, hsum hx, Int.add_zero, List.cons_append,
        hackLoop, hackStep_reset hl hr hlast₁ (.inr ⟨rfl, hangle⟩), Option.bind_some,
        hackLoop_brackets (fun b hb => hplain hcy hy b (List.mem_cons_of_mem c hb)) s hlast₂, hseen]
      simp
    · refine ⟨bare, pf, ?_⟩
      rw [hackLoop_brackets (hplain (fun _ h => h) hcomma) s hlast, hhosted, Bool.or_true]

section

variable {trail : Bytes} {w : HackVars}

/-- The end of an item, in brackets that were left open. -/
theorem resumes_brackets (ht : Blanks trail) (he : EndsEntry b s)
    (hrun : hackLoop host capacity (trail ++ b :: s)
      ⟨bf, .inBrackets, 0, bare, hp, nws, pf, n⟩ = some w) :
    Resumes host capacity s (bf ++ (trail ++ [b])) .brackets w := by
  have hrangle : rangle ∉ trail ++ [b] := by
    rw [List.mem_append, List.mem_singleton, not_or]
    exact ⟨fun hmem => (isspace_ne_parens (ht.isspace _ hmem)).2.2.2 rfl, he.ne.2.2.1.symm⟩
  have hsum : parenSum (trail ++ [b]) = 0 := by
    apply parenSum_zero
    intro x hx
    rcases List.mem_append.mp hx with hx | hx
    · exact (blank_seen ht x hx).2
    · rw [List.mem_singleton.mp hx]
      exact ⟨he.ne.1, he.ne.2.1⟩
  obtain ⟨bare', hp', pf', hloop, -⟩ :=
    @hackLoop_within host capacity bf bare hp nws pf n 0 (trail ++ [b]) hrangle
  rw [List.append_cons, hloop, hsum, Int.add_zero] at hrun
  refine ⟨_, rfl, rfl, ?_, hrun⟩
  rfl

/-- `addr>`, behind the opening bracket. -/
theorem InBrackets.hack_angle (ha : InBrackets a) (htext : AddrText k a) (ht : Blanks trail)
    (he : EndsEntry b s) (hhost : comma ∉ host) (hopen : bf.getLast? = some langle)
    (hflag : hasHost a = false → hp = false)
    (hrun : hackLoop host capacity (a ++ rangle :: (trail ++ b :: s))
      ⟨bf, .inBrackets, 0, bare, hp, nws, pf, n⟩ = some w) :
    Resumes host capacity s (bf ++ (qualify host a ++ rangle :: (trail ++ [b]))) (afterAngle a)
      w := by
  have hlast : bf.getLast? ≠ some comma := by
    rw [hopen]
    decide
  have hlast_rangle : ∀ x : Bytes, (x ++ [rangle]).getLast? ≠ some comma := by
    intro x
    rw [List.getLast?_concat]
    decide
  obtain ⟨bare₁, pf₁, hloop⟩ := ha.hack hlast hflag (rangle :: (trail ++ b :: s))
  rw [hloop] at hrun
  by_cases hne : a = []
  -- brackets around nothing are not left
  · subst hne
    have hnone : hasHost [] = false := rfl
    rw [List.append_nil, hnone, hackLoop, hackStep_null hopen, Option.bind_some] at hrun
    have hend := resumes_brackets ht he hrun
    simpa [afterAngle, qualify] using hend
  · obtain ⟨x, c, rfl, -, hcomma, hangle⟩ := htext.last_char hne
    have hlast' : (bf ++ (x ++ [c])).getLast? ≠ some comma := by
      rw [← List.append_assoc, List.getLast?_concat]
      exact fun heq => hcomma (Option.some.inj heq)
    cases hhosted : hasHost (x ++ [c]) with
    -- the `switch` is not run any more, so the state stays
    | true =>
      rw [hhosted, hackLoop, hackStep_seen (by decide) (by decide) hlast', Option.bind_some] at hrun
      have hend := resumes_brackets ht he hrun
      rw [qualify_hosted hhosted, afterAngle, if_pos (.inl hhosted)]
      simpa using hend
    | false =>
      have hangle' : (bf ++ (x ++ [c])).getLast? ≠ some langle := by
        rw [← List.append_assoc, List.getLast?_concat]
        exact fun heq => hangle (Option.some.inj heq)
      rw [hhosted, hackLoop] at hrun
      obtain ⟨v, hstep, hrest⟩ := Option.bind_eq_some_iff.mp hrun
      obtain rfl := hackStep_rangle (by simp) hangle' hlast' hhost hstep
      have hend := resumes_seen ht he (hlast_rangle _) hrest
      rw [qualify_local hne hhosted, afterAngle, if_neg (by simp [hhosted])]
      simpa using hend

end

end

end

end Fetchmail.Rfc822
