import Fetchmail.Lib.Bytes

/-!
# Address Lists

`nxtaddr` of `rfc822.c` yields the addresses of a header one by one. It is a state machine that
keeps its place, its state and the address it is collecting in static variables. On a header that
is built from renderings of addresses it yields these addresses, but for one slip: an address that
is a quoted string and nothing else is not ended by a comma.
-/

namespace Fetchmail.Rfc822

open Fetchmail.Lib

/-! ## The state machine -/

inductive HdrState where
  /-- before header colon -/
  | startHdr
  /-- skip whitespace, newlines, and junk -/
  | skipJunk
  /-- collecting address without delimiters -/
  | bareAddress
  /-- inside double quotes -/
  | insideDquote
  /-- inside parentheses -/
  | insideParens
  /-- inside bracketed address -/
  | insideBrackets
  /-- after last address -/
  | enditAll
  deriving DecidableEq, Repr

/-- The static variables but `hp`, with the first `tp` characters of `address`, and the local
`parendepth`. -/
structure AddrVars where
  state : HdrState
  oldstate : HdrState
  address : Bytes
  parendepth : Int
  deriving DecidableEq, Repr

def dquote : UInt8 := 34
def lparen : UInt8 := 40
def rparen : UInt8 := 41
def comma : UInt8 := 44
def colon : UInt8 := 58
def langle : UInt8 := 60
def rangle : UInt8 := 62
def backslash : UInt8 := 92

/-- `HEADER_END` -/
def headerEnd (hp : Bytes) : Bool :=
  Bytes.charAt hp 0 = Bytes.lf && Bytes.charAt hp 1 ≠ Bytes.space && Bytes.charAt hp 1 ≠ Bytes.tab

/-- `address[NEXTTP()] = c`. When the buffer is full, the character goes where the zero byte will
be. -/
def nexttp (bufsiz : Nat) (address : Bytes) (c : UInt8) : Bytes :=
  if address.length < bufsiz - 1 then address ++ [c] else address

/-- What `nxtaddr` returns. -/
inductive NxtReturn where
  | address (s : Bytes)
  | null
  /-- a backslash is the last character of the header: the loop goes on behind its zero byte -/
  | overread
  deriving DecidableEq, Repr

/-- What the loop does with a character. -/
inductive NxtStep where
  | go (v : AddrVars)
  /-- `return(address)`, with `hp` on the character or behind it -/
  | ret (s : Bytes) (behind : Bool) (v : AddrVars)

section

variable (bufsiz : Nat)

/-- `case BARE_ADDRESS` -/
def bareStep (b : UInt8) (v : AddrVars) : NxtStep :=
  if b = comma then
    if v.address ≠ [] then .ret v.address false { v with state := .skipJunk, address := [] }
    else .go v
  else if b = lparen then
    .go { v with parendepth := 1, oldstate := .bareAddress, state := .insideParens }
  else if b = langle then .go { v with state := .insideBrackets, address := [] }
  else if b = dquote then
    .go { v with oldstate := v.state, state := .insideDquote, address := nexttp bufsiz v.address b }
  else if Bytes.isspace b then .go v
  else .go { v with address := nexttp bufsiz v.address b }

/-- The `switch`. -/
def switchStep (b : UInt8) (v : AddrVars) : NxtStep :=
  match v.state with
  | .startHdr => if b = colon then .go { v with state := .skipJunk } else .go v
  | .skipJunk =>
    if b = dquote then
      .go { v with oldstate := .skipJunk, state := .insideDquote,
                   address := nexttp bufsiz v.address b }
    else if b = lparen then
      .go { v with parendepth := 1, oldstate := .skipJunk, state := .insideParens }
    else if b = langle then .go { v with state := .insideBrackets, address := [] }
    else if b ≠ comma ∧ Bytes.isspace b = false then
      -- `--hp`: the next round looks at the character again
      bareStep bufsiz b { v with state := .bareAddress }
    else .go v
  | .bareAddress => bareStep bufsiz b v
  | .insideDquote =>
    .go { v with address := nexttp bufsiz v.address b,
                 state := if b = dquote then v.oldstate else .insideDquote }
  | .insideParens =>
    let depth :=
      if b = lparen then v.parendepth + 1
      else if b = rparen then v.parendepth - 1
      else v.parendepth
    .go { v with parendepth := depth, state := if depth = 0 then v.oldstate else .insideParens }
  | .insideBrackets =>
    if b = rangle then .ret v.address true { v with state := .skipJunk, address := [] }
    else if b = langle then .go { v with address := [] }
    else if b = dquote then
      .go { v with address := nexttp bufsiz v.address b, oldstate := .insideBrackets,
                   state := .insideDquote }
    else .go { v with address := nexttp bufsiz v.address b }
  | .enditAll => .go v

/-- White space at the end goes. -/
def trimEnd (s : Bytes) : Bytes := (s.reverse.dropWhile Bytes.isspace).reverse

/-- The loop, from `hp` on. -/
def nxtLoop : (hp : Bytes) → AddrVars → NxtReturn × Bytes × AddrVars
  | [], v => (.null, [], v)
  | b :: s, v =>
    if v.state = .enditAll then (.null, b :: s, v)
    else if headerEnd (b :: s) then
      if v.address ≠ [] then
        (.address (trimEnd v.address), b :: s, { v with state := .enditAll, address := [] })
      else (.null, b :: s, { v with state := .enditAll })
    else if b = backslash then
      if v.state ≠ .insideParens then
        match s with
        | [] => (.overread, [], v)
        | c :: s => nxtLoop s { v with address := nexttp bufsiz (nexttp bufsiz v.address b) c }
      else nxtLoop s v
    else
      match switchStep bufsiz b v with
      | .go v => nxtLoop s v
      | .ret address behind v => (.address address, if behind then s else b :: s, v)

/-- `hp`, if it is set, and the other static variables. -/
structure AddrStatics where
  hp : Option Bytes
  vars : AddrVars

/-- `nxtaddr` -/
def nxtaddr (hdr : Option Bytes) (st : AddrStatics) : NxtReturn × AddrStatics :=
  let st := match hdr with
    | some hdr =>
      (⟨some hdr, { st.vars with state := .startHdr, address := [] }⟩ : AddrStatics)
    | none => st
  match st.hp with
  | none => (.null, st)
  | some hp =>
    let r := nxtLoop bufsiz hp { st.vars with parendepth := 0 }
    (r.1, ⟨some r.2.1, r.2.2⟩)

/-- Calls of `nxtaddr(NULL)`. -/
def nextCalls : (calls : Nat) → AddrStatics → List NxtReturn
  | 0, _ => []
  | calls + 1, st => (nxtaddr bufsiz none st).1 :: nextCalls calls (nxtaddr bufsiz none st).2

/-- `nxtaddr(hdr)`, and then as many calls of `nxtaddr(NULL)`. -/
def nxtaddrs (hdr : Bytes) (calls : Nat) (st : AddrStatics) : List NxtReturn :=
  (nxtaddr bufsiz (some hdr) st).1 :: nextCalls bufsiz calls (nxtaddr bufsiz (some hdr) st).2

end

/-! ## Address lists -/

/-- Blanks that may be folded. -/
inductive Blanks : Bytes → Prop where
  | nil : Blanks []
  | blank {b : UInt8} {s : Bytes} : Bytes.isspace b = true → b ≠ Bytes.lf → Blanks s →
      Blanks (b :: s)
  | fold {b : UInt8} {s : Bytes} : b = Bytes.space ∨ b = Bytes.tab → Blanks s →
      Blanks (Bytes.lf :: b :: s)

/-- The characters of an atom: no controls, no blanks, and none of the specials. -/
def atomChar (b : UInt8) : Bool :=
  33 ≤ b && b ≠ 127 && decide (b ∉ Bytes.lit "()<>@,;:\\\".[]")

/-- What stands between double quotes. -/
inductive QuotedText : Bytes → Prop where
  | nil : QuotedText []
  | char {b : UInt8} {s : Bytes} : b ≠ dquote → b ≠ backslash → b ≠ Bytes.lf → QuotedText s →
      QuotedText (b :: s)
  | escape (b : UInt8) {s : Bytes} : QuotedText s → QuotedText (backslash :: b :: s)
  | fold {b : UInt8} {s : Bytes} : b = Bytes.space ∨ b = Bytes.tab → QuotedText s →
      QuotedText (Bytes.lf :: b :: s)

/-- What stands between the parentheses of a comment. -/
inductive CommentText : Bytes → Prop where
  | nil : CommentText []
  | char {b : UInt8} {s : Bytes} : b ≠ lparen → b ≠ rparen → b ≠ backslash → b ≠ Bytes.lf →
      CommentText s → CommentText (b :: s)
  | fold {b : UInt8} {s : Bytes} : b = Bytes.space ∨ b = Bytes.tab → CommentText s →
      CommentText (Bytes.lf :: b :: s)
  | nested {c s : Bytes} : CommentText c → CommentText s →
      CommentText (lparen :: (c ++ rparen :: s))

/-- The words of a phrase, after its first character. -/
inductive PhraseText : Bytes → Prop where
  | nil : PhraseText []
  | char {b : UInt8} {s : Bytes} : atomChar b = true → PhraseText s → PhraseText (b :: s)
  | blanks {w s : Bytes} : Blanks w → PhraseText s → PhraseText (w ++ s)

/-- An address, or a part of one, is made of atoms, dots, at signs and quoted local parts. Not
everything in it is quoted if `unquoted`. -/
inductive AddrText : (unquoted : Bool) → Bytes → Prop where
  | nil : AddrText false []
  | char {k : Bool} {b : UInt8} {s : Bytes} : atomChar b = true ∨ b = Bytes.dot ∨ b = 64 →
      AddrText k s → AddrText true (b :: s)
  | quoted {k : Bool} {q s : Bytes} : QuotedText q → AddrText k s →
      AddrText k (dquote :: (q ++ dquote :: s))

/-- The ways to write an address. -/
inductive Form where
  | bare
  /-- `phrase <addr>` -/
  | phrase (first : UInt8) (words : Bytes)
  /-- `"quoted phrase" <addr>` -/
  | quotedPhrase (phrase blanks : Bytes)
  /-- `addr (comment)` -/
  | commentAfter (blanks comment : Bytes)
  /-- `(comment) addr` -/
  | commentBefore (comment blanks : Bytes)

def Form.WellFormed : Form → Prop
  | .bare => True
  | .phrase first words => atomChar first = true ∧ PhraseText words
  | .quotedPhrase q w => QuotedText q ∧ Blanks w
  | .commentAfter w comment => Blanks w ∧ CommentText comment
  | .commentBefore comment w => CommentText comment ∧ Blanks w

def Form.bracketed : Form → Bool
  | .phrase _ _ | .quotedPhrase _ _ => true
  | _ => false

/-- The address as it is written. -/
def Form.render (addr : Bytes) : Form → Bytes
  | .bare => addr
  | .phrase first words => first :: (words ++ langle :: (addr ++ [rangle]))
  | .quotedPhrase q w => dquote :: (q ++ dquote :: (w ++ langle :: (addr ++ [rangle])))
  | .commentAfter w comment => addr ++ (w ++ lparen :: (comment ++ [rparen]))
  | .commentBefore comment w => lparen :: (comment ++ rparen :: (w ++ addr))

/-- An address of a list, with the blanks around it. -/
structure Entry where
  addr : Bytes
  unquoted : Bool
  text : AddrText unquoted addr
  nonempty : addr ≠ []
  form : Form
  wellFormed : form.WellFormed
  lead : Bytes
  leads : Blanks lead
  trail : Bytes
  trails : Blanks trail

def Entry.bytes (e : Entry) : Bytes := e.lead ++ (e.form.render e.addr ++ e.trail)

/-- The address is a quoted string, or several, written without angle brackets. -/
def Entry.OnlyQuoted (e : Entry) : Prop := e.form.bracketed = false ∧ e.unquoted = false

/-- What follows an address of the list: a comma before each of the others, and the newline. -/
def following (tail : Bytes) : List Entry → Bytes
  | [] => Bytes.lf :: tail
  | e :: es => comma :: (e.bytes ++ following tail es)

/-- A header. -/
structure AddrHeader where
  name : Bytes
  plain : ∀ b ∈ name, b ≠ colon ∧ b ≠ backslash ∧ b ≠ Bytes.lf
  first : Entry
  others : List Entry
  /-- what follows the newline -/
  tail : Bytes
  ended : tail.head? ≠ some Bytes.space ∧ tail.head? ≠ some Bytes.tab

def AddrHeader.entries (h : AddrHeader) : List Entry := h.first :: h.others

def AddrHeader.bytes (h : AddrHeader) : Bytes :=
  h.name ++ colon :: (h.first.bytes ++ following h.tail h.others)

/-- The addresses of the header in order, and then `NULL`. -/
def YieldsAll (bufsiz : Nat) (h : AddrHeader) (st : AddrStatics) : Prop :=
  nxtaddrs bufsiz h.bytes h.entries.length st =
    h.entries.map (fun e => NxtReturn.address e.addr) ++ [.null]

/-! ## Steps of the loop -/

section

variable {bufsiz : Nat} {b : UInt8} {s : Bytes} {v : AddrVars}

theorem headerEnd_of_ne (hb : b ≠ Bytes.lf) : headerEnd (b :: s) = false := by
  simp [headerEnd, Bytes.charAt, hb]

/-- Only a blank continues the header. -/
theorem headerEnd_begins (h : s.head? ≠ some Bytes.space ∧ s.head? ≠ some Bytes.tab) :
    headerEnd (Bytes.lf :: s) = true := by
  cases s with
  | nil => rfl
  | cons c s =>
    have hspace : c ≠ Bytes.space := fun heq => h.1 (by rw [heq]; rfl)
    have htab : c ≠ Bytes.tab := fun heq => h.2 (by rw [heq]; rfl)
    simp [headerEnd, Bytes.charAt, hspace, htab]

theorem headerEnd_fold (hb : b = Bytes.space ∨ b = Bytes.tab) :
    headerEnd (Bytes.lf :: b :: s) = false := by
  rcases hb with rfl | rfl <;> rfl

theorem nxtLoop_cons (hstate : v.state ≠ .enditAll) (hend : headerEnd (b :: s) = false)
    (hb : b ≠ backslash) :
    nxtLoop bufsiz (b :: s) v =
      match switchStep bufsiz b v with
      | .go v => nxtLoop bufsiz s v
      | .ret address behind v => (.address address, if behind then s else b :: s, v) := by
  rw [nxtLoop.eq_def]
  simp only
  rw [if_neg hstate, hend, if_neg Bool.false_ne_true, if_neg hb]

theorem nxtLoop_escape {c : UInt8} (hstate : v.state ≠ .enditAll)
    (hparens : v.state ≠ .insideParens) :
    nxtLoop bufsiz (backslash :: c :: s) v =
      nxtLoop bufsiz s
        { v with address := nexttp bufsiz (nexttp bufsiz v.address backslash) c } := by
  rw [nxtLoop, if_neg hstate, headerEnd_of_ne (by decide), if_neg Bool.false_ne_true, if_pos rfl,
    if_pos hparens]

/-- After the last address. -/
theorem nxtLoop_endit (hstate : v.state = .enditAll) :
    nxtLoop bufsiz (b :: s) v = (.null, b :: s, v) := by
  rw [nxtLoop.eq_def]
  simp only
  rw [if_pos hstate]

/-- The end of the header. -/
theorem nxtLoop_end (hstate : v.state ≠ .enditAll) (hend : headerEnd s = true) :
    nxtLoop bufsiz s v =
      if v.address ≠ [] then
        (.address (trimEnd v.address), s, { v with state := .enditAll, address := [] })
      else (.null, s, { v with state := .enditAll }) := by
  cases s with
  | nil => cases hend
  | cons b s =>
    rw [nxtLoop.eq_def]
    simp only
    rw [if_neg hstate, if_pos hend]

/-- Characters put behind the address. -/
def putAll (bufsiz : Nat) (acc s : Bytes) : Bytes := s.foldl (nexttp bufsiz) acc

theorem putAll_append (acc x y : Bytes) :
    putAll bufsiz acc (x ++ y) = putAll bufsiz (putAll bufsiz acc x) y :=
  List.foldl_append

/-- There is room. -/
theorem putAll_fits {acc : Bytes} (h : acc.length + s.length < bufsiz) :
    putAll bufsiz acc s = acc ++ s := by
  induction s generalizing acc with
  | nil => exact (List.append_nil acc).symm
  | cons b s ih =>
    rw [List.length_cons] at h
    have hput : nexttp bufsiz acc b = acc ++ [b] := if_pos (by omega)
    show putAll bufsiz (nexttp bufsiz acc b) s = _
    rw [hput, ih (by rw [List.length_append, List.length_singleton]; omega), List.append_assoc]
    rfl

theorem putAll_ne_nil {acc : Bytes} (hsize : 1 < bufsiz) (h : acc ≠ [] ∨ s ≠ []) :
    putAll bufsiz acc s ≠ [] := by
  induction s generalizing acc with
  | nil => exact h.resolve_right fun hne => hne rfl
  | cons b s ih =>
    apply ih
    left
    unfold nexttp
    split
    · exact List.append_ne_nil_of_right_ne_nil _ (List.cons_ne_nil _ _)
    · next hfull =>
      rintro rfl
      exact hfull (by rw [List.length_nil]; omega)

/-! ## Passages -/

/-- The loop reads the text, and is then in the second state, with the second address. -/
def Passes (bufsiz : Nat) (st : HdrState) (acc text : Bytes) (st' : HdrState) (acc' : Bytes) :
    Prop :=
  ∀ s o d, ∃ o' d', nxtLoop bufsiz (text ++ s) ⟨st, o, acc, d⟩ =
    nxtLoop bufsiz s ⟨st', o', acc', d'⟩

theorem Passes.nil (st : HdrState) (acc : Bytes) : Passes bufsiz st acc [] st acc :=
  fun _ o d => ⟨o, d, rfl⟩

theorem Passes.append {st st' st'' : HdrState} {acc acc' acc'' x y : Bytes}
    (hx : Passes bufsiz st acc x st' acc') (hy : Passes bufsiz st' acc' y st'' acc'') :
    Passes bufsiz st acc (x ++ y) st'' acc'' := by
  intro s o d
  obtain ⟨o₁, d₁, h₁⟩ := hx (y ++ s) o d
  obtain ⟨o₂, d₂, h₂⟩ := hy s o₁ d₁
  refine ⟨o₂, d₂, ?_⟩
  rw [List.append_assoc, h₁, h₂]

theorem Passes.cons {st st' st'' : HdrState} {acc acc' acc'' y : Bytes}
    (hb : Passes bufsiz st acc [b] st' acc') (hy : Passes bufsiz st' acc' y st'' acc'') :
    Passes bufsiz st acc (b :: y) st'' acc'' :=
  hb.append hy

/-- One character that ends no line. -/
theorem Passes.char {st st' : HdrState} {acc acc' : Bytes} (hstate : st ≠ .enditAll)
    (hlf : b ≠ Bytes.lf) (hb : b ≠ backslash)
    (hstep : ∀ o d, ∃ o' d', switchStep bufsiz b ⟨st, o, acc, d⟩ = .go ⟨st', o', acc', d'⟩) :
    Passes bufsiz st acc [b] st' acc' := by
  intro s o d
  obtain ⟨o', d', h⟩ := hstep o d
  refine ⟨o', d', ?_⟩
  show nxtLoop bufsiz (b :: s) _ = _
  rw [nxtLoop_cons hstate (headerEnd_of_ne hlf) hb, h]

/-! ## Blanks, quotes and comments -/

/-- Between addresses, or in one without delimiters. -/
inductive Outside : HdrState → Prop where
  | skipJunk : Outside .skipJunk
  | bareAddress : Outside .bareAddress

theorem Outside.ne {st : HdrState} (h : Outside st) : st ≠ .enditAll := by
  cases h <;> decide

theorem isspace_ne {b : UInt8} (h : Bytes.isspace b = true) :
    b ≠ comma ∧ b ≠ lparen ∧ b ≠ langle ∧ b ≠ dquote ∧ b ≠ backslash := by
  refine ⟨?_, ?_, ?_, ?_, ?_⟩ <;> rintro rfl <;> revert h <;> decide

theorem switchStep_blank {st : HdrState} (hst : Outside st) (hb : Bytes.isspace b = true)
    (o : HdrState) (acc : Bytes) (d : Int) :
    switchStep bufsiz b ⟨st, o, acc, d⟩ = .go ⟨st, o, acc, d⟩ := by
  obtain ⟨hcomma, hparen, hangle, hquote, -⟩ := isspace_ne hb
  cases hst with
  | skipJunk => simp [switchStep, hparen, hangle, hquote, hb]
  | bareAddress => simp [switchStep, bareStep, hcomma, hparen, hangle, hquote, hb]

theorem isspace_of_blank (hb : b = Bytes.space ∨ b = Bytes.tab) : Bytes.isspace b = true := by
  rcases hb with rfl | rfl <;> decide

theorem Passes.blank {st : HdrState} (hst : Outside st) (hb : Bytes.isspace b = true)
    (hlf : b ≠ Bytes.lf) (acc : Bytes) : Passes bufsiz st acc [b] st acc :=
  .char hst.ne hlf (isspace_ne hb).2.2.2.2 fun o d => ⟨o, d, switchStep_blank hst hb o acc d⟩

theorem Blanks.passes {w : Bytes} (h : Blanks w) {st : HdrState} (hst : Outside st) (acc : Bytes) :
    Passes bufsiz st acc w st acc := by
  induction h with
  | nil => exact .nil st acc
  | blank hb hlf _ ih => exact (Passes.blank hst hb hlf acc).cons ih
  | @fold b s hb _ ih =>
    have hfold : Passes bufsiz st acc [Bytes.lf, b] st acc := by
      intro s o d
      refine ⟨o, d, ?_⟩
      show nxtLoop bufsiz (Bytes.lf :: b :: s) _ = _
      have hblank := isspace_of_blank hb
      have hlf : b ≠ Bytes.lf := by
        rcases hb with rfl | rfl <;> decide
      rw [nxtLoop_cons hst.ne (headerEnd_fold hb) (by decide),
        switchStep_blank hst (by decide) o acc d]
      simp only
      rw [nxtLoop_cons hst.ne (headerEnd_of_ne hlf) (isspace_ne hblank).2.2.2.2,
        switchStep_blank hst hblank o acc d]
    exact hfold.append ih

/-- Quoted text is copied, with the quotes. -/
theorem QuotedText.loop {q : Bytes} (h : QuotedText q) (s : Bytes) (o : HdrState) (acc : Bytes)
    (d : Int) :
    nxtLoop bufsiz (q ++ dquote :: s) ⟨.insideDquote, o, acc, d⟩ =
      nxtLoop bufsiz s ⟨o, o, putAll bufsiz acc (q ++ [dquote]), d⟩ := by
  have hne : HdrState.insideDquote ≠ .enditAll := by decide
  have hparens : HdrState.insideDquote ≠ .insideParens := by decide
  induction h generalizing acc with
  | nil =>
    show nxtLoop bufsiz (dquote :: s) _ = _
    rw [nxtLoop_cons hne (headerEnd_of_ne (by decide)) (by decide)]
    rfl
  | @char b q hquote hback hlf _ ih =>
    show nxtLoop bufsiz (b :: (q ++ dquote :: s)) _ = _
    rw [nxtLoop_cons hne (headerEnd_of_ne hlf) hback]
    simp only [switchStep, if_neg hquote]
    exact ih _
  | @escape b q _ ih =>
    show nxtLoop bufsiz (backslash :: b :: (q ++ dquote :: s)) _ = _
    rw [nxtLoop_escape hne hparens]
    exact ih _
  -- the newline is text as well, and the blank behind it says that the header goes on
  | @fold b q hb _ ih =>
    show nxtLoop bufsiz (Bytes.lf :: b :: (q ++ dquote :: s)) _ = _
    obtain ⟨-, -, -, hquote, hback⟩ := isspace_ne (isspace_of_blank hb)
    have hlf : b ≠ Bytes.lf := by
      rcases hb with rfl | rfl <;> decide
    rw [nxtLoop_cons hne (headerEnd_fold hb) (by decide)]
    simp only [switchStep, if_neg (show Bytes.lf ≠ dquote by decide)]
    rw [nxtLoop_cons hne (headerEnd_of_ne hlf) hback]
    simp only [switchStep, if_neg hquote]
    exact ih _

/-- A comment does not show. -/
theorem CommentText.loop {c : Bytes} (h : CommentText c) (s : Bytes) (o : HdrState) (acc : Bytes)
    {d : Int} (hd : 1 ≤ d) :
    nxtLoop bufsiz (c ++ s) ⟨.insideParens, o, acc, d⟩ =
      nxtLoop bufsiz s ⟨.insideParens, o, acc, d⟩ := by
  have hne : HdrState.insideParens ≠ .enditAll := by decide
  have hother : ∀ {b : UInt8}, b ≠ lparen → b ≠ rparen → ∀ d : Int, 1 ≤ d →
      switchStep bufsiz b ⟨.insideParens, o, acc, d⟩ = .go ⟨.insideParens, o, acc, d⟩ := by
    intro b hl hr d hd
    simp [switchStep, hl, hr, show d ≠ 0 by omega]
  induction h generalizing s d with
  | nil => rfl
  | @char b c hl hr hback hlf _ ih =>
    show nxtLoop bufsiz (b :: (c ++ s)) _ = _
    rw [nxtLoop_cons hne (headerEnd_of_ne hlf) hback, hother hl hr d hd]
    exact ih s hd
  | @fold b c hb _ ih =>
    show nxtLoop bufsiz (Bytes.lf :: b :: (c ++ s)) _ = _
    obtain ⟨-, hl, -, -, hback⟩ := isspace_ne (isspace_of_blank hb)
    have hr : b ≠ rparen := by
      rcases hb with rfl | rfl <;> decide
    have hlf : b ≠ Bytes.lf := by
      rcases hb with rfl | rfl <;> decide
    rw [nxtLoop_cons hne (headerEnd_fold hb) (by decide), hother (by decide) (by decide) d hd]
    simp only
    rw [nxtLoop_cons hne (headerEnd_of_ne hlf) hback, hother hl hr d hd]
    exact ih s hd
  -- the inner comment is read one level deeper
  | @nested c c' _ _ ih ih' =>
    show nxtLoop bufsiz (lparen :: ((c ++ rparen :: c') ++ s)) _ = _
    have hopen : switchStep bufsiz lparen ⟨.insideParens, o, acc, d⟩ =
        .go ⟨.insideParens, o, acc, d + 1⟩ := by
      simp [switchStep, show d + 1 ≠ 0 by omega]
    have hclose : switchStep bufsiz rparen ⟨.insideParens, o, acc, d + 1⟩ =
        .go ⟨.insideParens, o, acc, d⟩ := by
      simp [switchStep, rparen, lparen, show d ≠ 0 by omega]
    rw [nxtLoop_cons hne (headerEnd_of_ne (by decide)) (by decide), hopen]
    simp only
    rw [List.append_assoc, ih _ (by omega), List.cons_append,
      nxtLoop_cons hne (headerEnd_of_ne (by decide)) (by decide), hclose]
    exact ih' s hd

theorem Passes.comment {c : Bytes} (h : CommentText c) {st : HdrState} (hst : Outside st)
    (acc : Bytes) : Passes bufsiz st acc (lparen :: (c ++ [rparen])) st acc := by
  intro s o d
  refine ⟨st, 0, ?_⟩
  have hopen : switchStep bufsiz lparen ⟨st, o, acc, d⟩ = .go ⟨.insideParens, st, acc, 1⟩ := by
    cases hst <;> rfl
  have hclose : switchStep bufsiz rparen ⟨.insideParens, st, acc, 1⟩ = .go ⟨st, st, acc, 0⟩ := rfl
  show nxtLoop bufsiz (lparen :: ((c ++ [rparen]) ++ s)) _ = _
  rw [nxtLoop_cons hst.ne (headerEnd_of_ne (by decide)) (by decide), hopen]
  simp only
  rw [List.append_assoc, h.loop _ _ _ (Int.le_refl 1), List.singleton_append,
    nxtLoop_cons (show HdrState.insideParens ≠ .enditAll by decide)
      (headerEnd_of_ne (by decide)) (by decide), hclose]

/-- A quoted string, from any state that knows quotes. -/
theorem Passes.quoted {q : Bytes} (h : QuotedText q) {st : HdrState} (hne : st ≠ .enditAll)
    (hst : ∀ o acc d, switchStep bufsiz dquote ⟨st, o, acc, d⟩ =
      .go ⟨.insideDquote, st, nexttp bufsiz acc dquote, d⟩) (acc : Bytes) :
    Passes bufsiz st acc (dquote :: (q ++ [dquote])) st
      (putAll bufsiz acc (dquote :: (q ++ [dquote]))) := by
  intro s o d
  refine ⟨st, d, ?_⟩
  show nxtLoop bufsiz (dquote :: ((q ++ [dquote]) ++ s)) _ = _
  rw [nxtLoop_cons hne (headerEnd_of_ne (by decide)) (by decide), hst]
  simp only
  rw [List.append_assoc, List.singleton_append, h.loop]
  rfl

theorem quoted_skipJunk (o : HdrState) (acc : Bytes) (d : Int) :
    switchStep bufsiz dquote ⟨.skipJunk, o, acc, d⟩ =
      .go ⟨.insideDquote, .skipJunk, nexttp bufsiz acc dquote, d⟩ := rfl

theorem quoted_bareAddress (o : HdrState) (acc : Bytes) (d : Int) :
    switchStep bufsiz dquote ⟨.bareAddress, o, acc, d⟩ =
      .go ⟨.insideDquote, .bareAddress, nexttp bufsiz acc dquote, d⟩ := rfl

theorem quoted_insideBrackets (o : HdrState) (acc : Bytes) (d : Int) :
    switchStep bufsiz dquote ⟨.insideBrackets, o, acc, d⟩ =
      .go ⟨.insideDquote, .insideBrackets, nexttp bufsiz acc dquote, d⟩ := rfl

/-! ## Addresses and phrases -/

/-- A character that is nothing but a part of an address. -/
structure PlainChar (b : UInt8) : Prop where
  comma : b ≠ comma
  lparen : b ≠ lparen
  langle : b ≠ langle
  rangle : b ≠ rangle
  dquote : b ≠ dquote
  backslash : b ≠ backslash
  lf : b ≠ Bytes.lf
  isspace : Bytes.isspace b = false

theorem plainChar {b : UInt8} (h : atomChar b = true ∨ b = Bytes.dot ∨ b = 64) : PlainChar b := by
  have hspace : Bytes.isspace b = false := by
    rcases h with h | rfl | rfl
    · unfold atomChar at h
      unfold Bytes.isspace
      simp only [Bool.and_eq_true, decide_eq_true_eq] at h
      have hlow := UInt8.le_iff_toNat_le.mp h.1.1
      simp only [Bool.or_eq_false_iff, decide_eq_false_iff_not, Bool.and_eq_false_iff]
      constructor
      · rintro rfl
        revert hlow
        decide
      · right
        intro hhigh
        have := UInt8.le_iff_toNat_le.mp hhigh
        simp at hlow this
        omega
    · decide
    · decide
  constructor
  -- the characters that mean something are no atom characters
  all_goals first | exact hspace | skip
  all_goals
    rintro rfl
    revert h
    decide

theorem Passes.plain (hb : PlainChar b) {st : HdrState} (hst : Outside st) (acc : Bytes) :
    Passes bufsiz st acc [b] .bareAddress (nexttp bufsiz acc b) := by
  apply Passes.char hst.ne hb.lf hb.backslash
  intro o d
  refine ⟨o, d, ?_⟩
  cases hst <;>
    simp [switchStep, bareStep, hb.comma, hb.lparen, hb.langle, hb.dquote, hb.isspace]

theorem Passes.plain_insideBrackets (hb : PlainChar b) (acc : Bytes) :
    Passes bufsiz .insideBrackets acc [b] .insideBrackets (nexttp bufsiz acc b) := by
  apply Passes.char (by decide) hb.lf hb.backslash
  intro o d
  exact ⟨o, d, by simp [switchStep, hb.rangle, hb.langle, hb.dquote]⟩

theorem quoted_assoc (q s : Bytes) :
    dquote :: (q ++ dquote :: s) = (dquote :: (q ++ [dquote])) ++ s := by
  simp

theorem AddrText.passes_bareAddress {k : Bool} {a : Bytes} (h : AddrText k a) (acc : Bytes) :
    Passes bufsiz .bareAddress acc a .bareAddress (putAll bufsiz acc a) := by
  induction h generalizing acc with
  | nil => exact .nil _ _
  | char hb _ ih => exact (Passes.plain (plainChar hb) .bareAddress acc).cons (ih _)
  | quoted hq _ ih =>
    rw [quoted_assoc, putAll_append]
    exact (Passes.quoted hq (by decide) quoted_bareAddress acc).append (ih _)

theorem AddrText.passes_insideBrackets {k : Bool} {a : Bytes} (h : AddrText k a) (acc : Bytes) :
    Passes bufsiz .insideBrackets acc a .insideBrackets (putAll bufsiz acc a) := by
  induction h generalizing acc with
  | nil => exact .nil _ _
  | char hb _ ih => exact (Passes.plain_insideBrackets (plainChar hb) acc).cons (ih _)
  | quoted hq _ ih =>
    rw [quoted_assoc, putAll_append]
    exact (Passes.quoted hq (by decide) quoted_insideBrackets acc).append (ih _)

/-- The state behind an address without brackets. -/
def behind : (unquoted : Bool) → HdrState
  | true => .bareAddress
  | false => .skipJunk

theorem outside_behind (k : Bool) : Outside (behind k) := by
  cases k
  · exact .skipJunk
  · exact .bareAddress

/-- A quoted string does not begin an address: only the first other character does. -/
theorem AddrText.passes_skipJunk {k : Bool} {a : Bytes} (h : AddrText k a) (acc : Bytes) :
    Passes bufsiz .skipJunk acc a (behind k) (putAll bufsiz acc a) := by
  induction h generalizing acc with
  | nil => exact .nil _ _
  | char hb htext _ =>
    exact (Passes.plain (plainChar hb) .skipJunk acc).cons (htext.passes_bareAddress _)
  | quoted hq _ ih =>
    rw [quoted_assoc, putAll_append]
    exact (Passes.quoted hq (by decide) quoted_skipJunk acc).append (ih _)

theorem PhraseText.passes {p : Bytes} (h : PhraseText p) (acc : Bytes) :
    ∃ acc', Passes bufsiz .bareAddress acc p .bareAddress acc' := by
  induction h generalizing acc with
  | nil => exact ⟨acc, .nil _ _⟩
  | char hb _ ih =>
    obtain ⟨acc', hrest⟩ := ih _
    exact ⟨acc', (Passes.plain (plainChar (.inl hb)) .bareAddress acc).cons hrest⟩
  | blanks hw _ ih =>
    obtain ⟨acc', hrest⟩ := ih acc
    exact ⟨acc', (hw.passes .bareAddress acc).append hrest⟩

/-- What was collected is dropped. -/
theorem Passes.langle {st : HdrState} (hst : Outside st) (acc : Bytes) :
    Passes bufsiz st acc [Rfc822.langle] .insideBrackets [] := by
  apply Passes.char hst.ne (by decide) (by decide)
  intro o d
  cases hst <;> exact ⟨o, d, rfl⟩

/-- An address without brackets. -/
theorem Form.passes {form : Form} (hform : form.WellFormed) (hbare : form.bracketed = false)
    {k : Bool} {a : Bytes} (ha : AddrText k a) (acc : Bytes) :
    Passes bufsiz .skipJunk acc (form.render a) (behind k) (putAll bufsiz acc a) := by
  cases form with
  | bare => exact ha.passes_skipJunk acc
  | phrase _ _ => cases hbare
  | quotedPhrase _ _ => cases hbare
  | commentAfter w c =>
    obtain ⟨hw, hc⟩ := hform
    apply (ha.passes_skipJunk acc).append
    exact (hw.passes (outside_behind k) _).append (.comment hc (outside_behind k) _)
  | commentBefore c w =>
    obtain ⟨hc, hw⟩ := hform
    have hassoc : Form.render a (.commentBefore c w) =
        (Rfc822.lparen :: (c ++ [Rfc822.rparen])) ++ (w ++ a) := by
      simp [Form.render]
    rw [hassoc]
    apply (Passes.comment hc .skipJunk acc).append
    exact (hw.passes .skipJunk acc).append (ha.passes_skipJunk acc)

/-- An address in brackets, up to the closing one. -/
theorem Form.passes_bracketed {form : Form} (hform : form.WellFormed)
    (hbracketed : form.bracketed = true) {k : Bool} {a : Bytes} (ha : AddrText k a) (acc : Bytes) :
    ∃ body, form.render a = body ++ [rangle] ∧
      Passes bufsiz .skipJunk acc body .insideBrackets (putAll bufsiz [] a) := by
  cases form with
  | bare => cases hbracketed
  | commentAfter _ _ => cases hbracketed
  | commentBefore _ _ => cases hbracketed
  | phrase first words =>
    obtain ⟨hfirst, hwords⟩ := hform
    obtain ⟨acc', hphrase⟩ := @PhraseText.passes bufsiz _ hwords (nexttp bufsiz acc first)
    refine ⟨first :: (words ++ Rfc822.langle :: a), by simp [Form.render], ?_⟩
    apply (Passes.plain (plainChar (.inl hfirst)) .skipJunk acc).cons
    apply hphrase.append
    exact (Passes.langle .bareAddress acc').cons (ha.passes_insideBrackets [])
  | quotedPhrase q w =>
    obtain ⟨hq, hw⟩ := hform
    refine ⟨(Rfc822.dquote :: (q ++ [Rfc822.dquote])) ++ (w ++ Rfc822.langle :: a),
      by simp [Form.render], ?_⟩
    apply (Passes.quoted hq (by decide) quoted_skipJunk acc).append
    apply (hw.passes .skipJunk _).append
    exact (Passes.langle .skipJunk _).cons (ha.passes_insideBrackets [])

/-! ## The end of an address -/

theorem nxtLoop_comma {acc : Bytes} (hacc : acc ≠ []) (s : Bytes) (o : HdrState) (d : Int) :
    nxtLoop bufsiz (Rfc822.comma :: s) ⟨.bareAddress, o, acc, d⟩ =
      (.address acc, Rfc822.comma :: s, ⟨.skipJunk, o, [], d⟩) := by
  rw [nxtLoop_cons (show HdrState.bareAddress ≠ .enditAll by decide)
    (headerEnd_of_ne (by decide)) (by decide)]
  simp [switchStep, bareStep, hacc]

theorem nxtLoop_rangle (acc s : Bytes) (o : HdrState) (d : Int) :
    nxtLoop bufsiz (Rfc822.rangle :: s) ⟨.insideBrackets, o, acc, d⟩ =
      (.address acc, s, ⟨.skipJunk, o, [], d⟩) := by
  rw [nxtLoop_cons (show HdrState.insideBrackets ≠ .enditAll by decide)
    (headerEnd_of_ne (by decide)) (by decide)]
  rfl

theorem Passes.skip_comma (acc : Bytes) :
    Passes bufsiz .skipJunk acc [Rfc822.comma] .skipJunk acc :=
  .char (by decide) (by decide) (by decide) fun o d => ⟨o, d, rfl⟩

/-- An address does not end in white space. -/
theorem AddrText.last {k : Bool} {a : Bytes} (h : AddrText k a) (hne : a ≠ []) :
    ∃ t x, a = t ++ [x] ∧ Bytes.isspace x = false := by
  induction h with
  | nil => exact absurd rfl hne
  | @char k b s hb _ ih =>
    by_cases hs : s = []
    · exact ⟨[], b, by rw [hs]; rfl, (plainChar hb).isspace⟩
    · obtain ⟨t, x, rfl, hx⟩ := ih hs
      exact ⟨b :: t, x, rfl, hx⟩
  | @quoted k q s _ _ ih =>
    by_cases hs : s = []
    · exact ⟨Rfc822.dquote :: q, Rfc822.dquote, by rw [hs]; rfl, by decide⟩
    · obtain ⟨t, x, rfl, hx⟩ := ih hs
      exact ⟨Rfc822.dquote :: (q ++ Rfc822.dquote :: t), x, by simp, hx⟩

theorem trimEnd_addr {k : Bool} {a : Bytes} (h : AddrText k a) (hne : a ≠ []) : trimEnd a = a := by
  obtain ⟨t, x, rfl, hx⟩ := h.last hne
  rw [trimEnd, List.reverse_append, List.reverse_singleton, List.singleton_append,
    List.dropWhile_cons_of_neg (by rw [hx]; exact Bool.false_ne_true), List.reverse_cons,
    List.reverse_reverse]

/-! ## Results -/

/-- The result of a call that is in its loop, and those of the calls after it. -/
def resultsFrom (bufsiz : Nat) (calls : Nat) (hp : Bytes) (v : AddrVars) : List NxtReturn :=
  (nxtLoop bufsiz hp v).1 ::
    nextCalls bufsiz calls ⟨some (nxtLoop bufsiz hp v).2.1, (nxtLoop bufsiz hp v).2.2⟩

theorem nextCalls_succ (calls : Nat) (hp : Bytes) (st o : HdrState) (acc : Bytes) (d : Int) :
    nextCalls bufsiz (calls + 1) ⟨some hp, ⟨st, o, acc, d⟩⟩ =
      resultsFrom bufsiz calls hp ⟨st, o, acc, 0⟩ := rfl

theorem nxtaddrs_eq (hdr : Bytes) (calls : Nat) (st : AddrStatics) :
    nxtaddrs bufsiz hdr calls st =
      resultsFrom bufsiz calls hdr ⟨.startHdr, st.vars.oldstate, [], 0⟩ := rfl

/-- Reading a text does not change the results. -/
theorem Passes.results {st st' : HdrState} {acc acc' x : Bytes}
    (h : Passes bufsiz st acc x st' acc') (calls : Nat) (s : Bytes) (o : HdrState) (d : Int) :
    ∃ o' d', resultsFrom bufsiz calls (x ++ s) ⟨st, o, acc, d⟩ =
      resultsFrom bufsiz calls s ⟨st', o', acc', d'⟩ := by
  obtain ⟨o', d', heq⟩ := h s o d
  refine ⟨o', d', ?_⟩
  rw [resultsFrom, heq, resultsFrom]

theorem take_nextCalls (calls : Nat) (x : AddrStatics) :
    (nextCalls bufsiz (calls + 1) x).take calls = nextCalls bufsiz calls x := by
  induction calls generalizing x with
  | zero => rfl
  | succ calls ih =>
    rw [nextCalls, List.take_succ_cons, ih]
    rfl

theorem take_resultsFrom (calls : Nat) (hp : Bytes) (v : AddrVars) :
    (resultsFrom bufsiz (calls + 1) hp v).take (calls + 1) = resultsFrom bufsiz calls hp v := by
  rw [resultsFrom, List.take_succ_cons, take_nextCalls]
  rfl

theorem mem_resultsFrom_succ {r : NxtReturn} {calls : Nat} {hp : Bytes}
    (h : r ∈ resultsFrom bufsiz calls hp v) : r ∈ resultsFrom bufsiz (calls + 1) hp v := by
  rw [← take_resultsFrom] at h
  exact List.mem_of_mem_take h

/-- After the newline. -/
theorem results_end {tail : Bytes} (htail : headerEnd (Bytes.lf :: tail) = true) {st : HdrState}
    (hst : st ≠ .enditAll) {acc : Bytes} (hacc : acc ≠ []) (o : HdrState) (d : Int) :
    resultsFrom bufsiz 1 (Bytes.lf :: tail) ⟨st, o, acc, d⟩ =
      [.address (trimEnd acc), .null] := by
  have hloop : nxtLoop bufsiz (Bytes.lf :: tail) ⟨st, o, acc, d⟩ =
      (.address (trimEnd acc), Bytes.lf :: tail, ⟨.enditAll, o, [], d⟩) := by
    rw [nxtLoop_end hst htail, if_pos hacc]
  rw [resultsFrom, hloop, nextCalls_succ, resultsFrom, nxtLoop_endit rfl]
  rfl

theorem results_null {tail : Bytes} (htail : headerEnd (Bytes.lf :: tail) = true) {st : HdrState}
    (hst : st ≠ .enditAll) (calls : Nat) (o : HdrState) (d : Int) :
    (resultsFrom bufsiz calls (Bytes.lf :: tail) ⟨st, o, [], d⟩).head? = some .null := by
  have hloop : nxtLoop bufsiz (Bytes.lf :: tail) ⟨st, o, [], d⟩ =
      (.null, Bytes.lf :: tail, ⟨.enditAll, o, [], d⟩) := by
    rw [nxtLoop_end hst htail]
    rfl
  rw [resultsFrom, hloop]
  rfl

/-- A second result is that of the next call. -/
theorem results_address {hp hp' a : Bytes} {st : HdrState} {o : HdrState} {acc : Bytes} {d : Int}
    {calls : Nat}
    (h : nxtLoop bufsiz hp v = (.address a, hp', ⟨st, o, acc, d⟩)) :
    resultsFrom bufsiz (calls + 1) hp v =
      .address a :: resultsFrom bufsiz calls hp' ⟨st, o, acc, 0⟩ := by
  rw [resultsFrom, h, nextCalls_succ]

section

variable {tail : Bytes}

/-- **Too few.** When something has been collected that no comma ended, the addresses to come are
too few by one. -/
theorem null_mem_results (hsize : 1 < bufsiz) (htail : headerEnd (Bytes.lf :: tail) = true)
    (es : List Entry) (acc : Bytes) (hes : es ≠ [] ∨ acc = []) {u : Bytes} (hu : Blanks u)
    (o : HdrState) (d : Int) :
    .null ∈ resultsFrom bufsiz es.length (u ++ following tail es) ⟨.skipJunk, o, acc, d⟩ := by
  induction es generalizing acc u o d with
  | nil =>
    obtain rfl : acc = [] := hes.resolve_left fun hne => hne rfl
    obtain ⟨o', d', heq⟩ := (hu.passes .skipJunk []).results 0 (Bytes.lf :: tail) o d
    rw [following, List.length_nil, heq]
    exact List.mem_of_head? (results_null htail (by decide) 0 o' d')
  | cons e es ih =>
    -- the blanks, the comma, and the blanks in front of the address
    have hfront : Passes bufsiz .skipJunk acc (u ++ [Rfc822.comma] ++ e.lead) .skipJunk acc :=
      ((hu.passes .skipJunk acc).append (.skip_comma acc)).append (e.leads.passes .skipJunk acc)
    have htext : u ++ following tail (e :: es) = (u ++ [Rfc822.comma] ++ e.lead) ++
        (e.form.render e.addr ++ (e.trail ++ following tail es)) := by
      simp [following, Entry.bytes]
    obtain ⟨o₁, d₁, heq₁⟩ := hfront.results (e :: es).length
      (e.form.render e.addr ++ (e.trail ++ following tail es)) o d
    rw [htext, heq₁, List.length_cons]
    cases hb : e.form.bracketed with
    | true =>
      obtain ⟨body, hbody, hpasses⟩ :=
        @Form.passes_bracketed bufsiz _ e.wellFormed hb _ _ e.text acc
      obtain ⟨o₂, d₂, heq₂⟩ := hpasses.results (es.length + 1)
        (Rfc822.rangle :: (e.trail ++ following tail es)) o₁ d₁
      rw [hbody, List.append_assoc, List.singleton_append, heq₂,
        results_address (nxtLoop_rangle _ _ _ _)]
      exact List.mem_cons_of_mem _ (ih [] (.inr rfl) e.trails _ _)
    | false =>
      have hpasses := (@Form.passes bufsiz _ e.wellFormed hb _ _ e.text acc).append
        (e.trails.passes (outside_behind e.unquoted) _)
      obtain ⟨o₂, d₂, heq₂⟩ := hpasses.results (es.length + 1) (following tail es) o₁ d₁
      rw [← List.append_assoc, heq₂]
      have hacc : putAll bufsiz acc e.addr ≠ [] := putAll_ne_nil hsize (.inr e.nonempty)
      cases es with
      | nil =>
        rw [following, List.length_nil, results_end htail (outside_behind _).ne hacc]
        simp
      | cons e' es =>
        cases hk : e.unquoted with
        | true =>
          have hret := @nxtLoop_comma bufsiz _ hacc (e'.bytes ++ following tail es) o₂ d₂
          rw [following, List.length_cons]
          rw [behind, results_address hret]
          exact List.mem_cons_of_mem _ (ih [] (.inr rfl) .nil o₂ 0)
        | false => exact mem_resultsFrom_succ (ih _ (.inl (List.cons_ne_nil _ _)) .nil o₂ d₂)

/-- The results that are expected for a list. -/
def expected (es : List Entry) : List NxtReturn := es.map (fun e => .address e.addr) ++ [.null]

/-- What comes behind an address that was returned. -/
theorem results_next {es : List Entry} {e : Entry} (he : ¬ e.OnlyQuoted)
    (htail : headerEnd (Bytes.lf :: tail) = true)
    (ih : ∀ e' es', es = e' :: es' → ∀ o d,
      resultsFrom bufsiz es.length (e'.bytes ++ following tail es') ⟨.skipJunk, o, [], d⟩ =
          expected es ↔ ∀ x ∈ es.dropLast, ¬ x.OnlyQuoted)
    {u : Bytes} (hu : Blanks u) (o : HdrState) (d : Int) :
    resultsFrom bufsiz es.length (u ++ following tail es) ⟨.skipJunk, o, [], d⟩ = expected es ↔
      ∀ x ∈ (e :: es).dropLast, ¬ x.OnlyQuoted := by
  cases es with
  -- blanks and the end of the header: the call returns no address
  | nil =>
    obtain ⟨o', d', heq⟩ := (hu.passes .skipJunk []).results 0 (Bytes.lf :: tail) o d
    have hnull := @results_null bufsiz tail htail .skipJunk (by decide) 0 o' d'
    rw [following, List.length_nil, heq]
    apply iff_of_true
    · rw [resultsFrom] at hnull ⊢
      rw [List.head?_cons, Option.some_inj] at hnull
      rw [hnull]
      rfl
    · intro x hx
      cases hx
  -- blanks and a comma, and then the next address
  | cons e' es =>
    have hfront : Passes bufsiz .skipJunk [] (u ++ [Rfc822.comma]) .skipJunk [] :=
      (hu.passes .skipJunk []).append (.skip_comma [])
    have htext : u ++ following tail (e' :: es) =
        (u ++ [Rfc822.comma]) ++ (e'.bytes ++ following tail es) := by
      simp [following]
    obtain ⟨o', d', heq⟩ := hfront.results (e' :: es).length (e'.bytes ++ following tail es) o d
    rw [htext, heq, ih e' es rfl, List.dropLast_cons_of_ne_nil (List.cons_ne_nil _ _),
      List.forall_mem_cons]
    exact (and_iff_right he).symm

/-- One address, and what comes behind it. -/
theorem results_entry {es : List Entry} (e : Entry) (hsize : 1 < bufsiz)
    (htail : headerEnd (Bytes.lf :: tail) = true) (hshort : e.addr.length + 1 < bufsiz)
    (ih : ∀ e' es', es = e' :: es' → ∀ o d,
      resultsFrom bufsiz es.length (e'.bytes ++ following tail es') ⟨.skipJunk, o, [], d⟩ =
          expected es ↔ ∀ x ∈ es.dropLast, ¬ x.OnlyQuoted)
    (o : HdrState) (d : Int) :
    resultsFrom bufsiz (e :: es).length (e.bytes ++ following tail es) ⟨.skipJunk, o, [], d⟩ =
        expected (e :: es) ↔
      ∀ x ∈ (e :: es).dropLast, ¬ x.OnlyQuoted := by
  have hput : putAll bufsiz [] e.addr = e.addr :=
    putAll_fits (by rw [List.length_nil]; omega)
  have htext : e.bytes ++ following tail es =
      e.lead ++ (e.form.render e.addr ++ (e.trail ++ following tail es)) := by
    simp [Entry.bytes]
  have hexpected : expected (e :: es) = .address e.addr :: expected es := rfl
  obtain ⟨o₁, d₁, heq₁⟩ := (@Blanks.passes bufsiz _ e.leads _ .skipJunk []).results
    (e :: es).length (e.form.render e.addr ++ (e.trail ++ following tail es)) o d
  rw [htext, heq₁, List.length_cons, hexpected]
  cases hb : e.form.bracketed with
  -- the closing bracket returns the address, whatever stands behind it
  | true =>
    have hkept : ¬ e.OnlyQuoted := fun h => Bool.false_ne_true (h.1.symm.trans hb)
    obtain ⟨body, hbody, hpasses⟩ :=
      @Form.passes_bracketed bufsiz _ e.wellFormed hb _ _ e.text []
    obtain ⟨o₂, d₂, heq₂⟩ := hpasses.results (es.length + 1)
      (Rfc822.rangle :: (e.trail ++ following tail es)) o₁ d₁
    rw [hbody, List.append_assoc, List.singleton_append, heq₂, hput,
      results_address (nxtLoop_rangle _ _ _ _), List.cons_inj_right]
    exact results_next hkept htail ih e.trails _ _
  | false =>
    have hpasses := (@Form.passes bufsiz _ e.wellFormed hb _ _ e.text []).append
      (e.trails.passes (outside_behind e.unquoted) _)
    obtain ⟨o₂, d₂, heq₂⟩ := hpasses.results (es.length + 1) (following tail es) o₁ d₁
    rw [← List.append_assoc, heq₂, hput]
    cases es with
    -- the last address is returned at the end of the header
    | nil =>
      rw [following, List.length_nil, results_end htail (outside_behind _).ne e.nonempty,
        trimEnd_addr e.text e.nonempty]
      apply iff_of_true rfl
      intro x hx
      cases hx
    | cons e' es =>
      cases hk : e.unquoted with
      -- the comma returns the address
      | true =>
        have hkept : ¬ e.OnlyQuoted := fun h => Bool.false_ne_true (h.2.symm.trans hk)
        have hret := @nxtLoop_comma bufsiz _ e.nonempty (e'.bytes ++ following tail es) o₂ d₂
        rw [behind, following, results_address hret, List.cons_inj_right]
        exact results_next hkept htail ih .nil o₂ 0
      -- behind a closing quote the comma is text, so one call too few returns an address
      | false =>
        have hlost : e.OnlyQuoted := ⟨hb, hk⟩
        have hnull := null_mem_results hsize htail (e' :: es) e.addr
          (.inl (List.cons_ne_nil _ _)) .nil o₂ d₂
        apply iff_of_false
        · intro hall
          have htake : (NxtReturn.address e.addr :: expected (e' :: es)).take
              ((e' :: es).length + 1) =
              .address e.addr :: (e' :: es).map (fun e => NxtReturn.address e.addr) := by
            rw [List.take_succ_cons, expected, List.take_left' (List.length_map _)]
          have hall' : resultsFrom bufsiz ((e' :: es).length + 1) (following tail (e' :: es))
              ⟨.skipJunk, o₂, e.addr, d₂⟩ = _ := hall
          rw [List.nil_append, ← take_resultsFrom, hall', htake] at hnull
          simp at hnull
        · intro hnone
          rw [List.dropLast_cons_of_ne_nil (List.cons_ne_nil _ _)] at hnone
          exact hnone e (List.mem_cons_self) hlost

/-- **The list.** Every call yields the next address as long as nothing is lost. -/
theorem results_iff (hsize : 1 < bufsiz) (htail : headerEnd (Bytes.lf :: tail) = true)
    (es : List Entry) (e : Entry) (hshort : ∀ x ∈ e :: es, x.addr.length + 1 < bufsiz)
    (o : HdrState) (d : Int) :
    resultsFrom bufsiz (e :: es).length (e.bytes ++ following tail es) ⟨.skipJunk, o, [], d⟩ =
        expected (e :: es) ↔
      ∀ x ∈ (e :: es).dropLast, ¬ x.OnlyQuoted := by
  induction es generalizing e o d with
  | nil =>
    exact results_entry e hsize htail (hshort e List.mem_cons_self) (fun _ _ h => by cases h) o d
  | cons e' es ih =>
    apply results_entry e hsize htail (hshort e List.mem_cons_self)
    intro e₁ es₁ heq o d
    cases heq
    exact ih e' (fun x hx => hshort x (List.mem_cons_of_mem _ hx)) o d

/-- The name of the header. -/
theorem Passes.name {name : Bytes} (h : ∀ b ∈ name, b ≠ Rfc822.colon ∧ b ≠ Rfc822.backslash ∧
    b ≠ Bytes.lf) :
    Passes bufsiz .startHdr [] (name ++ [Rfc822.colon]) .skipJunk [] := by
  induction name with
  | nil => exact .char (by decide) (by decide) (by decide) fun o d => ⟨o, d, rfl⟩
  | cons b name ih =>
    obtain ⟨hcolon, hback, hlf⟩ := h b List.mem_cons_self
    have hchar : Passes bufsiz .startHdr [] [b] .startHdr [] :=
      .char (by decide) hlf hback fun o d => ⟨o, d, if_neg hcolon⟩
    exact hchar.cons (ih fun x hx => h x (List.mem_cons_of_mem _ hx))

end

theorem AddrHeader.headerEnd (h : AddrHeader) : Rfc822.headerEnd (Bytes.lf :: h.tail) = true :=
  headerEnd_begins h.ended

/-- The calls yield the addresses of a header, in order, and then nothing, exactly when no address
but the last is only a quoted string, written without angle brackets. -/
theorem nxtaddr_yields_iff (h : AddrHeader) (hshort : ∀ x ∈ h.entries, x.addr.length < bufsiz - 1)
    (st : AddrStatics) :
    YieldsAll bufsiz h st ↔ ∀ x ∈ h.entries.dropLast, ¬ x.OnlyQuoted := by
  have hfirst := hshort h.first List.mem_cons_self
  obtain ⟨o, d, heq⟩ := (@Passes.name bufsiz h.name h.plain).results h.entries.length
    (h.first.bytes ++ following h.tail h.others) st.vars.oldstate 0
  have htext : h.bytes = (h.name ++ [Rfc822.colon]) ++
      (h.first.bytes ++ following h.tail h.others) := by
    simp [AddrHeader.bytes]
  rw [YieldsAll, nxtaddrs_eq, htext, heq]
  exact results_iff (by omega) h.headerEnd h.others h.first
    (fun x hx => by have := hshort x hx; omega) o d

end

/-! ## An address that is a quoted string -/

theorem QuotedText.of_forall {q : Bytes}
    (h : ∀ b, b ∈ q → b ≠ dquote ∧ b ≠ backslash ∧ b ≠ Bytes.lf) : QuotedText q := by
  induction q with
  | nil => exact .nil
  | cons b q ih =>
    obtain ⟨hquote, hback, hlf⟩ := h b List.mem_cons_self
    exact .char hquote hback hlf (ih fun x hx => h x (List.mem_cons_of_mem _ hx))

theorem AddrText.of_forall {b : UInt8} {s : Bytes}
    (h : ∀ x, x ∈ b :: s → atomChar x = true ∨ x = Bytes.dot ∨ x = 64) :
    AddrText true (b :: s) := by
  induction s generalizing b with
  | nil => exact .char (h b List.mem_cons_self) .nil
  | cons c s ih =>
    exact .char (h b List.mem_cons_self) (ih fun x hx => h x (List.mem_cons_of_mem _ hx))

/-- An address without blanks around it. -/
def Entry.tight {k : Bool} {addr : Bytes} (text : AddrText k addr) (nonempty : addr ≠ [])
    (form : Form) (wellFormed : form.WellFormed) : Entry :=
  ⟨addr, k, text, nonempty, form, wellFormed, [], .nil, [], .nil⟩

def quotedDoe : Entry :=
  .tight (.quoted (@QuotedText.of_forall (Bytes.lit "john doe") (by decide)) .nil)
    (List.cons_ne_nil _ _) .bare trivial

def bob : Entry :=
  .tight (@AddrText.of_forall 98 (Bytes.lit "ob@example.org") (by decide)) (List.cons_ne_nil _ _)
    .bare trivial

/-- The same address in brackets, behind a phrase with a comma. -/
def bracketedDoe : Entry :=
  .tight (.quoted (@QuotedText.of_forall (Bytes.lit "john doe") (by decide)) .nil)
    (List.cons_ne_nil _ _) (.quotedPhrase (Bytes.lit "Doe, J.") [])
    ⟨.of_forall (by decide), .nil⟩

/-- The header `To:"john doe",bob@example.org`. -/
def toHeader (first : Entry) : AddrHeader where
  name := Bytes.lit "To"
  plain := by decide
  first := first
  others := [bob]
  tail := []
  ended := by decide

def fresh : AddrStatics := ⟨none, ⟨.startHdr, .startHdr, [], 0⟩⟩

/-- It yields a single address, `"john doe"bob@example.org`. -/
theorem quoted_address_joined : ¬ YieldsAll 8192 (toHeader quotedDoe) fresh := by
  unfold YieldsAll
  decide +kernel

theorem nxtaddr_yields_iff_bracketed :
    YieldsAll 8192 (toHeader bracketedDoe) fresh ↔
      ∀ x ∈ (toHeader bracketedDoe).entries.dropLast, ¬ x.OnlyQuoted := by
  apply nxtaddr_yields_iff
  decide +kernel

end Fetchmail.Rfc822
