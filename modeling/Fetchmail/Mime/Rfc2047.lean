import Fetchmail.Mime.UnMimeHeader
import Mathlib.Data.List.TakeWhile

/-!
# Encoding of Headers

`rfc2047e.c`: a text is split into words and the white space between them, neighbouring words
that need it are encoded together, and long lines are folded. Decoding the result yields the
text again, but for the line breaks.
-/

namespace Fetchmail.Mime

open Fetchmail.Lib

/-! ## The encoder -/

def noenc : Bytes :=
  Bytes.lit ("!\"#$%&\x27()*+,-./0123456789:;<=>?@ABCDEFGHIJKLMNOPQRSTUVWXYZ[\\]^_`" ++
    "abcdefghijklmnopqrstuvwxyz\x7b|\x7d~")

def encchars : Bytes :=
  Bytes.lit ("!\"#$%&\x27*+,-./0123456789:;<>@ABCDEFGHIJKLMNOPQRSTUVWXYZ[\\]^`" ++
    "abcdefghijklmnopqrstuvwxyz\x7b|\x7d~")

/-- `ws` -/
def isWs (c : UInt8) : Bool := c ∈ Bytes.lit " \t\r\n"

/-- `needs_enc` -/
def needsEnc (string : Bytes) : Bool :=
  (string.takeWhile (· ∈ noenc)).length < string.length ||
    (string.take 2 = mimehdrInit && string.drop (string.length - 2) = mimehdrEnd)

/-- A digit of `%02X` -/
def upperHex (n : Nat) : UInt8 := UInt8.ofNat (if n < 10 then 48 + n else 55 + n)

/-- What is written for one character of a word. -/
def encodeChar (u : UInt8) : Bytes :=
  if u = Bytes.space then [underscore]
  else if u ∈ encchars then [u]
  else [Bytes.equals, upperHex (u.toNat / 16), upperHex (u.toNat % 16)]

/-- `charset?Q?`, behind the `=?` -/
def charsetQ (charset : Bytes) : Bytes := charset ++ [questionMark, 81, questionMark]

/-- The loop of `encode_words` over the characters of all the words. `col` is `t - v`. -/
def encodeChars (charset : Bytes) : (col : Nat) → Bytes → Bytes
  | _, [] => []
  | col, u :: us =>
    if 69 ≤ col then
      mimehdrEnd ++ (Bytes.crlf ++ (mimehdrInit ++ (charsetQ charset ++ (encodeChar u ++
        encodeChars charset (2 + (charsetQ charset).length + (encodeChar u).length) us))))
    else encodeChar u ++ encodeChars charset (col + (encodeChar u).length) us

/-- `encode_words` -/
def encodeWords (charset : Bytes) (words : List Bytes) : Bytes :=
  mimehdrInit ++ (charsetQ charset ++
    (encodeChars charset (2 + (charsetQ charset).length) words.flatten ++ mimehdrEnd))

theorem length_dropWhile_ws {s : Bytes} (h : s.dropWhile (!isWs ·) ≠ []) :
    ((s.dropWhile (!isWs ·)).dropWhile isWs).length < s.length := by
  have hle := (List.dropWhile_suffix (l := s) (!isWs ·)).length_le
  obtain ⟨c, r, hr⟩ := List.exists_cons_of_ne_nil h
  have hc : isWs c = true := by
    have hhead := List.head_dropWhile_not (l := s) (!isWs ·) h
    simp only [hr, List.head_cons] at hhead
    simpa using hhead
  rw [hr] at hle ⊢
  rw [List.dropWhile_cons_of_pos hc]
  have := (List.dropWhile_suffix (l := r) isWs).length_le
  rw [List.length_cons] at hle
  omega

/-- Phase 1: the words, and between them the white space. -/
def splitWords (string : Bytes) : List Bytes :=
  if string = [] then []
  else
    string.takeWhile (!isWs ·) ::
      if _h : string.dropWhile (!isWs ·) = [] then []
      else
        (string.dropWhile (!isWs ·)).takeWhile isWs ::
          splitWords ((string.dropWhile (!isWs ·)).dropWhile isWs)
termination_by string.length
decreasing_by exact length_dropWhile_ws _h

/-- Phase 2a: how many further words need encoding. The list begins behind a word. -/
def rangeWords : List Bytes → Nat
  | _ :: w :: rest => if needsEnc w then rangeWords rest + 1 else 0
  | _ => 0

/-- Phase 2: each range is encoded in place of its first word, and what else is in it is made
empty. -/
def encodeRanges (charset : Bytes) : List Bytes → List Bytes
  | [] => []
  | w :: rest =>
    if needsEnc w then
      let n := 2 * rangeWords rest
      encodeWords charset (w :: rest.take n) :: (List.replicate n [] ++
        match _h : rest.drop n with
        | [] => []
        | b :: rest' => b :: encodeRanges charset rest')
    else
      w :: match rest with
        | [] => []
        | b :: rest' => b :: encodeRanges charset rest'
termination_by words => words.length
decreasing_by
  · have hle := congrArg List.length _h
    rw [List.length_drop, List.length_cons] at hle
    rw [List.length_cons]
    omega
  · simp only [List.length_cons]
    omega

/-- The length of the last line. -/
def lastLine (out : Bytes) : Nat := (out.reverse.takeWhile (· ≠ Bytes.lf)).length

/-- A line break before white space, if the line would be too long. -/
def lineBreak (l m : Nat) : Bytes := if 74 < l + m then Bytes.crlf else []

/-- Phase 3: limit lengths. The list begins with white space. -/
def foldLines (out : Bytes) (l : Nat) : List Bytes → Bytes
  | [] => out
  | [b] => out ++ (lineBreak l b.length ++ b)
  | b :: w :: rest =>
    let m := b.length + (w.takeWhile fun c => c ≠ Bytes.cr ∧ c ≠ Bytes.lf).length
    let out' := out ++ (lineBreak l m ++ (b ++ w))
    foldLines out' (lastLine out') rest

/-- `rfc2047e`; `none` if its assertion fails. -/
def rfc2047e (string charset : Bytes) : Option Bytes :=
  if charset.length < 40 then
    match encodeRanges charset (splitWords string) with
    | [] => some []
    | w :: rest => some (foldLines w w.length rest)
  else none

/-! ## Decoding what is encoded -/

theorem qpChar_upperHex (u : UInt8) :
    qpChar (upperHex (u.toNat / 16)) (upperHex (u.toNat % 16)) = some u := by
  revert u
  exact Bytes.forall_of_lt (by decide +kernel)

theorem question_notMem_upperHex (u : UInt8) :
    questionMark ≠ upperHex (u.toNat / 16) ∧ questionMark ≠ upperHex (u.toNat % 16) :=
  question_notMem_of_qpChar (qpChar_upperHex u)

/-- The characters that mean something in an encoded word are encoded. -/
theorem notMem_encchars : ∀ c ∈ [questionMark, Bytes.equals, underscore], c ∉ encchars := by
  decide +kernel

theorem question_notMem_encodeChar (u : UInt8) : questionMark ∉ encodeChar u := by
  unfold encodeChar
  split
  · decide
  · split
    · next henc =>
      rw [List.mem_singleton]
      rintro rfl
      exact notMem_encchars _ (by simp) henc
    · obtain ⟨hhi, hlo⟩ := question_notMem_upperHex u
      simp only [List.mem_cons, List.not_mem_nil, or_false, not_or]
      exact ⟨by decide, hhi, hlo⟩

theorem copyQ_encodeChar (behind : Bytes) (u : UInt8) (t : Bytes) :
    copyQ behind 0 (encodeChar u ++ t) = (copyQ behind 0 t).map (u :: ·) := by
  unfold encodeChar
  by_cases hspace : u = Bytes.space
  · subst hspace
    rfl
  · rw [if_neg hspace]
    by_cases henc : u ∈ encchars
    · -- neither an equals sign nor an underscore is left as it is
      have hequals : u ≠ Bytes.equals := by
        rintro rfl
        exact notMem_encchars _ (by simp) henc
      have hunder : u ≠ underscore := by
        rintro rfl
        exact notMem_encchars _ (by simp) henc
      rw [if_pos henc, List.singleton_append, copyQ, if_neg hequals, if_neg hunder]
    · rw [if_neg henc]
      have hchars := qpChar_upperHex u
      generalize upperHex (u.toNat / 16) = hi at hchars
      generalize upperHex (u.toNat % 16) = lo at hchars
      have hread : qpChar (Bytes.charAt (hi :: lo :: t ++ behind) 0)
          (Bytes.charAt (hi :: lo :: t ++ behind) 1) = some u := hchars
      rw [List.cons_append, copyQ, if_pos rfl, if_neg (by simp)]
      simp only [List.cons_append, List.nil_append] at hread ⊢
      simp only [hread]
      rw [copyQ, copyQ]

theorem copyText_encoded (behind us : Bytes) :
    copyText 113 behind (us.flatMap encodeChar) = some us := by
  rw [copyText, if_pos rfl]
  induction us with
  | nil => rfl
  | cons u us ih =>
    rw [List.flatMap_cons, copyQ_encodeChar, ih]
    rfl

theorem question_notMem_encoded (us : Bytes) : questionMark ∉ us.flatMap encodeChar := by
  rw [List.mem_flatMap]
  rintro ⟨u, -, hu⟩
  exact question_notMem_encodeChar u hu

section

variable {charset : Bytes}

theorem decodeFrom_charsetQ (h : questionMark ∉ charset) (y : Bytes) :
    decodeFrom .skipMimeinit (charsetQ charset ++ y) = decodeFrom (.copyMime 113) y := by
  have heq : charsetQ charset ++ y = charset ++ questionMark :: 81 :: questionMark :: y := by
    simp [charsetQ]
  rw [heq, decodeFrom_charset h]
  rfl

/-- Within an encoded word, of which the characters `ps` are already written. Where the word is
split, the line break is dropped. -/
theorem decodeFrom_encodeChars (h : questionMark ∉ charset) (col : Nat) (ps us y : Bytes) :
    decodeFrom (.copyMime 113)
        (ps.flatMap encodeChar ++ (encodeChars charset col us ++ (mimehdrEnd ++ y))) =
      (decodeAfter y).map (ps ++ us ++ ·) := by
  -- `ps` is what stands in the encoded word that is open; a split begins it anew with one character
  induction us generalizing col ps with
  | nil =>
    rw [encodeChars, List.nil_append, List.append_nil]
    exact decodeFrom_text (question_notMem_encoded ps) y (copyText_encoded _ ps)
  | cons u us ih =>
    rw [encodeChars]
    by_cases hcol : 69 ≤ col
    -- the word is closed, and the next one begins behind a line break and a blank
    · have hword := ih (2 + (charsetQ charset).length + (encodeChar u).length) [u]
      rw [List.flatMap_singleton] at hword
      rw [if_pos hcol]
      simp only [List.append_assoc]
      rw [decodeFrom_text (question_notMem_encoded ps) _ (copyText_encoded _ ps),
        decodeAfter_blanks (by decide), decodeFrom_charsetQ h, hword, Option.map_map]
      rfl
    -- the character goes to the word that is open
    · have hword := ih (col + (encodeChar u).length) (ps ++ [u])
      rw [List.flatMap_append, List.flatMap_singleton] at hword
      rw [if_neg hcol]
      simp only [List.append_assoc] at hword ⊢
      exact hword

theorem decodeFrom_encodeWords (h : questionMark ∉ charset) {t : Bytes} (ht : PlainText t)
    (words : List Bytes) (y : Bytes) :
    decodeFrom .copyPlain (t ++ (encodeWords charset words ++ y)) =
      (decodeAfter y).map (t ++ words.flatten ++ ·) := by
  have hword := decodeFrom_encodeChars h (2 + (charsetQ charset).length) [] words.flatten y
  simp only [List.flatMap_nil, List.nil_append] at hword
  unfold encodeWords
  simp only [List.append_assoc]
  rw [decodeFrom_lead ht, decodeFrom_charsetQ h, hword, Option.map_map]
  rfl

end

/-! ## Words and white space -/

/-- A list of words and white space that begins with white space. -/
def Blanked : List Bytes → Prop
  | [] => True
  | [b] => b ≠ [] ∧ ∀ c ∈ b, isWs c = true
  | b :: w :: rest => (b ≠ [] ∧ ∀ c ∈ b, isWs c = true) ∧ (w ≠ [] ∧ PlainText w) ∧ Blanked rest

theorem Blanked.head {b : Bytes} {rest : List Bytes} (h : Blanked (b :: rest)) :
    b ≠ [] ∧ ∀ c ∈ b, isWs c = true := by
  cases rest with
  | nil => exact h
  | cons w rest => exact h.1

/-- One that begins with a word. Only the first word may be empty. -/
def Worded : List Bytes → Prop
  | [] => True
  | w :: rest => PlainText w ∧ Blanked rest

theorem Blanked.tail {b : Bytes} {rest : List Bytes} (h : Blanked (b :: rest)) : Worded rest := by
  cases rest with
  | nil => trivial
  | cons w rest => exact ⟨h.2.1.2, h.2.2⟩

theorem Blanked.drop {rest : List Bytes} (h : Blanked rest) (k : Nat) :
    Blanked (rest.drop (2 * k)) := by
  induction k generalizing rest with
  | zero => exact h
  | succ k ih =>
    rw [Nat.mul_succ]
    match rest, h with
    | [], _ => trivial
    | [_], _ => trivial
    | _ :: _ :: rest, h => exact ih h.2.2

theorem isspace_of_isWs {c : UInt8} (h : isWs c = true) :
    Bytes.isspace c = true ∧ c ≠ Bytes.equals ∧ c ≠ questionMark := by
  rw [isWs, decide_eq_true_eq] at h
  have hall : ∀ b ∈ Bytes.lit " \t\r\n",
      Bytes.isspace b = true ∧ b ≠ Bytes.equals ∧ b ≠ questionMark := by
    decide
  exact hall c h

theorem plainText_parts {s t : Bytes} (h : PlainText (s ++ t)) : PlainText s ∧ PlainText t :=
  ⟨(Pairs.free_append.mp h).1, (Pairs.free_append.mp h).2.1⟩

/-- What does not begin with white space begins with a word. -/
theorem word_ne_nil {s : Bytes} {c : UInt8} (hc : c ∈ s.head?) (hws : isWs c = false) :
    s.takeWhile (!isWs ·) ≠ [] := by
  obtain ⟨r, rfl⟩ : ∃ r, s = c :: r := ⟨_, (List.cons_head?_tail hc).symm⟩
  rw [List.takeWhile_cons_of_pos (by simp [hws])]
  exact List.cons_ne_nil _ _

/-- Behind a word there is white space. -/
theorem blank_ne_nil {s : Bytes} (h : s.dropWhile (!isWs ·) ≠ []) :
    (s.dropWhile (!isWs ·)).takeWhile isWs ≠ [] := by
  obtain ⟨c, r, hr⟩ := List.exists_cons_of_ne_nil h
  have hc := Bytes.head_dropWhile (!isWs ·) s c (by rw [hr]; rfl)
  rw [hr, List.takeWhile_cons_of_pos (by simpa using hc)]
  exact List.cons_ne_nil _ _

/-- Phase 1 -/
theorem splitWords_worded (s : Bytes) (hs : PlainText s) :
    Worded (splitWords s) ∧ (splitWords s).flatten = s ∧
      ∀ c ∈ s.head?, isWs c = false → ∃ w rest, splitWords s = w :: rest ∧ w ≠ [] := by
  induction s using splitWords.induct with
  | case1 =>
    rw [splitWords, if_pos rfl]
    exact ⟨trivial, rfl, by simp⟩
  | case2 s hne ih =>
    have hword := List.takeWhile_append_dropWhile (p := (!isWs ·)) (l := s)
    rw [splitWords, if_neg hne]
    -- the last word, or white space and the words behind it
    by_cases hrest : s.dropWhile (!isWs ·) = []
    · rw [dif_pos hrest]
      rw [hrest, List.append_nil] at hword
      refine ⟨⟨by rw [hword]; exact hs, trivial⟩, ?_,
        fun c hc hws => ⟨_, _, rfl, word_ne_nil hc hws⟩⟩
      rw [List.flatten_singleton, hword]
    · rw [dif_neg hrest]
      have hblank := List.takeWhile_append_dropWhile (p := isWs) (l := s.dropWhile (!isWs ·))
      have hne' := blank_ne_nil hrest
      generalize hr : s.dropWhile (!isWs ·) = r at hrest hblank hne' hword ih ⊢
      have hplain :
          PlainText (s.takeWhile (!isWs ·) ++ (r.takeWhile isWs ++ r.dropWhile isWs)) := by
        rw [hblank, hword]
        exact hs
      obtain ⟨hw, hrest'⟩ := plainText_parts hplain
      obtain ⟨hworded, hflatten, hhead⟩ := ih hrest (plainText_parts hrest').2
      have hb : r.takeWhile isWs ≠ [] ∧ ∀ c ∈ r.takeWhile isWs, isWs c = true :=
        ⟨hne', fun c hc => List.mem_takeWhile_imp hc⟩
      have hnext := Bytes.head_dropWhile isWs r
      refine ⟨⟨hw, ?_⟩, ?_, fun c hc hws => ⟨_, _, rfl, word_ne_nil hc hws⟩⟩
      -- behind white space the next word begins with another character
      · cases hsplit : splitWords (r.dropWhile isWs) with
        | nil => exact hb
        | cons w rest =>
          rw [hsplit] at hworded hflatten hhead
          refine ⟨hb, ⟨?_, hworded.1⟩, hworded.2⟩
          rintro rfl
          cases hd : r.dropWhile isWs with
          | nil =>
            rw [hd, splitWords, if_pos rfl] at hsplit
            cases hsplit
          | cons c r' =>
            rw [hd] at hhead hnext
            obtain ⟨w', rest', heq, hne'⟩ := hhead c rfl (hnext c rfl)
            cases heq
            exact hne' rfl
      · rw [List.flatten_cons, List.flatten_cons, hflatten, hblank, hword]

/-! ## Folding -/

/-- The text of a list of words and white space, with line breaks before some of the latter. -/
inductive Folded : List Bytes → Bytes → Prop where
  | nil : Folded [] []
  | word (w : Bytes) : Folded [w] w
  | cons (w b : Bytes) {rest : List Bytes} {c y : Bytes} (hc : ∀ x ∈ c, x = Bytes.cr ∨ x = Bytes.lf)
      (hrest : Folded rest y) : Folded (w :: b :: rest) (w ++ (c ++ (b ++ y)))

theorem mem_lineBreak {l m : Nat} : ∀ x ∈ lineBreak l m, x = Bytes.cr ∨ x = Bytes.lf := by
  unfold lineBreak
  split
  · decide
  · simp

/-- Phase 3 -/
theorem foldLines_folded (out : Bytes) (l : Nat) (rest : List Bytes) :
    ∃ y, foldLines out l rest = out ++ y ∧ ∀ w, Folded (w :: rest) (w ++ y) := by
  -- two list elements in each round, as in `foldLines`
  induction out, l, rest using foldLines.induct with
  | case1 out l =>
    refine ⟨[], (List.append_nil out).symm, fun w => ?_⟩
    rw [List.append_nil]
    exact .word w
  | case2 out l b =>
    refine ⟨lineBreak l b.length ++ b, rfl, fun w => ?_⟩
    have hfolded := Folded.cons w b (c := lineBreak l b.length) mem_lineBreak .nil
    rwa [List.append_nil] at hfolded
  | case3 out l b w' rest m out' ih =>
    obtain ⟨y, heq, hfolded⟩ := ih
    refine ⟨lineBreak l m ++ (b ++ (w' ++ y)), ?_, fun w => .cons w b mem_lineBreak (hfolded w')⟩
    rw [foldLines]
    exact heq.trans (by simp [out'])

theorem folded_replicate {k : Nat} {w : Bytes} {rest : List Bytes} {y : Bytes}
    (h : Folded (w :: (List.replicate (2 * k) [] ++ rest)) y) :
    ∃ z y', (∀ x ∈ z, x = Bytes.cr ∨ x = Bytes.lf) ∧ y = w ++ (z ++ y') ∧
      Folded ([] :: rest) y' := by
  -- the empty elements of a range add line breaks, at most
  induction k generalizing w y with
  | zero =>
    rw [Nat.mul_zero, List.replicate_zero, List.nil_append] at h
    cases h with
    | word => exact ⟨[], [], by simp, by simp, .word []⟩
    | cons w b hc hrest =>
      exact ⟨[], _, by simp, rfl, .cons [] b hc hrest⟩
  | succ k ih =>
    rw [Nat.mul_succ, List.replicate_succ, List.replicate_succ, List.cons_append,
      List.cons_append] at h
    cases h with
    | @cons _ _ _ c y₁ hc hrest =>
      obtain ⟨z, y', hz, rfl, hfolded⟩ := ih hrest
      refine ⟨c ++ z, y', fun x hx => ?_, by simp, hfolded⟩
      rcases List.mem_append.mp hx with hx | hx
      · exact hc x hx
      · exact hz x hx

/-! ## Ranges -/

/-- A range ends before a word that needs no encoding. -/
theorem drop_rangeWords (rest : List Bytes) :
    ∀ b w rest', rest.drop (2 * rangeWords rest) = b :: w :: rest' → needsEnc w = false := by
  induction rest using rangeWords.induct with
  | case1 b w rest hw ih =>
    rw [rangeWords, if_pos hw]
    exact ih
  | case2 b w rest hw =>
    rw [rangeWords, if_neg hw]
    intro b' w' rest' heq
    cases heq
    simpa using hw
  | case3 rest hrest =>
    intro b w rest' heq
    match rest, hrest with
    | [], _ => cases heq
    | [_], _ => cases heq
    | b :: w :: rest, hrest => exact (hrest b w rest rfl).elim

/-! ## The round trip -/

/-- Without carriage returns and line feeds. -/
def unfolded (s : Bytes) : Bytes := s.filter fun c => c ≠ Bytes.cr ∧ c ≠ Bytes.lf

@[simp]
theorem unfolded_append (s t : Bytes) : unfolded (s ++ t) = unfolded s ++ unfolded t :=
  List.filter_append ..

theorem unfolded_breaks {z : Bytes} (h : ∀ x ∈ z, x = Bytes.cr ∨ x = Bytes.lf) :
    unfolded z = [] := by
  rw [unfolded, List.filter_eq_nil_iff]
  intro x hx hnot
  rw [decide_eq_true_eq] at hnot
  rcases h x hx with rfl | rfl
  · exact hnot.1 rfl
  · exact hnot.2 rfl

/-- White space between words, with line breaks. -/
structure Gap (g : Bytes) : Prop where
  blank : g.all Bytes.isspace = true
  equals : ∀ x ∈ g, x ≠ Bytes.equals
  question : ∀ x ∈ g, x ≠ questionMark

theorem gap_of_breaks {z : Bytes} (h : ∀ x ∈ z, x = Bytes.cr ∨ x = Bytes.lf) : Gap z := by
  refine ⟨List.all_eq_true.mpr fun x hx => ?_, fun x hx => ?_, fun x hx => ?_⟩ <;>
  · rcases h x hx with rfl | rfl <;> decide

theorem gap_of_blank {b : Bytes} (h : ∀ c ∈ b, isWs c = true) : Gap b where
  blank := List.all_eq_true.mpr fun x hx => (isspace_of_isWs (h x hx)).1
  equals := fun x hx => (isspace_of_isWs (h x hx)).2.1
  question := fun x hx => (isspace_of_isWs (h x hx)).2.2

theorem Gap.append {g g' : Bytes} (h : Gap g) (h' : Gap g') : Gap (g ++ g') := by
  refine ⟨?_, fun x hx => ?_, fun x hx => ?_⟩
  · rw [List.all_append, h.blank, h'.blank]
    rfl
  · exact (List.mem_append.mp hx).elim (h.equals x) (h'.equals x)
  · exact (List.mem_append.mp hx).elim (h.question x) (h'.question x)

theorem Gap.plainText {g : Bytes} (h : Gap g) : PlainText g :=
  Pairs.free_of_notMem fun hmem => h.question _ hmem rfl

/-- Text that ends with white space, or is empty: a word can follow. -/
structure Open (t : Bytes) : Prop where
  plain : PlainText t
  last : t.getLast? ≠ some Bytes.equals

theorem Open.append_word {t w : Bytes} (h : Open t) (hw : PlainText w) : PlainText (t ++ w) :=
  Pairs.free_append.mpr ⟨h.plain, hw, fun hjoin => h.last hjoin.1⟩

theorem open_append_gap {t g : Bytes} (ht : PlainText t) (hg : Gap g) : PlainText (t ++ g) := by
  refine Pairs.free_append.mpr ⟨ht, hg.plainText, fun hjoin => ?_⟩
  exact hg.question _ (List.mem_of_mem_head? hjoin.2) rfl

theorem open_of_gap {t g : Bytes} (ht : PlainText t) (hg : Gap g) (hne : g ≠ []) :
    Open (t ++ g) := by
  refine ⟨open_append_gap ht hg, fun hlast => ?_⟩
  rw [List.getLast?_append_of_ne_nil _ hne] at hlast
  exact hg.equals _ (List.mem_of_getLast? hlast) rfl

theorem needsEnc_false {w : Bytes} (h : needsEnc w = false) : ∀ c ∈ w, c ∈ noenc := by
  simp only [needsEnc, Bool.or_eq_false_iff, decide_eq_false_iff_not, Nat.not_lt] at h
  have hprefix := List.takeWhile_prefix (l := w) (· ∈ noenc)
  have hall : w.takeWhile (· ∈ noenc) = w := hprefix.eq_of_length_le h.1
  intro c hc
  rw [← hall] at hc
  simpa using List.mem_takeWhile_imp hc

theorem isspace_of_noenc {c : UInt8} (h : c ∈ noenc) : Bytes.isspace c = false := by
  have hall : ∀ b ∈ noenc, Bytes.isspace b = false := by decide +kernel
  exact hall c h

/-- White space that is followed by other text is not dropped. -/
theorem decodeAfter_gap {g v : Bytes} {d : UInt8} (hg : Gap g) (hd : Bytes.isspace d = false)
    (h : ¬ (d = Bytes.equals ∧ v.head? = some questionMark)) :
    decodeAfter (g ++ d :: v) = decodeFrom .copyPlain (g ++ d :: v) := by
  apply decodeAfter_text
  intro t y hfind
  rw [findInit, Pairs.cut_skip hg.equals] at hfind
  obtain ⟨⟨t', y'⟩, hcut, heq⟩ := Option.map_eq_some_iff.mp hfind
  cases heq
  have hd' := Pairs.eq_of_cut hcut
  -- the text up to the next `=?` has the character `d` in it, so it is not all white space
  cases t' with
  | nil =>
    rw [List.nil_append] at hd'
    obtain ⟨rfl, rfl⟩ := List.cons.inj hd'
    exact absurd ⟨rfl, rfl⟩ h
  | cons c t' =>
    rw [List.cons_append] at hd'
    rw [← (List.cons.inj hd').1, List.all_append, List.all_cons, hd, Bool.false_and, Bool.and_false]

section

variable {charset : Bytes}

/-- Phase 2 behind a word: the white space is left as it is. -/
def encodeBehind (charset : Bytes) : List Bytes → List Bytes
  | [] => []
  | b :: rest => b :: encodeRanges charset rest

theorem encodeRanges_plain {w : Bytes} (h : needsEnc w = false) (rest : List Bytes) :
    encodeRanges charset (w :: rest) = w :: encodeBehind charset rest := by
  rw [encodeRanges.eq_def]
  simp only [h, Bool.false_eq_true, if_false]
  cases rest <;> rfl

theorem encodeRanges_range {w : Bytes} (h : needsEnc w = true) (rest : List Bytes) :
    encodeRanges charset (w :: rest) =
      encodeWords charset (w :: rest.take (2 * rangeWords rest)) ::
        (List.replicate (2 * rangeWords rest) [] ++
          encodeBehind charset (rest.drop (2 * rangeWords rest))) := by
  rw [encodeRanges.eq_def]
  simp only [h, if_true]
  congr 2
  split
  · next hdrop => rw [hdrop]; rfl
  · next hdrop => rw [hdrop]; rfl

theorem encodeRanges_nil : encodeRanges charset [] = [] := by
  rw [encodeRanges]

/-- A word that is not encoded is neither white space nor does it begin an encoded word. -/
theorem folded_start {b w y : Bytes} {rest : List Bytes} (h : Blanked (b :: w :: rest))
    (hw : needsEnc w = false) (hfold : Folded (w :: encodeBehind charset rest) y) :
    ∃ d v, y = d :: v ∧ Bytes.isspace d = false ∧
      ¬ (d = Bytes.equals ∧ v.head? = some questionMark) := by
  obtain ⟨-, ⟨hne, hplain⟩, hrest⟩ := h
  obtain ⟨d, w, rfl⟩ := List.exists_cons_of_ne_nil hne
  have hd := isspace_of_noenc (needsEnc_false hw d (List.mem_cons_self ..))
  -- what follows the word is nothing, or begins with white space
  obtain ⟨y', rfl, hy'⟩ : ∃ y', y = d :: w ++ y' ∧ y'.head? ≠ some questionMark := by
    cases rest with
    | nil =>
      cases hfold
      exact ⟨[], (List.append_nil _).symm, by simp⟩
    | cons b' rest =>
      cases hfold with
      | @cons _ _ _ c y₁ hc hfold =>
        refine ⟨c ++ (b' ++ y₁), rfl, fun hhead => ?_⟩
        obtain ⟨hne', hb'⟩ := hrest.head
        have hgap := (gap_of_breaks hc).append (gap_of_blank hb')
        rw [← List.append_assoc, List.head?_append_of_ne_nil _ (by simp [hne'])] at hhead
        exact hgap.question _ (List.mem_of_mem_head? hhead) rfl
  refine ⟨d, w ++ y', rfl, hd, ?_⟩
  rintro ⟨rfl, hhead⟩
  cases w with
  | nil => exact hy' hhead
  | cons e w =>
    exact (List.isChain_cons_cons.mp hplain).1 ⟨rfl, Option.some.inj hhead⟩

/-- What decoding a text makes of it, as far as it is still to be decoded. -/
def Restores (charset : Bytes) (words : List Bytes) : Prop :=
  ∀ t y, Open t → Folded (encodeRanges charset words) y →
    ∃ out, decodeFrom .copyPlain (t ++ y) = some (t ++ out) ∧
      unfolded out = unfolded words.flatten

/-- Behind an encoded range there is nothing more, or white space and a word that is not
encoded. -/
theorem decodeAfter_range {rest : List Bytes} {z y : Bytes} (hrest : Blanked rest)
    (hnext : ∀ b w rest', rest = b :: w :: rest' → needsEnc w = false)
    (hz : ∀ x ∈ z, x = Bytes.cr ∨ x = Bytes.lf)
    (hfold : Folded ([] :: encodeBehind charset rest) y)
    (ih : ∀ b rest', rest = b :: rest' → Restores charset rest') :
    ∃ out, decodeAfter (z ++ y) = some out ∧ unfolded out = unfolded rest.flatten := by
  have hgap := gap_of_breaks hz
  -- the range may end with the text
  cases rest with
  | nil =>
    cases hfold with
    | word =>
      refine ⟨z, ?_, unfolded_breaks hz⟩
      rw [List.append_nil, decodeAfter_plain hgap.plainText]
  | cons b rest =>
    cases hfold with
    | @cons _ _ _ c y₁ hc hfold =>
      obtain ⟨hne, hb⟩ := hrest.head
      have hgap' : Gap (z ++ (c ++ b)) := hgap.append ((gap_of_breaks hc).append (gap_of_blank hb))
      have hunfolded : unfolded (z ++ (c ++ b)) = unfolded b := by
        rw [unfolded_append, unfolded_append, unfolded_breaks hz, unfolded_breaks hc]
        rfl
      have hopen : Open (z ++ (c ++ b)) :=
        open_of_gap (t := []) Pairs.free_nil hgap' (by simp [hne])
      obtain ⟨out, hout, hequal⟩ := ih b rest rfl _ y₁ hopen hfold
      have hassoc : z ++ ([] ++ (c ++ (b ++ y₁))) = z ++ (c ++ b) ++ y₁ := by simp
      -- the white space is kept, since a word that is not encoded comes behind it
      have hplain : decodeAfter (z ++ (c ++ b) ++ y₁) =
          decodeFrom .copyPlain (z ++ (c ++ b) ++ y₁) := by
        cases rest with
        | nil =>
          rw [encodeRanges_nil] at hfold
          cases hfold
          rw [List.append_nil, decodeAfter_plain hgap'.plainText, decodeFrom_plain hgap'.plainText]
        | cons w rest =>
          rw [encodeRanges_plain (hnext b w rest rfl)] at hfold
          obtain ⟨d, v, rfl, hd, hinit⟩ := folded_start hrest (hnext b w rest rfl) hfold
          exact decodeAfter_gap hgap' hd hinit
      refine ⟨z ++ (c ++ b) ++ out, ?_, ?_⟩
      · rw [hassoc, hplain, hout]
      · rw [unfolded_append, hunfolded, hequal, List.flatten_cons, unfolded_append]

/-- Phases 2 and 3, and decoding what they make of a list of words. -/
theorem restores_of_worded (hq : questionMark ∉ charset) (words : List Bytes)
    (hwords : Worded words) : Restores charset words := by
  -- on the number of words and blanks: a range takes several of them at once
  induction hlen : words.length using Nat.strongRecOn generalizing words with
  | ind n ih =>
    intro t y ht hfold
    cases words with
    | nil =>
      rw [encodeRanges_nil] at hfold
      cases hfold
      refine ⟨[], ?_, rfl⟩
      rw [List.append_nil, decodeFrom_plain ht.plain]
    | cons w rest =>
      obtain ⟨hw, hrest⟩ := hwords
      cases hneed : needsEnc w with
      -- a word that is left as it is
      | false =>
        rw [encodeRanges_plain hneed] at hfold
        have htw : PlainText (t ++ w) := ht.append_word hw
        cases rest with
        | nil =>
          cases hfold
          refine ⟨_, decodeFrom_plain htw, ?_⟩
          rw [List.flatten_singleton]
        | cons b rest =>
          cases hfold with
          | @cons _ _ _ c y₁ hc hfold =>
            obtain ⟨hne, hb⟩ := hrest.head
            have hgap := (gap_of_breaks hc).append (gap_of_blank hb)
            have hopen : Open (t ++ w ++ (c ++ b)) := open_of_gap htw hgap (by simp [hne])
            obtain ⟨out, hout, hequal⟩ :=
              ih rest.length (by simp at hlen; omega) rest hrest.tail rfl _ y₁ hopen hfold
            refine ⟨w ++ (c ++ b) ++ out, ?_, ?_⟩
            · simpa using hout
            · simp [hequal, unfolded_breaks hc]
      -- a range of words that are encoded together
      | true =>
        rw [encodeRanges_range hneed] at hfold
        obtain ⟨z, y', hz, rfl, htail⟩ := folded_replicate hfold
        have hdrop := hrest.drop (rangeWords rest)
        obtain ⟨out, hout, hequal⟩ := decodeAfter_range hdrop (drop_rangeWords rest) hz htail
          fun b rest' heq => by
            have hle := congrArg List.length heq
            rw [heq] at hdrop
            simp at hle hlen
            exact ih rest'.length (by omega) rest' hdrop.tail rfl
        refine ⟨(w :: rest.take (2 * rangeWords rest)).flatten ++ out, ?_, ?_⟩
        · rw [decodeFrom_encodeWords hq ht.plain, hout]
          simp
        · rw [unfolded_append, hequal, ← unfolded_append, ← List.flatten_append, List.cons_append,
            List.take_append_drop]

end

/-- A text without `=?` that is encoded and decoded again is the same, but for carriage returns
and line feeds. -/
theorem unMimeHeader_rfc2047e (s charset : Bytes) (hs : PlainText s) (hlen : charset.length < 40)
    (hquestion : questionMark ∉ charset) :
    ∃ e out, rfc2047e s charset = some e ∧ unMimeHeader e = some out ∧
      unfolded out = unfolded s := by
  obtain ⟨hworded, hflatten, -⟩ := splitWords_worded s hs
  have hrestores := restores_of_worded hquestion _ hworded
  have hopen : Open [] := ⟨Pairs.free_nil, by simp⟩
  rw [rfc2047e, if_pos hlen]
  cases henc : encodeRanges charset (splitWords s) with
  | nil =>
    have hfold : Folded (encodeRanges charset (splitWords s)) [] := by
      rw [henc]
      exact .nil
    obtain ⟨out, hout, hequal⟩ := hrestores [] [] hopen hfold
    refine ⟨[], out, rfl, ?_, by rw [hequal, hflatten]⟩
    rw [unMimeHeader_eq]
    exact hout
  | cons w rest =>
    obtain ⟨y, hy, hfolded⟩ := foldLines_folded w w.length rest
    have hfold : Folded (encodeRanges charset (splitWords s)) (w ++ y) := by
      rw [henc]
      exact hfolded w
    obtain ⟨out, hout, hequal⟩ := hrestores [] (w ++ y) hopen hfold
    refine ⟨w ++ y, out, congrArg some hy, ?_, by rw [hequal, hflatten]⟩
    rw [unMimeHeader_eq]
    exact hout

/-- Two words with a character that needs encoding, a tabulator between them. -/
theorem unMimeHeader_rfc2047e_latin :
    ∃ e out, rfc2047e ([233, 116, 9, 233] ++ Bytes.lit " ou") (Bytes.lit "iso-8859-1") = some e ∧
      unMimeHeader e = some out ∧
      unfolded out = unfolded ([233, 116, 9, 233] ++ Bytes.lit " ou") :=
  unMimeHeader_rfc2047e _ _ (by decide) (by decide) (by decide)

end Fetchmail.Mime
