import Fetchmail.Mime.EncodeBounds

/-!
# Folded Headers

Where `rfc2047e` breaks lines, and whether the result is still one header field: behind each line
break there has to be white space, and something else before the next one. A line break inside an
encoded word has no white space behind it, and one before white space that nothing follows, or
before words that a range has made empty, has nothing else.
-/

namespace Fetchmail.Mime

open Fetchmail.Lib

/-! ## One header field -/

/-- A space or a tabulator. -/
def isBlank (c : UInt8) : Bool := c = Bytes.space ∨ c = Bytes.tab

/-- What has to stand behind a line break: white space, and a further character before the next
break. -/
def Continued (y : Bytes) : Prop :=
  ∃ b c z, y = b ++ c :: z ∧ b ≠ [] ∧ (∀ x ∈ b, isBlank x = true) ∧ isBlank c = false ∧
    c ≠ Bytes.cr

/-- All lines but the first continue a header field. -/
def Legal (out : Bytes) : Prop := ∀ x y, out = x ++ (Bytes.crlf ++ y) → Continued y

/-! ## The parts of a header -/

/-- White space and what follows it: a word, or a range of words that are encoded together. -/
structure Chunk where
  blank : Bytes
  text : Bytes
  encoded : Bool
  /-- the range has more than one word -/
  several : Bool
  deriving DecidableEq, Repr

/-- The columns of a chunk, where an encoded word has a single piece. -/
def Chunk.width (charset : Bytes) (c : Chunk) : Nat :=
  c.blank.length + if c.encoded then charset.length + 7 + columns c.text else c.text.length

/-- The range is longer than a line, and has words in it that are made empty. -/
def Chunk.Overfull (charset : Bytes) (c : Chunk) : Prop := c.several = true ∧ 74 < c.width charset

instance (charset : Bytes) (c : Chunk) : Decidable (c.Overfull charset) := by
  unfold Chunk.Overfull
  infer_instance

/-- The length of a line that has `l` columns, or of the next, when there are `m` to be added. -/
def fill (l m : Nat) : Nat := if 74 < l + m then m else l + m

/-- The length of the last line behind chunks. Behind a range that is longer than a line there is
a line break. -/
def lineAfter (charset : Bytes) (l : Nat) : List Chunk → Nat
  | [] => l
  | c :: cs => lineAfter charset (if c.Overfull charset then 0 else fill l (c.width charset)) cs

/-- The chunks of a list of words behind white space, and the white space at the end. -/
def chunksOf (blank : Bytes) : List Bytes → List Chunk × Bytes
  | [] => ([], blank)
  | w :: rest =>
    if needsEnc w then
      let n := 2 * rangeWords rest
      let behind := match _h : rest.drop n with
        | [] => ([], [])
        | b :: rest' => chunksOf b rest'
      (⟨blank, (w :: rest.take n).flatten, true, 0 < rangeWords rest⟩ :: behind.1, behind.2)
    else
      let behind := match rest with
        | [] => ([], [])
        | b :: rest' => chunksOf b rest'
      (⟨blank, w, false, false⟩ :: behind.1, behind.2)
termination_by words => words.length
decreasing_by
  · have hle := congrArg List.length _h
    rw [List.length_drop, List.length_cons] at hle
    rw [List.length_cons]
    omega
  · simp only [List.length_cons]
    omega

/-- Behind a word. -/
def chunksBehind : List Bytes → List Chunk × Bytes
  | [] => ([], [])
  | b :: rest => chunksOf b rest

/-- The line breaks between chunks are such that the header stays one field. -/
structure Foldable (charset : Bytes) (l : Nat) (chunks : List Chunk × Bytes) : Prop where
  /-- White space at the end has room on the last line. -/
  trailing : chunks.2 ≠ [] → lineAfter charset l chunks.1 + chunks.2.length ≤ 74
  /-- Behind a range that is longer than a line there is a word that is shorter. -/
  overfull : ∀ c cs, c :: cs <:+ chunks.1 → c.Overfull charset →
    ∃ c' ∈ cs.head?, c'.width charset ≤ 74

/-- And no encoded word is split. -/
def FoldsLegally (charset string : Bytes) : Prop :=
  (∀ c ∈ (chunksOf [] (splitWords string)).1, c.encoded = true →
    columns c.text.dropLast < room charset) ∧
      Foldable charset 0 (chunksOf [] (splitWords string))

section

variable {charset blank w : Bytes}

theorem chunksOf_nil (blank : Bytes) : chunksOf blank [] = ([], blank) := by
  rw [chunksOf]

theorem chunksOf_plain (h : needsEnc w = false) (blank : Bytes) (rest : List Bytes) :
    chunksOf blank (w :: rest) =
      (⟨blank, w, false, false⟩ :: (chunksBehind rest).1, (chunksBehind rest).2) := by
  rw [chunksOf.eq_def]
  simp only [h, Bool.false_eq_true, if_false]
  cases rest <;> rfl

theorem chunksOf_range (h : needsEnc w = true) (blank : Bytes) (rest : List Bytes) :
    chunksOf blank (w :: rest) =
      (⟨blank, (w :: rest.take (2 * rangeWords rest)).flatten, true, 0 < rangeWords rest⟩ ::
        (chunksBehind (rest.drop (2 * rangeWords rest))).1,
        (chunksBehind (rest.drop (2 * rangeWords rest))).2) := by
  rw [chunksOf.eq_def]
  simp only [h, if_true]
  split
  · next hdrop => rw [hdrop]; rfl
  · next hdrop => rw [hdrop]; rfl

/-! ## Legal texts -/

/-- Without line breaks, and halves of them. -/
def Clean (s : Bytes) : Prop := ∀ c ∈ s, c ≠ Bytes.cr ∧ c ≠ Bytes.lf

instance (s : Bytes) : Decidable (Clean s) :=
  inferInstanceAs (Decidable (∀ c ∈ s, c ≠ Bytes.cr ∧ c ≠ Bytes.lf))

theorem Clean.append {s t : Bytes} (hs : Clean s) (ht : Clean t) : Clean (s ++ t) :=
  fun c hc => (List.mem_append.mp hc).elim (hs c) (ht c)

theorem Clean.legal_append {s : Bytes} (hs : Clean s) (y : Bytes) : Legal (s ++ y) ↔ Legal y := by
  constructor
  · intro h x z hy
    exact h (s ++ x) z (by rw [hy, List.append_assoc])
  · intro h x z heq
    rcases List.append_eq_append_iff.mp heq with ⟨u, rfl, hy⟩ | ⟨u, rfl, hz⟩
    · exact h u z hy
    · cases u with
      | nil => exact h [] z hz.symm
      | cons c u =>
        obtain rfl : Bytes.cr = c := (List.cons.inj hz).1
        exact absurd rfl (hs Bytes.cr (by simp)).1

theorem legal_nil : Legal [] := fun x y h => by simp [Bytes.crlf] at h

theorem Clean.legal {s : Bytes} (hs : Clean s) : Legal s := by
  have happend := hs.legal_append []
  rw [List.append_nil] at happend
  exact happend.mpr legal_nil

theorem legal_crlf (y : Bytes) : Legal (Bytes.crlf ++ y) ↔ Continued y ∧ Legal y := by
  constructor
  · intro h
    exact ⟨h [] y rfl, fun x z hy => h (Bytes.crlf ++ x) z (by rw [hy, List.append_assoc])⟩
  · rintro ⟨hcont, h⟩ x z heq
    match x with
    | [] => exact List.append_cancel_left heq ▸ hcont
    | [_] => exact absurd (List.cons.inj (List.cons.inj heq).2).1 (by decide)
    | _ :: _ :: x => exact h x z (List.cons.inj (List.cons.inj heq).2).2

theorem continued_append {b : Bytes} {c : UInt8} (hb : b ≠ [])
    (hblank : ∀ x ∈ b, isBlank x = true) (hc : isBlank c = false) (hcr : c ≠ Bytes.cr) (y : Bytes) :
    Continued (b ++ c :: y) := ⟨b, c, y, rfl, hb, hblank, hc, hcr⟩

theorem not_continued_nil : ¬ Continued [] := by
  rintro ⟨b, c, z, heq, -⟩
  simp at heq

theorem not_continued_blank {b : Bytes} (h : ∀ x ∈ b, isBlank x = true) : ¬ Continued b := by
  rintro ⟨b', c, z, rfl, -, -, hc, -⟩
  rw [h c (by simp)] at hc
  cases hc

theorem not_continued_cons {c : UInt8} (hc : isBlank c = false) (y : Bytes) :
    ¬ Continued (c :: y) := by
  rintro ⟨b, d, z, heq, hb, hblank, -⟩
  obtain ⟨x, b, rfl⟩ := List.exists_cons_of_ne_nil hb
  obtain rfl : c = x := (List.cons.inj heq).1
  rw [hblank c List.mem_cons_self] at hc
  cases hc

theorem not_continued_crlf (y : Bytes) : ¬ Continued (Bytes.crlf ++ y) :=
  not_continued_cons (by decide) _

/-! ## Folding without line breaks in the words -/

/-- What `foldLines` puts behind what is there. -/
def foldBehind (l : Nat) : List Bytes → Bytes
  | [] => []
  | [b] => lineBreak l b.length ++ b
  | b :: w :: rest =>
    lineBreak l (b.length + w.length) ++ (b ++ (w ++ foldBehind (fill l (b.length + w.length)) rest))

theorem lastLine_append_clean {x : Bytes} (hx : Clean x) (out : Bytes) :
    lastLine (out ++ x) = lastLine out + x.length := by
  have hall : ∀ c ∈ x.reverse, decide (c ≠ Bytes.lf) = true := fun c hc =>
    decide_eq_true (hx c (List.mem_reverse.mp hc)).2
  rw [lastLine, lastLine, List.reverse_append, List.takeWhile_append_of_pos hall,
    List.length_append, List.length_reverse, Nat.add_comm]

theorem lastLine_fill {x : Bytes} (hx : Clean x) (out : Bytes) :
    lastLine (out ++ (lineBreak (lastLine out) x.length ++ x)) = fill (lastLine out) x.length := by
  rw [← List.append_assoc, lastLine_append_clean hx]
  unfold lineBreak fill
  split
  · rw [lastLine_crlf, Nat.zero_add]
  · rw [List.append_nil]

theorem foldLines_clean (out : Bytes) (l : Nat) (rest : List Bytes) (hrest : ∀ w ∈ rest, Clean w)
    (hl : lastLine out = l) : foldLines out l rest = out ++ foldBehind l rest := by
  induction out, l, rest using foldLines.induct with
  | case1 out l => rw [foldLines, foldBehind, List.append_nil]
  | case2 out l b => rw [foldLines, foldBehind]
  | case3 out l b w rest m out' ih =>
    have hb : Clean b := hrest b (by simp)
    have hw : Clean w := hrest w (by simp)
    have htake : w.takeWhile (fun c => c ≠ Bytes.cr ∧ c ≠ Bytes.lf) = w :=
      List.takeWhile_eq_self_iff.mpr fun c hc => decide_eq_true (hw c hc)
    have hm : m = (b ++ w).length := by
      simp only [m, htake, List.length_append]
    have hnext : lastLine out' = fill l (b.length + w.length) := by
      have hfill := lastLine_fill (hb.append hw) out
      rw [hl, ← hm] at hfill
      rw [← List.length_append, ← hm]
      exact hfill
    rw [foldLines]
    refine (ih (fun x hx => hrest x (by simp [hx])) rfl).trans ?_
    rw [hnext, foldBehind, ← List.length_append, ← hm]
    simp only [out', List.append_assoc]

/-- The emptied words behind a range break a line that is too long, once. -/
theorem foldBehind_replicate (k l : Nat) (rest : List Bytes) :
    foldBehind l (List.replicate (2 * k) [] ++ rest) =
      if 0 < k ∧ 74 < l then Bytes.crlf ++ foldBehind 0 rest else foldBehind l rest := by
  induction k generalizing l with
  | zero => rfl
  | succ k ih =>
    rw [Nat.mul_succ, List.replicate_succ, List.replicate_succ, List.cons_append, List.cons_append,
      foldBehind, ih]
    by_cases hl : 74 < l
    · have hfill : fill l (([] : Bytes).length + ([] : Bytes).length) = 0 := if_pos hl
      rw [hfill, if_neg (by simp), if_pos (c := 0 < k + 1 ∧ 74 < l) ⟨Nat.succ_pos k, hl⟩]
      simp [lineBreak, hl]
    · have hfill : fill l (([] : Bytes).length + ([] : Bytes).length) = l := if_neg hl
      rw [hfill, if_neg fun h => hl h.2, if_neg fun h => hl h.2]
      simp [lineBreak, hl]

/-! ## Words and white space on one line -/

/-- White space between words. -/
def Blank (b : Bytes) : Prop := b ≠ [] ∧ ∀ x ∈ b, isBlank x = true

/-- A word. -/
def Word (w : Bytes) : Prop := w ≠ [] ∧ ∀ x ∈ w, isWs x = false

/-- White space and words in turn. -/
def Spaced : List Bytes → Prop
  | [] => True
  | [b] => Blank b
  | b :: w :: rest => Blank b ∧ Word w ∧ Spaced rest

theorem Spaced.drop {rest : List Bytes} (h : Spaced rest) (k : Nat) :
    Spaced (rest.drop (2 * k)) := by
  induction k generalizing rest with
  | zero => exact h
  | succ k ih =>
    rw [Nat.mul_succ]
    match rest, h with
    | [], _ => trivial
    | [_], _ => trivial
    | _ :: _ :: rest, h => exact ih h.2.2

theorem isWs_of_clean {c : UInt8} (h : c ≠ Bytes.cr ∧ c ≠ Bytes.lf) : isWs c = isBlank c := by
  have hws : isWs c = decide (c = Bytes.space ∨ c = Bytes.tab ∨ c = Bytes.cr ∨ c = Bytes.lf) := by
    unfold isWs
    congr 1
    exact propext (by simp [Bytes.lit, Bytes.space, Bytes.tab, Bytes.cr, Bytes.lf])
  rw [hws]
  simp [isBlank, h.1, h.2]

theorem clean_of_isWs {w : Bytes} (h : ∀ x ∈ w, isWs x = false) : Clean w := by
  intro c hc
  have hws := h c hc
  constructor
  · rintro rfl
    exact absurd hws (by decide)
  · rintro rfl
    exact absurd hws (by decide)

/-- Phase 1: words and white space in turn. -/
theorem splitWords_spaced (s : Bytes) (hs : Clean s) : ∀ w rest, splitWords s = w :: rest →
    (∀ x ∈ w, isWs x = false) ∧ Spaced rest ∧ ∀ c ∈ s.head?, isWs c = false → w ≠ [] := by
  induction s using splitWords.induct with
  | case1 =>
    intro w rest heq
    rw [splitWords, if_pos rfl] at heq
    cases heq
  | case2 s hne ih =>
    intro w rest heq
    rw [splitWords, if_neg hne] at heq
    obtain ⟨rfl, rfl⟩ := List.cons.inj heq
    have hword : ∀ x ∈ s.takeWhile (!isWs ·), isWs x = false :=
      fun x hx => by simpa using List.mem_takeWhile_imp hx
    refine ⟨hword, ?_, fun c hc hws => word_ne_nil hc hws⟩
    by_cases hrest : s.dropWhile (!isWs ·) = []
    · rw [dif_pos hrest]
      trivial
    · rw [dif_neg hrest]
      -- the white space is not empty, and a word behind it is none either
      have hclean : ∀ c ∈ s.dropWhile (!isWs ·), c ≠ Bytes.cr ∧ c ≠ Bytes.lf :=
        fun c hc => hs c ((List.dropWhile_suffix _).mem hc)
      have hne' := blank_ne_nil hrest
      generalize s.dropWhile (!isWs ·) = r at hrest hclean hne' ih ⊢
      have hblank : Blank (r.takeWhile isWs) := by
        refine ⟨hne', fun x hx => ?_⟩
        rw [← isWs_of_clean (hclean x ((List.takeWhile_prefix _).mem hx))]
        exact List.mem_takeWhile_imp hx
      have hnext := Bytes.head_dropWhile isWs r
      cases hsplit : splitWords (r.dropWhile isWs) with
      | nil => exact hblank
      | cons w' rest' =>
        obtain ⟨hw', hrest', hne'⟩ := ih hrest
          (fun c hc => hclean c ((List.dropWhile_suffix _).mem hc)) w' rest' hsplit
        have hr : r.dropWhile isWs ≠ [] := by
          intro hnil
          rw [hnil, splitWords, if_pos rfl] at hsplit
          cases hsplit
        obtain ⟨c, r', hcons⟩ := List.exists_cons_of_ne_nil hr
        rw [hcons] at hne' hnext
        exact ⟨hblank, ⟨hne' c rfl (hnext c rfl), hw'⟩, hrest'⟩

/-! ## Encoded words -/

/-- Within a single piece, an encoded word is on one line. -/
theorem encodeWords_piece {words : List Bytes} (hcharset : charset.length < 64)
    (hpiece : columns words.flatten.dropLast < room charset) :
    encodeWords charset words = mimehdrInit ++ (charsetQ charset ++
      (words.flatten.flatMap encodeChar ++ mimehdrEnd)) := by
  have hlen : (charsetQ charset).length = charset.length + 3 := by simp [charsetQ]
  have hloop := @encodeChars_piece charset words.flatten [] (2 + (charsetQ charset).length)
    fun _ => by
      unfold room at hpiece
      omega
  rw [List.append_nil, encodeChars, List.append_nil] at hloop
  rw [encodeWords, hloop]

theorem clean_encodeChar (u : UInt8) : Clean (encodeChar u) := by
  have hchars : ∀ c ∈ encchars, c ≠ Bytes.cr ∧ c ≠ Bytes.lf := by decide +kernel
  have hhex : ∀ n < 16, upperHex n ≠ Bytes.cr ∧ upperHex n ≠ Bytes.lf := by decide
  have hu := u.toNat_lt
  unfold encodeChar
  split
  · decide
  · split
    · next henc =>
      intro c hc
      rw [List.mem_singleton.mp hc]
      exact hchars u henc
    · intro c hc
      simp only [List.mem_cons, List.not_mem_nil, or_false] at hc
      rcases hc with rfl | rfl | rfl
      · decide
      · exact hhex _ (by omega)
      · exact hhex _ (by omega)

theorem clean_encodeWords {words : List Bytes} (hcharset : charset.length < 64)
    (hclean : Clean charset) (hpiece : columns words.flatten.dropLast < room charset) :
    Clean (encodeWords charset words) := by
  rw [encodeWords_piece hcharset hpiece]
  have hQ : Clean (charsetQ charset) := hclean.append (by decide)
  have htext : Clean (words.flatten.flatMap encodeChar) := by
    intro c hc
    obtain ⟨u, -, hu⟩ := List.mem_flatMap.mp hc
    exact clean_encodeChar u c hu
  have hinit : Clean mimehdrInit := by decide
  have hend : Clean mimehdrEnd := by decide
  exact hinit.append (hQ.append (htext.append hend))

/-- An encoded word that is split has a line break with no white space behind it. -/
theorem encodeWords_split {words : List Bytes} (hcharset : charset.length < 64)
    (hpiece : ¬ columns words.flatten.dropLast < room charset) :
    ∃ x y, encodeWords charset words = x ++ (Bytes.crlf ++ Bytes.equals :: y) := by
  have hlen : (charsetQ charset).length = charset.length + 3 := by simp [charsetQ]
  obtain ⟨k, hk⟩ := exists_pieces (Nat.sub_pos_of_lt hcharset) words.flatten
  generalize hus : words.flatten = us at hk hpiece
  cases hk with
  | last hlast => exact absurd hlast hpiece
  | @cut piece us k hlt hle hne _ =>
    unfold room at hlt hle
    have hloop : encodeChars charset (2 + (charsetQ charset).length) (piece ++ us) =
        piece.flatMap encodeChar ++ (mimehdrEnd ++ (Bytes.crlf ++ (mimehdrInit ++
          (charsetQ charset ++ encodeChars charset (2 + (charsetQ charset).length) us)))) := by
      rw [encodeChars_piece piece us _ fun _ => by omega,
        encodeChars_break hcharset hne (by omega)]
    rw [encodeWords, hus, hloop]
    refine ⟨mimehdrInit ++ (charsetQ charset ++ (piece.flatMap encodeChar ++ mimehdrEnd)),
      questionMark :: (charsetQ charset ++
        (encodeChars charset (2 + (charsetQ charset).length) us ++ mimehdrEnd)), ?_⟩
    simp [mimehdrInit, Bytes.equals, questionMark]

/-! ## Where folding is legal -/

variable {b : Bytes} {l : Nat}

theorem Blank.clean (h : Blank b) : Clean b := by
  intro c hc
  have hblank := h.2 c hc
  constructor
  · rintro rfl
    exact absurd hblank (by decide)
  · rintro rfl
    exact absurd hblank (by decide)

/-- A text on one line that begins with no white space. -/
structure Solid (w : Bytes) : Prop where
  clean : Clean w
  head : ∃ c ∈ w.head?, isBlank c = false

theorem Word.solid (h : Word w) : Solid w := by
  obtain ⟨c, w, rfl⟩ := List.exists_cons_of_ne_nil h.1
  have hclean := clean_of_isWs h.2
  refine ⟨hclean, c, rfl, ?_⟩
  rw [← isWs_of_clean (hclean c List.mem_cons_self)]
  exact h.2 c List.mem_cons_self

theorem solid_encodeWords {words : List Bytes} (hcharset : charset.length < 64)
    (hclean : Clean charset) (hpiece : columns words.flatten.dropLast < room charset) :
    Solid (encodeWords charset words) :=
  ⟨clean_encodeWords hcharset hclean hpiece, Bytes.equals, rfl, by decide⟩

theorem Solid.continued (hw : Solid w) (hb : Blank b) (y : Bytes) : Continued (b ++ (w ++ y)) := by
  obtain ⟨c, hc, hblank⟩ := hw.head
  obtain ⟨w, rfl⟩ : ∃ t, w = c :: t := ⟨_, (List.cons_head?_tail hc).symm⟩
  exact continued_append hb.1 hb.2 hblank (hw.clean c List.mem_cons_self).1 (w ++ y)

/-- A word does no harm. -/
theorem Solid.legal_foldBehind (hw : Solid w) (hb : Blank b) (l : Nat) (rest : List Bytes) :
    Legal (foldBehind l (b :: w :: rest)) ↔
      Legal (foldBehind (fill l (b.length + w.length)) rest) := by
  have htext : ∀ y, Legal (b ++ (w ++ y)) ↔ Legal y := fun y =>
    (hb.clean.legal_append _).trans (hw.clean.legal_append y)
  rw [foldBehind]
  unfold lineBreak
  split
  · rw [legal_crlf, htext]
    exact and_iff_right (hw.continued hb _)
  · rw [List.nil_append, htext]

/-- White space at the end has to have room. -/
theorem legal_trailing (hb : Blank b) : Legal (foldBehind l [b]) ↔ l + b.length ≤ 74 := by
  rw [foldBehind]
  unfold lineBreak
  split
  · next hlong =>
    rw [legal_crlf]
    exact iff_of_false (fun h => not_continued_blank hb.2 h.1) (by omega)
  · next hshort =>
    exact iff_of_true hb.clean.legal (by omega)

theorem foldable_nil (charset : Bytes) (l : Nat) : Foldable charset l ([], []) :=
  ⟨fun h => absurd rfl h, fun c cs h => by simp at h⟩

theorem foldable_trailing (hb : b ≠ []) :
    Foldable charset l ([], b) ↔ l + b.length ≤ 74 :=
  ⟨fun h => h.trailing hb, fun h => ⟨fun _ => h, fun c cs hsuffix => by simp at hsuffix⟩⟩

theorem foldable_cons {c : Chunk} {cs : List Chunk} {trailing : Bytes} :
    Foldable charset l (c :: cs, trailing) ↔
      (c.Overfull charset → ∃ c' ∈ cs.head?, c'.width charset ≤ 74) ∧
        Foldable charset (if c.Overfull charset then 0 else fill l (c.width charset))
          (cs, trailing) := by
  constructor
  · exact fun h => ⟨h.overfull c cs (List.suffix_refl _), h.trailing, fun c' cs' hsuffix =>
      h.overfull c' cs' (hsuffix.trans (List.suffix_cons c cs))⟩
  · rintro ⟨hfirst, h⟩
    refine ⟨h.trailing, fun c' cs' hsuffix => ?_⟩
    rcases List.suffix_cons_iff.mp hsuffix with heq | hsuffix
    · obtain ⟨rfl, rfl⟩ := List.cons.inj heq
      exact hfirst
    · exact h.overfull c' cs' hsuffix

/-- What has to stand behind a range that is longer than a line. -/
theorem continued_foldBehind {rest : List Bytes} (hrest : Spaced rest)
    (hnext : ∀ b w rest', rest = b :: w :: rest' → needsEnc w = false) :
    Continued (foldBehind 0 (encodeBehind charset rest)) ↔
      ∃ c' ∈ (chunksBehind rest).1.head?, c'.width charset ≤ 74 := by
  match rest, hrest with
  | [], _ => exact iff_of_false not_continued_nil (by simp [chunksBehind])
  | [b], hb =>
    rw [encodeBehind, encodeRanges_nil, foldBehind, chunksBehind, chunksOf_nil]
    refine iff_of_false ?_ (by simp)
    unfold lineBreak
    split
    · exact not_continued_crlf b
    · exact not_continued_blank hb.2
  | b :: w :: rest, ⟨hb, hw, _⟩ =>
    have hplain := hnext b w rest rfl
    have hwidth : Chunk.width charset ⟨b, w, false, false⟩ = b.length + w.length := rfl
    rw [encodeBehind, encodeRanges_plain hplain, chunksBehind, chunksOf_plain hplain, foldBehind]
    simp only [List.head?_cons, Option.mem_def, Option.some.injEq, exists_eq_left', hwidth]
    unfold lineBreak
    split
    · next hlong => exact iff_of_false (not_continued_crlf _) (by omega)
    · next hshort => exact iff_of_true (hw.solid.continued hb _) (by omega)

/-- The columns of a range that is not split. -/
theorem width_range {words : List Bytes} (hcharset : charset.length < 64)
    (hpiece : columns words.flatten.dropLast < room charset) (b : Bytes) (several : Bool) :
    (⟨b, words.flatten, true, several⟩ : Chunk).width charset =
      b.length + (encodeWords charset words).length := by
  have hlength := length_encodeWords hcharset (Pieces.last hpiece)
  rw [Nat.zero_mul, Nat.add_zero] at hlength
  rw [hlength]
  rfl

/-- A range behind a word, before something of which it is known where folding is legal. -/
theorem legal_range {w : Bytes} {rest : List Bytes} (hcharset : charset.length < 64)
    (hclean : Clean charset) (hb : Blank b) (hneed : needsEnc w = true) (hspaced : Spaced rest)
    (hpiece : columns (w :: rest.take (2 * rangeWords rest)).flatten.dropLast < room charset)
    (hbehind : ∀ l, Legal (foldBehind l (encodeBehind charset (rest.drop (2 * rangeWords rest)))) ↔
      Foldable charset l (chunksBehind (rest.drop (2 * rangeWords rest)))) :
    Legal (foldBehind l (encodeBehind charset (b :: w :: rest))) ↔
      Foldable charset l (chunksBehind (b :: w :: rest)) := by
  have hsolid := solid_encodeWords hcharset hclean hpiece
  have hwidth := width_range hcharset hpiece b (0 < rangeWords rest)
  rw [encodeBehind, chunksBehind, chunksOf_range hneed, encodeRanges_range hneed,
    hsolid.legal_foldBehind hb, foldBehind_replicate, foldable_cons]
  generalize encodeWords charset (w :: rest.take (2 * rangeWords rest)) = e at hwidth ⊢
  generalize hc : (⟨b, (w :: rest.take (2 * rangeWords rest)).flatten, true,
    decide (0 < rangeWords rest)⟩ : Chunk) = c at hwidth ⊢
  have hover : 0 < rangeWords rest ∧ 74 < fill l (b.length + e.length) ↔ c.Overfull charset := by
    rw [Chunk.Overfull, hwidth, ← hc, decide_eq_true_eq]
    unfold fill
    split <;> omega
  by_cases hlong : c.Overfull charset
  -- the line is broken before the emptied words, so that the next chunk has to continue it
  · rw [if_pos (hover.mpr hlong), if_pos hlong, legal_crlf, forall_prop_of_true hlong,
      continued_foldBehind (hspaced.drop _) (drop_rangeWords rest), hbehind 0]
  · rw [if_neg (mt hover.mp hlong), if_neg hlong, hbehind, hwidth]
    exact (and_iff_right fun h => absurd h hlong).symm

/-- **Where folding behind a word is legal**, as long as no encoded word is split. -/
theorem legal_foldBehind_iff (hcharset : charset.length < 64) (hclean : Clean charset)
    (rest : List Bytes) (hrest : Spaced rest) (hpieces : ∀ c ∈ (chunksBehind rest).1,
      c.encoded = true → columns c.text.dropLast < room charset) (l : Nat) :
    Legal (foldBehind l (encodeBehind charset rest)) ↔
      Foldable charset l (chunksBehind rest) := by
  induction hlen : rest.length using Nat.strongRecOn generalizing rest l with
  | ind n ih =>
    match rest, hrest with
    | [], _ => exact iff_of_true legal_nil (foldable_nil charset l)
    | [b], hb =>
      rw [encodeBehind, encodeRanges_nil, chunksBehind, chunksOf_nil, legal_trailing hb,
        foldable_trailing hb.1]
    | b :: w :: rest, ⟨hb, hw, hrest⟩ =>
      cases hneed : needsEnc w with
      | false =>
        -- a word goes to the line or begins the next
        rw [encodeBehind, chunksBehind] at *
        rw [chunksOf_plain hneed] at hpieces ⊢
        have hover : ¬ Chunk.Overfull charset ⟨b, w, false, false⟩ := fun h =>
          Bool.noConfusion h.1
        rw [encodeRanges_plain hneed, hw.solid.legal_foldBehind hb, foldable_cons, if_neg hover,
          ih rest.length (by rw [← hlen, List.length_cons, List.length_cons]; omega) rest hrest
            (fun c hc => hpieces c (List.mem_cons_of_mem _ hc)) _ rfl]
        exact (and_iff_right fun h => absurd h hover).symm
      | true =>
        rw [chunksBehind, chunksOf_range hneed] at hpieces
        refine legal_range hcharset hclean hb hneed hrest (hpieces _ List.mem_cons_self rfl) ?_
        intro l
        exact ih (rest.drop (2 * rangeWords rest)).length
          (by rw [← hlen, List.length_cons, List.length_cons, List.length_drop]; omega)
          (rest.drop (2 * rangeWords rest)) (hrest.drop (rangeWords rest))
          (fun c hc => hpieces c (List.mem_cons_of_mem _ hc)) l rfl

/-! ## The whole header -/

/-- Each word is in the folded text. -/
theorem infix_foldLines (out : Bytes) (l : Nat) (rest : List Bytes) :
    out <:+: foldLines out l rest ∧ ∀ w ∈ rest, w <:+: foldLines out l rest := by
  induction out, l, rest using foldLines.induct with
  | case1 out l =>
    exact ⟨List.IsPrefix.isInfix ⟨[], by rw [List.append_nil, foldLines]⟩, by simp⟩
  | case2 out l b =>
    rw [foldLines]
    refine ⟨(List.prefix_append _ _).isInfix, fun w hw => ?_⟩
    rw [List.mem_singleton.mp hw, ← List.append_assoc]
    exact (List.suffix_append _ _).isInfix
  | case3 out l b w rest m out' ih =>
    rw [foldLines]
    obtain ⟨hout, hrest⟩ := ih
    refine ⟨(List.prefix_append out _).isInfix.trans hout, fun x hx => ?_⟩
    rcases List.mem_cons.mp hx with rfl | hx
    · refine List.IsInfix.trans ⟨out ++ lineBreak l m, w, ?_⟩ hout
      simp [out']
    rcases List.mem_cons.mp hx with rfl | hx
    · refine List.IsInfix.trans (List.IsSuffix.isInfix ⟨out ++ (lineBreak l m ++ b), ?_⟩) hout
      simp [out']
    · exact hrest x hx

/-- An encoded chunk is what a call of `encode_words` encodes. -/
theorem exists_call (blank : Bytes) (words : List Bytes) {c : Chunk}
    (hc : c ∈ (chunksOf blank words).1) (hencoded : c.encoded = true) :
    ∃ call ∈ encodeCalls words, c.text = call.flatten := by
  -- on the number of words; `hbehind` is the induction hypothesis behind a blank
  induction hlen : words.length using Nat.strongRecOn generalizing blank words with
  | ind n ih =>
    have hbehind : ∀ rest : List Bytes, rest.length < n → c ∈ (chunksBehind rest).1 →
        ∃ call ∈ callsBehind rest, c.text = call.flatten := by
      intro rest hlt hmem
      cases rest with
      | nil => simp [chunksBehind] at hmem
      | cons b rest =>
        rw [List.length_cons] at hlt
        exact ih rest.length (by omega) b rest hmem rfl
    cases words with
    | nil => simp [chunksOf_nil] at hc
    | cons w rest =>
      rw [List.length_cons] at hlen
      cases hneed : needsEnc w with
      | false =>
        rw [chunksOf_plain hneed] at hc
        rw [encodeCalls_plain hneed]
        rcases List.mem_cons.mp hc with rfl | hc
        · cases hencoded
        · exact hbehind rest (by omega) hc
      | true =>
        rw [chunksOf_range hneed] at hc
        rw [encodeCalls_range hneed]
        rcases List.mem_cons.mp hc with rfl | hc
        · exact ⟨_, List.mem_cons_self, rfl⟩
        · obtain ⟨call, hcall, htext⟩ := hbehind (rest.drop (2 * rangeWords rest))
            (by rw [List.length_drop]; omega) hc
          exact ⟨call, List.mem_cons_of_mem _ hcall, htext⟩

/-- Where no encoded word is split, there are line breaks nowhere. -/
theorem clean_encodeBehind (hcharset : charset.length < 64) (hclean : Clean charset)
    (rest : List Bytes) (hrest : Spaced rest) (hpieces : ∀ c ∈ (chunksBehind rest).1,
      c.encoded = true → columns c.text.dropLast < room charset) :
    ∀ x ∈ encodeBehind charset rest, Clean x := by
  -- on the number of words, as a range takes many of them at once
  induction hlen : rest.length using Nat.strongRecOn generalizing rest with
  | ind n ih =>
    intro x hx
    match rest, hrest with
    | [], _ => simp [encodeBehind] at hx
    | [b], hb =>
      rw [encodeBehind, encodeRanges_nil, List.mem_singleton] at hx
      exact hx ▸ Blank.clean hb
    | b :: w :: rest, ⟨hb, hw, hrest⟩ =>
      rw [encodeBehind] at hx
      rw [chunksBehind] at hpieces
      rw [List.length_cons, List.length_cons] at hlen
      rcases List.mem_cons.mp hx with rfl | hx
      · exact hb.clean
      cases hneed : needsEnc w with
      | false =>
        rw [chunksOf_plain hneed] at hpieces
        rw [encodeRanges_plain hneed] at hx
        rcases List.mem_cons.mp hx with rfl | hx
        · exact hw.solid.clean
        · exact ih rest.length (by omega) rest hrest
            (fun c hc => hpieces c (List.mem_cons_of_mem _ hc)) rfl x hx
      | true =>
        rw [chunksOf_range hneed] at hpieces
        rw [encodeRanges_range hneed] at hx
        rcases List.mem_cons.mp hx with rfl | hx
        · exact clean_encodeWords hcharset hclean (hpieces _ List.mem_cons_self rfl)
        rcases List.mem_append.mp hx with hx | hx
        · rw [(List.mem_replicate.mp hx).2]
          exact fun c hc => by simp at hc
        · exact ih (rest.drop (2 * rangeWords rest)).length (by rw [List.length_drop]; omega)
            (rest.drop (2 * rangeWords rest)) (hrest.drop _)
            (fun c hc => hpieces c (List.mem_cons_of_mem _ hc)) rfl x hx

/-- A split encoded word anywhere in the header. -/
theorem not_legal_of_split {words : List Bytes} {out : Bytes} (hcharset : charset.length < 64)
    (hpiece : ¬ columns words.flatten.dropLast < room charset)
    (hsub : encodeWords charset words <:+: out) : ¬ Legal out := by
  intro h
  obtain ⟨x, y, heq⟩ := encodeWords_split hcharset hpiece
  obtain ⟨u, v, rfl⟩ := hsub
  have hcont := h (u ++ x) (Bytes.equals :: y ++ v) (by rw [heq]; simp)
  exact not_continued_cons (by decide) _ hcont

/-- The first word, and what is folded behind it. -/
theorem legal_foldLines {w : Bytes} {rest : List Bytes} (hw : Clean w)
    (hrest : ∀ x ∈ rest, Clean x) :
    Legal (foldLines w w.length rest) ↔ Legal (foldBehind w.length rest) := by
  have hlast : lastLine w = w.length := by
    have happend := lastLine_append_clean hw []
    rwa [List.nil_append, show lastLine [] = 0 from rfl, Nat.zero_add] at happend
  rw [foldLines_clean w w.length rest hrest hlast, hw.legal_append]

/-- The first chunk, where it is a word. -/
theorem legal_plain_first {w : Bytes} {rest : List Bytes} (hcharset : charset.length < 64)
    (hclean : Clean charset) (hword : Clean w) (hneed : needsEnc w = false) (hspaced : Spaced rest)
    (hpieces : ∀ c ∈ (chunksOf [] (w :: rest)).1, c.encoded = true →
      columns c.text.dropLast < room charset) :
    Legal (foldLines w w.length (encodeBehind charset rest)) ↔
      Foldable charset 0 (chunksOf [] (w :: rest)) := by
  rw [chunksOf_plain hneed] at hpieces ⊢
  have hbehind : ∀ c ∈ (chunksBehind rest).1, c.encoded = true →
      columns c.text.dropLast < room charset :=
    fun c hc => hpieces c (List.mem_cons_of_mem _ hc)
  have hover : ¬ Chunk.Overfull charset ⟨[], w, false, false⟩ := fun h => Bool.noConfusion h.1
  have hfill : fill 0 (Chunk.width charset ⟨[], w, false, false⟩) = w.length := by
    simp [fill, Chunk.width]
  rw [foldable_cons, if_neg hover, hfill,
    legal_foldLines hword (clean_encodeBehind hcharset hclean rest hspaced hbehind),
    legal_foldBehind_iff hcharset hclean rest hspaced hbehind]
  exact (and_iff_right fun h => absurd h hover).symm

theorem columns_le_dropLast (us : Bytes) : columns us ≤ columns us.dropLast + 3 := by
  rcases List.eq_nil_or_concat us with rfl | ⟨us, u, rfl⟩
  · exact Nat.zero_le _
  · have hchar := columns_add_plainChars [u]
    rw [List.concat_eq_append, List.dropLast_concat, columns_append]
    rw [List.length_singleton] at hchar
    omega

/-- The first chunk, where it is a range: it is not longer than a line. -/
theorem legal_range_first {w : Bytes} {rest : List Bytes} (hcharset : charset.length < 64)
    (hclean : Clean charset) (hneed : needsEnc w = true) (hspaced : Spaced rest)
    (hpieces : ∀ c ∈ (chunksOf [] (w :: rest)).1, c.encoded = true →
      columns c.text.dropLast < room charset) :
    Legal (foldLines (encodeWords charset (w :: rest.take (2 * rangeWords rest)))
        (encodeWords charset (w :: rest.take (2 * rangeWords rest))).length
        (List.replicate (2 * rangeWords rest) [] ++
          encodeBehind charset (rest.drop (2 * rangeWords rest)))) ↔
      Foldable charset 0 (chunksOf [] (w :: rest)) := by
  rw [chunksOf_range hneed] at hpieces ⊢
  have hpiece : columns (w :: rest.take (2 * rangeWords rest)).flatten.dropLast < room charset :=
    hpieces _ List.mem_cons_self rfl
  have hspaced' := hspaced.drop (rangeWords rest)
  have hbehind : ∀ c ∈ (chunksBehind (rest.drop (2 * rangeWords rest))).1, c.encoded = true →
      columns c.text.dropLast < room charset :=
    fun c hc => hpieces c (List.mem_cons_of_mem _ hc)
  have hcleans : ∀ x ∈ List.replicate (2 * rangeWords rest) [] ++
      encodeBehind charset (rest.drop (2 * rangeWords rest)), Clean x := by
    intro x hx
    rcases List.mem_append.mp hx with hx | hx
    · rw [(List.mem_replicate.mp hx).2]
      exact fun c hc => by simp at hc
    · exact clean_encodeBehind hcharset hclean _ hspaced' hbehind x hx
  have hlength := length_encodeWords hcharset (Pieces.last hpiece)
  have hcolumns := columns_le_dropLast (w :: rest.take (2 * rangeWords rest)).flatten
  rw [Nat.zero_mul, Nat.add_zero] at hlength
  -- an encoded word has at most 74 columns, so that the first line needs no break
  have hshort : (encodeWords charset (w :: rest.take (2 * rangeWords rest))).length ≤ 74 := by
    unfold room at hpiece
    omega
  -- the pieces that went into the range are empty now, and break nothing
  rw [legal_foldLines (clean_encodeWords hcharset hclean hpiece) hcleans, foldBehind_replicate,
    if_neg (by omega), legal_foldBehind_iff hcharset hclean _ hspaced' hbehind, foldable_cons]
  have hwidth := width_range hcharset hpiece [] (0 < rangeWords rest)
  rw [List.length_nil, Nat.zero_add] at hwidth
  generalize (⟨[], (w :: rest.take (2 * rangeWords rest)).flatten, true,
    decide (0 < rangeWords rest)⟩ : Chunk) = c at hwidth ⊢
  have hover : ¬ c.Overfull charset := fun h => by
    have hlong := h.2
    omega
  have hfill : fill 0 (c.width charset) = c.width charset := by
    unfold fill
    split <;> omega
  rw [if_neg hover, hfill, hwidth]
  exact (and_iff_right fun h => absurd h hover).symm

/-- **The header stays one header field just if no encoded word is split, white space at the end
has room, and behind each range that is longer than a line there is a shorter word.** -/
theorem folding_exact (s charset : Bytes) (hs : Clean s) (hcharset : charset.length < 40)
    (hclean : Clean charset) :
    (∃ out, rfc2047e s charset = some out ∧ Legal out) ↔ FoldsLegally charset s := by
  have hcharset' : charset.length < 64 := by omega
  rw [rfc2047e, if_pos hcharset, FoldsLegally]
  cases hsplit : splitWords s with
  | nil =>
    rw [encodeRanges_nil, chunksOf_nil]
    exact iff_of_true ⟨[], rfl, legal_nil⟩ ⟨by simp, foldable_nil charset 0⟩
  | cons w rest =>
    obtain ⟨hword, hspaced, -⟩ := splitWords_spaced s hs w rest hsplit
    by_cases hpieces : ∀ c ∈ (chunksOf [] (w :: rest)).1, c.encoded = true →
        columns c.text.dropLast < room charset
    · rw [and_iff_right hpieces]
      cases hneed : needsEnc w with
      | false =>
        rw [← legal_plain_first hcharset' hclean (clean_of_isWs hword) hneed hspaced hpieces,
          encodeRanges_plain hneed]
        simp only [Option.some.injEq, exists_eq_left']
      | true =>
        rw [← legal_range_first hcharset' hclean hneed hspaced hpieces, encodeRanges_range hneed]
        simp only [Option.some.injEq, exists_eq_left']
    -- an encoded word is split, and the rest does not matter
    · refine iff_of_false ?_ fun h => hpieces h.1
      simp only [not_forall] at hpieces
      obtain ⟨c, hc, hencoded, hlong⟩ := hpieces
      obtain ⟨call, hcall, htext⟩ := exists_call [] (w :: rest) hc hencoded
      have hmem := @encodeWords_mem charset (w :: rest) call hcall
      rintro ⟨out, hout, hlegal⟩
      cases henc : encodeRanges charset (w :: rest) with
      | nil => simp [henc] at hmem
      | cons e tail =>
        rw [henc] at hout hmem
        obtain rfl := Option.some.inj hout
        obtain ⟨hfirst, htail⟩ := infix_foldLines e e.length tail
        have hsub : encodeWords charset call <:+: foldLines e e.length tail := by
          rcases List.mem_cons.mp hmem with heq | hmem
          · exact heq ▸ hfirst
          · exact htail _ hmem
        exact not_legal_of_split hcharset' (htext ▸ hlong) hsub hlegal

/-- Two words of ASCII that fill a line, and one that is encoded. -/
def threeWords : Bytes :=
  List.replicate 40 97 ++ Bytes.space :: (List.replicate 30 98 ++
    Bytes.space :: (Bytes.lit "caf" ++ [233]))

theorem splitWords_threeWords : splitWords threeWords =
    [List.replicate 40 97, [Bytes.space], List.replicate 30 98, [Bytes.space],
      Bytes.lit "caf" ++ [233]] := by
  rw [splitWords, if_neg (by decide), dif_neg (by decide), splitWords, if_neg (by decide),
    dif_neg (by decide), splitWords, if_neg (by decide), dif_pos (by decide)]
  decide +kernel

theorem needsEnc_threeWords : needsEnc (List.replicate 40 97) = false ∧
    needsEnc (List.replicate 30 98) = false ∧ needsEnc (Bytes.lit "caf" ++ [233]) = true := by
  decide +kernel

/-- The encoded word begins a new line. -/
theorem folding_exact_threeWords : ∃ out,
    rfc2047e threeWords (Bytes.lit "iso-8859-1") = some out ∧ Legal out ∧
      out = List.replicate 40 97 ++ Bytes.space :: (List.replicate 30 98 ++
        (Bytes.crlf ++ Bytes.lit " =?iso-8859-1?Q?caf=E9?=")) := by
  obtain ⟨ha, hb, hc⟩ := needsEnc_threeWords
  have hchunks : chunksOf [] (splitWords threeWords) =
      ([⟨[], List.replicate 40 97, false, false⟩, ⟨[Bytes.space], List.replicate 30 98, false, false⟩,
        ⟨[Bytes.space], Bytes.lit "caf" ++ [233], true, false⟩], []) := by
    rw [splitWords_threeWords, chunksOf_plain ha, chunksBehind, chunksOf_plain hb, chunksBehind,
      chunksOf_range hc]
    rfl
  have hfolds : FoldsLegally (Bytes.lit "iso-8859-1") threeWords := by
    rw [FoldsLegally, hchunks]
    refine ⟨by decide +kernel, by decide, fun c cs hsuffix hover => ?_⟩
    -- no range has more than one word
    have hmem := hsuffix.subset List.mem_cons_self
    simp only [List.mem_cons, List.not_mem_nil, or_false] at hmem
    rcases hmem with rfl | rfl | rfl <;> cases hover.1
  obtain ⟨out, hout, hlegal⟩ :=
    (folding_exact threeWords (Bytes.lit "iso-8859-1") (by decide) (by decide) (by decide)).mpr hfolds
  refine ⟨out, hout, hlegal, ?_⟩
  rw [rfc2047e, if_pos (by decide), splitWords_threeWords, encodeRanges_plain ha, encodeBehind,
    encodeRanges_plain hb, encodeBehind, encodeRanges_range hc] at hout
  exact (Option.some.inj hout).symm.trans (by decide +kernel)

/-- A word of 21 characters beyond ASCII: the last begins a new line, without white space. -/
theorem folding_splits :
    ¬ ∃ out, rfc2047e (List.replicate 21 233) (Bytes.lit "utf-8") = some out ∧ Legal out := by
  have hsplit : splitWords (List.replicate 21 233) = [List.replicate 21 233] := by
    rw [splitWords, if_neg (by decide), dif_pos (by decide)]
    decide
  have hneed : needsEnc (List.replicate 21 233) = true := by decide +kernel
  rintro ⟨out, hout, hlegal⟩
  rw [rfc2047e, if_pos (by decide), hsplit, encodeRanges_range hneed] at hout
  obtain rfl := Option.some.inj hout
  have hlong : ¬ columns [List.replicate 21 233].flatten.dropLast < room (Bytes.lit "utf-8") := by
    decide +kernel
  exact not_legal_of_split (by decide) hlong (infix_foldLines _ _ _).1 hlegal

end

end Fetchmail.Mime
