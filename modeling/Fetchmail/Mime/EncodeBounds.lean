import Fetchmail.Mime.Rfc2047

/-!
# The Buffers of the Header Encoder

What `encode_words` writes, against the size that it allocates, and the same for the folded output
of `rfc2047e`. The former allocates an overhead for each sixty columns, but splits its text where a
line has 69, less what begins each of them.
-/

namespace Fetchmail.Mime

open Fetchmail.Lib

/-! ## The allocations -/

/-- What `encode_words` allocates. -/
def encodeSize (charset : Bytes) (words : List Bytes) : Nat :=
  let l := (words.map fun w => w.length * 3).sum
  l + (charset.length + 8) * (l / 60 + 1)

/-- What `rfc2047e` allocates for the folded output. -/
def foldedSize (charset : Bytes) (words : List Bytes) : Nat :=
  let l := (words.map List.length).sum
  let minlen := charset.length + 7
  l + (l / (72 - minlen) + 1) * (minlen + 2) + 1

/-- Phase 2: the words of each call of `encode_words`. -/
def encodeCalls : List Bytes → List (List Bytes)
  | [] => []
  | w :: rest =>
    if needsEnc w then
      let n := 2 * rangeWords rest
      (w :: rest.take n) ::
        match _h : rest.drop n with
        | [] => []
        | _ :: rest' => encodeCalls rest'
    else
      match rest with
      | [] => []
      | _ :: rest' => encodeCalls rest'
termination_by words => words.length
decreasing_by
  · have hle := congrArg List.length _h
    rw [List.length_drop, List.length_cons] at hle
    rw [List.length_cons]
    omega
  · simp only [List.length_cons]
    omega

/-- Both stay in their buffers, with the zero byte at the end. -/
structure InBuffers (string charset : Bytes) : Prop where
  words : ∀ words ∈ encodeCalls (splitWords string),
    (encodeWords charset words).length + 1 ≤ encodeSize charset words
  folded : ∀ out, rfc2047e string charset = some out →
    out.length + 1 ≤ foldedSize charset (encodeRanges charset (splitWords string))

/-! ## Pieces of an encoded text -/

/-- The columns that characters take. -/
def columns (us : Bytes) : Nat := (us.flatMap encodeChar).length

/-- The columns of a line in which a further character may begin. -/
def room (charset : Bytes) : Nat := 64 - charset.length

/-- Characters, cut into pieces that each take just as many columns as there are in a line. -/
inductive Pieces (charset : Bytes) : Bytes → (cuts : Nat) → Prop
  | last {us : Bytes} : columns us.dropLast < room charset → Pieces charset us 0
  | cut {piece us : Bytes} {k : Nat} : columns piece.dropLast < room charset →
      room charset ≤ columns piece → us ≠ [] → Pieces charset us k →
      Pieces charset (piece ++ us) (k + 1)

/-- The characters that are encoded as one. -/
def plainChars (us : Bytes) : Nat := us.countP fun u => u = Bytes.space ∨ u ∈ encchars

/-- For the pieces of a range there is room: each cut takes the overhead of a line, and this is
allocated once for twenty characters, and two columns of each character that is encoded as one are
left. -/
def Roomy (charset us : Bytes) : Prop :=
  ∃ k, Pieces charset us k ∧
    k * (charset.length + 9) ≤ 2 * plainChars us + (charset.length + 8) * (us.length / 20)

variable {charset : Bytes}

theorem columns_append (us vs : Bytes) : columns (us ++ vs) = columns us + columns vs := by
  rw [columns, List.flatMap_append, List.length_append]
  rfl

theorem columns_cons (u : UInt8) (us : Bytes) :
    columns (u :: us) = (encodeChar u).length + columns us := by
  rw [columns, List.flatMap_cons, List.length_append]
  rfl

/-- A character takes three columns, or one. -/
theorem columns_add_plainChars (us : Bytes) : columns us + 2 * plainChars us = 3 * us.length := by
  induction us with
  | nil => rfl
  | cons u us ih =>
    have hchar : (encodeChar u).length + 2 * (if u = Bytes.space ∨ u ∈ encchars then 1 else 0) =
        3 := by
      unfold encodeChar
      by_cases hspace : u = Bytes.space
      · simp [hspace]
      · by_cases henc : u ∈ encchars
        · simp [hspace, henc]
        · simp [hspace, henc]
    rw [columns_cons, plainChars, List.countP_cons, List.length_cons]
    unfold plainChars at ih
    simp only [decide_eq_true_eq]
    omega

/-- A text that is too long for a line begins with a piece. -/
theorem exists_piece {n : Nat} {us : Bytes} (h : n ≤ columns us) (hn : 0 < n) :
    ∃ piece rest, us = piece ++ rest ∧ columns piece.dropLast < n ∧ n ≤ columns piece := by
  -- from the end: the piece is the shortest prefix that is long enough
  induction us using List.reverseRecOn with
  | nil => exact absurd h (Nat.not_le.mpr hn)
  | append_singleton us u ih =>
    by_cases hle : n ≤ columns us
    · obtain ⟨piece, rest, rfl, hpiece⟩ := ih hle
      exact ⟨piece, rest ++ [u], List.append_assoc _ _ _, hpiece⟩
    · exact ⟨us ++ [u], [], (List.append_nil _).symm, by
        rw [List.dropLast_concat]; exact Nat.not_le.mp hle, h⟩

/-- Every text has pieces. -/
theorem exists_pieces (hroom : 0 < room charset) (us : Bytes) : ∃ k, Pieces charset us k := by
  induction hlen : us.length using Nat.strongRecOn generalizing us with
  | ind n ih =>
    by_cases hlast : columns us.dropLast < room charset
    · exact ⟨0, .last hlast⟩
    · obtain ⟨piece, rest, hus, hlt, hle⟩ := exists_piece (Nat.not_lt.mp hlast) hroom
      have hne : us ≠ [] := by
        rintro rfl
        exact hlast hroom
      have hsplit : us = piece ++ (rest ++ [us.getLast hne]) := by
        rw [← List.append_assoc, ← hus, List.dropLast_append_getLast]
      have hpiece : piece ≠ [] := by
        rintro rfl
        exact absurd hle (Nat.not_le.mpr hroom)
      have hpos := List.length_pos_iff.mpr hpiece
      have hlen' := congrArg List.length hsplit
      rw [List.length_append] at hlen'
      obtain ⟨k, hk⟩ := ih (rest ++ [us.getLast hne]).length (by omega) _ rfl
      exact ⟨k + 1, hsplit ▸ .cut hlt hle (by simp) hk⟩

/-! ## What is written -/

/-- The loop over a piece. -/
theorem encodeChars_piece (piece us : Bytes) (col : Nat)
    (h : piece ≠ [] → col + columns piece.dropLast < 69) :
    encodeChars charset col (piece ++ us) =
      piece.flatMap encodeChar ++ encodeChars charset (col + columns piece) us := by
  induction piece generalizing col with
  | nil => rfl
  | cons u piece ih =>
    have hcol := h (List.cons_ne_nil _ _)
    have hnext : piece ≠ [] →
        col + (encodeChar u).length + columns piece.dropLast < 69 := by
      intro hne
      rw [List.dropLast_cons_of_ne_nil hne, columns_cons] at hcol
      omega
    rw [List.cons_append, encodeChars, if_neg (by omega), ih _ hnext, columns_cons,
      List.flatMap_cons, List.append_assoc, Nat.add_assoc]

/-- The loop where a line is full. -/
theorem encodeChars_break {us : Bytes} {col : Nat} (hcharset : charset.length < 64) (hne : us ≠ [])
    (hcol : 69 ≤ col) :
    encodeChars charset col us = mimehdrEnd ++ (Bytes.crlf ++ (mimehdrInit ++ (charsetQ charset ++
      encodeChars charset (2 + (charsetQ charset).length) us))) := by
  obtain ⟨u, us, rfl⟩ := List.exists_cons_of_ne_nil hne
  have hlen : (charsetQ charset).length = charset.length + 3 := by simp [charsetQ]
  rw [encodeChars, if_pos hcol, encodeChars, if_neg (by omega)]

/-- **How much is written for the characters of a range.** -/
theorem length_encodeChars (hcharset : charset.length < 64) {us : Bytes} {k : Nat}
    (h : Pieces charset us k) :
    (encodeChars charset (2 + (charsetQ charset).length) us).length =
      columns us + k * (charset.length + 9) := by
  have hlen : (charsetQ charset).length = charset.length + 3 := by simp [charsetQ]
  induction h with
  | @last us hlast =>
    have hloop := @encodeChars_piece charset us [] (2 + (charsetQ charset).length) fun _ => by
      unfold room at hlast
      omega
    rw [List.append_nil, encodeChars, List.append_nil] at hloop
    rw [hloop, columns]
    omega
  | @cut piece us k hlt hle hne _ ih =>
    unfold room at hlt hle
    rw [encodeChars_piece piece us _ fun _ => by omega, List.length_append,
      encodeChars_break hcharset hne (by omega), columns_append]
    have hpiece : (piece.flatMap encodeChar).length = columns piece := rfl
    simp only [List.length_append, ih, hpiece]
    simp only [hlen, Nat.succ_mul, mimehdrEnd, mimehdrInit, Bytes.crlf, List.length_cons,
      List.length_nil]
    omega

theorem sum_length_mul (words : List Bytes) :
    (words.map fun w => w.length * 3).sum = 3 * words.flatten.length := by
  induction words with
  | nil => rfl
  | cons w words ih =>
    rw [List.map_cons, List.sum_cons, ih, List.flatten_cons, List.length_append]
    omega

theorem length_encodeWords (hcharset : charset.length < 64) {words : List Bytes} {k : Nat}
    (h : Pieces charset words.flatten k) :
    (encodeWords charset words).length =
      charset.length + 7 + columns words.flatten + k * (charset.length + 9) := by
  rw [encodeWords]
  simp only [List.length_append, length_encodeChars hcharset h]
  simp only [charsetQ, mimehdrEnd, mimehdrInit, List.length_append, List.length_cons,
    List.length_nil]
  omega

/-- `encode_words` stays in its buffer just if there is room for the pieces. -/
theorem encodeWords_fits_iff (hcharset : charset.length < 64) (words : List Bytes) :
    (encodeWords charset words).length + 1 ≤ encodeSize charset words ↔
      Roomy charset words.flatten := by
  have hsize : encodeSize charset words = 3 * words.flatten.length +
      ((charset.length + 8) * (words.flatten.length / 20) + (charset.length + 8)) := by
    rw [encodeSize, sum_length_mul, Nat.mul_succ, show 3 * words.flatten.length / 60 = words.flatten.length / 20 by omega]
  have hcolumns := columns_add_plainChars words.flatten
  have hroom : 0 < room charset := Nat.sub_pos_of_lt hcharset
  constructor
  · intro hle
    obtain ⟨k, hk⟩ := exists_pieces hroom words.flatten
    rw [length_encodeWords hcharset hk, hsize] at hle
    exact ⟨k, hk, by omega⟩
  · rintro ⟨k, hk, hle⟩
    rw [length_encodeWords hcharset hk, hsize]
    omega

/-! ## The calls and the ranges -/

/-- The calls behind a word. -/
def callsBehind : List Bytes → List (List Bytes)
  | [] => []
  | _ :: rest => encodeCalls rest

theorem encodeCalls_plain {w : Bytes} (h : needsEnc w = false) (rest : List Bytes) :
    encodeCalls (w :: rest) = callsBehind rest := by
  rw [encodeCalls.eq_def]
  simp only [h, Bool.false_eq_true, if_false]
  cases rest <;> rfl

theorem encodeCalls_range {w : Bytes} (h : needsEnc w = true) (rest : List Bytes) :
    encodeCalls (w :: rest) = (w :: rest.take (2 * rangeWords rest)) ::
      callsBehind (rest.drop (2 * rangeWords rest)) := by
  rw [encodeCalls.eq_def]
  simp only [h, if_true]
  congr 1
  split
  · next hdrop => rw [hdrop]; rfl
  · next hdrop => rw [hdrop]; rfl

/-- What a call returns stands for its range. -/
theorem encodeWords_mem {words call : List Bytes} (h : call ∈ encodeCalls words) :
    encodeWords charset call ∈ encodeRanges charset words := by
  induction hlen : words.length using Nat.strongRecOn generalizing words with
  | ind n ih =>
    -- a blank is passed on, and the calls are those of the words behind it
    have hbehind : ∀ rest : List Bytes, rest.length < n → call ∈ callsBehind rest →
        encodeWords charset call ∈ encodeBehind charset rest := by
      intro rest hlt hmem
      cases rest with
      | nil => simp [callsBehind] at hmem
      | cons b rest =>
        rw [List.length_cons] at hlt
        exact List.mem_cons_of_mem b (ih rest.length (by omega) hmem rfl)
    cases words with
    | nil => simp [encodeCalls] at h
    | cons w rest =>
      rw [List.length_cons] at hlen
      cases hneed : needsEnc w with
      | false =>
        rw [encodeCalls_plain hneed] at h
        rw [encodeRanges_plain hneed]
        exact List.mem_cons_of_mem w (hbehind rest (by omega) h)
      | true =>
        rw [encodeCalls_range hneed] at h
        rw [encodeRanges_range hneed]
        rcases List.mem_cons.mp h with rfl | h
        · exact List.mem_cons_self
        · refine List.mem_cons_of_mem _ (List.mem_append_right _ (hbehind _ ?_ h))
          rw [List.length_drop]
          omega

/-! ## Folding -/

theorem lastLine_append_le (out x : Bytes) : lastLine (out ++ x) ≤ lastLine out + x.length := by
  rw [lastLine, lastLine, List.reverse_append, List.takeWhile_append]
  split
  · rw [List.length_append, List.length_reverse]
    omega
  · have hle := (List.takeWhile_prefix (l := x.reverse) (· ≠ Bytes.lf)).length_le
    rw [List.length_reverse] at hle
    omega

theorem lastLine_crlf (out : Bytes) : lastLine (out ++ Bytes.crlf) = 0 := by
  rw [lastLine, List.reverse_append]
  rfl

/-- The last line behind a break, if there is one. -/
theorem lastLine_lineBreak {out x : Bytes} {l m : Nat} (hl : lastLine out ≤ l) :
    lastLine (out ++ (lineBreak l m ++ x)) ≤ (if 74 < l + m then 0 else l) + x.length := by
  rw [← List.append_assoc]
  refine Nat.le_trans (lastLine_append_le _ _) (Nat.add_le_add_right ?_ _)
  unfold lineBreak
  split
  · rw [lastLine_crlf]
  · rw [List.append_nil]
    exact hl

theorem length_lineBreak (l m : Nat) :
    (lineBreak l m).length = 2 * if 74 < l + m then 1 else 0 := by
  unfold lineBreak
  split <;> rfl

/-- **How many line breaks there are.** A break comes where the last line and what is to follow
have 75 columns, and nothing is counted more than twice so. -/
theorem length_foldLines (out : Bytes) (l : Nat) (rest : List Bytes) (size breaks : Nat)
    (hout : out.length = size + 2 * breaks) (hl : lastLine out ≤ l)
    (hbreaks : 75 * breaks + l ≤ 2 * size) :
    ∃ breaks', (foldLines out l rest).length = size + rest.flatten.length + 2 * breaks' ∧
      75 * breaks' ≤ 2 * (size + rest.flatten.length) := by
  -- each break is paid for with 75 columns, and no column pays more than twice
  induction out, l, rest using foldLines.induct generalizing size breaks with
  | case1 out l => exact ⟨breaks, by rw [foldLines, hout]; rfl, by simp; omega⟩
  | case2 out l b =>
    refine ⟨breaks + (if 74 < l + b.length then 1 else 0), ?_, ?_⟩
    · rw [foldLines, List.flatten_singleton, List.length_append, List.length_append,
        length_lineBreak, hout]
      omega
    · rw [List.flatten_singleton]
      split <;> omega
  | case3 out l b w rest m out' ih =>
    have hm : m ≤ b.length + w.length := by
      have hle := (List.takeWhile_prefix (l := w) (fun c => c ≠ Bytes.cr ∧ c ≠ Bytes.lf)).length_le
      simp only [m]
      omega
    have hlast := @lastLine_lineBreak out (b ++ w) l m hl
    rw [List.length_append] at hlast
    obtain ⟨breaks', hlen, hle⟩ := ih (size + (b.length + w.length))
      (breaks + (if 74 < l + m then 1 else 0))
      (by simp only [out', List.length_append, length_lineBreak, hout]; omega) (Nat.le_refl _)
      (by
        have hnext : lastLine out' ≤ (if 74 < l + m then 0 else l) + (b.length + w.length) := hlast
        split at hnext <;> split <;> omega)
    refine ⟨breaks', ?_, ?_⟩
    · rw [foldLines]
      simp only [List.flatten_cons, List.length_append]
      exact hlen.trans (by omega)
    · simp only [List.flatten_cons, List.length_append]
      omega

/-- The folded output stays in its buffer. -/
theorem folded_fits {string out : Bytes} (h : rfc2047e string charset = some out) :
    out.length + 1 ≤ foldedSize charset (encodeRanges charset (splitWords string)) := by
  unfold rfc2047e at h
  split at h
  · next hcharset =>
    cases henc : encodeRanges charset (splitWords string) with
    | nil =>
      rw [henc] at h
      obtain rfl := Option.some.inj h
      exact Nat.le_add_left 1 _
    | cons w rest =>
      rw [henc] at h
      obtain rfl := Option.some.inj h
      have hlast : lastLine w ≤ w.length := by
        rw [lastLine, ← @List.length_reverse _ w]
        exact (List.takeWhile_prefix _).length_le
      obtain ⟨breaks, hlen, hbreaks⟩ :=
        length_foldLines w w.length rest w.length 0 rfl hlast (by omega)
      have htotal : ((w :: rest).map List.length).sum = w.length + rest.flatten.length := by
        rw [← List.length_flatten, List.flatten_cons, List.length_append]
      -- the overhead is smallest for the empty name
      have hoverhead : ((w.length + rest.flatten.length) / 65 + 1) * 9 ≤
          ((w.length + rest.flatten.length) / (72 - (charset.length + 7)) + 1) *
            (charset.length + 7 + 2) :=
        Nat.mul_le_mul (Nat.succ_le_succ (Nat.div_le_div_left (by omega) (by omega))) (by omega)
      rw [foldedSize, htotal, hlen]
      omega
  · cases h

/-- **Both stay in their buffers just where there is room for the pieces of each range.** -/
theorem inBuffers_iff (string charset : Bytes) (hcharset : charset.length < 40) :
    InBuffers string charset ↔
      ∀ words ∈ encodeCalls (splitWords string), Roomy charset words.flatten := by
  constructor
  · exact fun h words hmem =>
      (encodeWords_fits_iff (by omega) words).mp (h.words words hmem)
  · exact fun h => ⟨fun words hmem =>
      (encodeWords_fits_iff (by omega) words).mpr (h words hmem), fun _ => folded_fits⟩

/-- Two words that are encoded together, with more columns than a line has. -/
def longRange : List Bytes :=
  [[195, 169] ++ List.replicate 60 97, [Bytes.space], [195, 169]]

/-- The range is cut once, and there is room for that. -/
theorem inBuffers_iff_longRange : InBuffers longRange.flatten (Bytes.lit "utf-8") := by
  have hsplit : splitWords longRange.flatten = longRange := by
    rw [splitWords, if_neg (by decide), dif_neg (by decide), splitWords, if_neg (by decide),
      dif_pos (by decide)]
    decide +kernel
  have hcalls : encodeCalls longRange = [longRange] := by
    rw [longRange, encodeCalls.eq_def]
    decide +kernel
  refine (inBuffers_iff longRange.flatten (Bytes.lit "utf-8") (by decide)).mpr fun words hmem => ?_
  rw [hsplit, hcalls, List.mem_singleton] at hmem
  subst hmem
  have hpieces : Pieces (Bytes.lit "utf-8")
      (([195, 169] ++ List.replicate 53 97) ++ (List.replicate 7 97 ++ [Bytes.space, 195, 169])) 1 :=
    .cut (by decide +kernel) (by decide +kernel) (by decide) (.last (by decide +kernel))
  exact ⟨1, hpieces, by decide +kernel⟩

/-- Of 21 characters beyond ASCII the last begins a new line, for which there is no room. -/
theorem encodeWords_overflows : ¬ InBuffers (List.replicate 21 233) (Bytes.lit "utf-8") := by
  have hsplit : splitWords (List.replicate 21 233) = [List.replicate 21 233] := by
    rw [splitWords, if_neg (by decide), dif_pos (by decide)]
    decide
  have hcalls : encodeCalls [List.replicate 21 233] = [[List.replicate 21 233]] := by
    rw [encodeCalls.eq_def]
    decide +kernel
  intro h
  have hfits := h.words [List.replicate 21 233]
    (by rw [hsplit, hcalls]; exact List.mem_singleton_self _)
  exact absurd hfits (by decide +kernel)

end Fetchmail.Mime
