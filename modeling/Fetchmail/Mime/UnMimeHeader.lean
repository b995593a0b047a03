import Fetchmail.Auth.Base64
import Fetchmail.Lib.Pairs
import Fetchmail.Mime.QuotedPrintable

/-!
# Decoding of Headers

`UnMimeHeader` of `unmime.c`, which decodes the encoded words of a header in place. One round of
its loop writes some bytes and goes on behind the bytes it has read; `none` stands for a round
that looks at a byte behind the terminating zero. As the bytes that are written never come to
pass the bytes that are read, the header can be treated as if it was read from one place and
written to another.
-/

namespace Fetchmail.Mime

open Fetchmail.Lib

def questionMark : UInt8 := 63
def underscore : UInt8 := 95

/-- `MIMEHDR_INIT` and `MIMEHDR_END` -/
def mimehdrInit : Bytes := [Bytes.equals, questionMark]
def mimehdrEnd : Bytes := [questionMark, Bytes.equals]

/-- `strstr` for one of the two, with the text in front of it and behind it. -/
def findInit (s : Bytes) : Option (Bytes × Bytes) := Pairs.cut Bytes.equals questionMark s
def findEnd (s : Bytes) : Option (Bytes × Bytes) := Pairs.cut questionMark Bytes.equals s

/-- The state of the loop, with the encoding where there is one. -/
inductive Phase where
  | copyPlain
  | skipMimeinit
  | copyMime (enc : UInt8)
  deriving DecidableEq, Repr

/-- Quoted-printable data, of which `skip` bytes are already dealt with. What follows the data is
there to be looked at. -/
def copyQ (behind : Bytes) : (skip : Nat) → Bytes → Option Bytes
  | _, [] => some []
  | skip + 1, _ :: t => copyQ behind skip t
  | 0, c :: t =>
    if c = Bytes.equals then
      -- the second byte behind the equals sign is read whatever the first one is
      if t ++ behind = [] then none
      else
        match qpChar (Bytes.charAt (t ++ behind) 0) (Bytes.charAt (t ++ behind) 1) with
        | some b => (copyQ behind 2 t).map (b :: ·)
        | none => (copyQ behind 0 t).map (c :: ·)
    else (copyQ behind 0 t).map ((if c = underscore then Bytes.space else c) :: ·)

/-- Base64 data, with a carriage return put behind it. -/
def copyB (t : Bytes) : Bytes :=
  if t = [] then [] else (Auth.from64tobits (t ++ [Bytes.cr]) 0).getD []

/-- The data of an encoded word. -/
def copyText (enc : UInt8) (behind t : Bytes) : Option Bytes :=
  if enc = 113 then copyQ behind 0 t else if enc = 98 then some (copyB t) else some t

/-- How the loop goes on behind an encoded word: white space before the next one is dropped. -/
def afterWord (s : Bytes) : Phase × Bytes :=
  match findInit s with
  | some (t, s') => if t.all Bytes.isspace then (.skipMimeinit, s') else (.copyPlain, s)
  | none => (.copyPlain, s)

/-- `S_COPY_PLAIN` -/
def copyPlain (s : Bytes) : Bytes × Phase × Bytes :=
  match findInit s with
  | none => (s, .copyPlain, [])
  | some (t, s') => (t, .skipMimeinit, s')

/-- `S_SKIP_MIMEINIT`: `charset?encoding?` -/
def skipMimeinit (s : Bytes) : Option (Phase × Bytes) :=
  match s.dropWhile (· ≠ questionMark) with
  | [] => some (.copyPlain, s)
  -- `*(p+1)` is the zero byte, and `*(p+2)` is looked at
  | [_] => none
  | _ :: e :: s' =>
    if s'.head? = some questionMark then some (.copyMime (Bytes.toLower e), s'.tail)
    else some (.copyPlain, s)

/-- `S_COPY_MIME` -/
def copyMime (enc : UInt8) (s : Bytes) : Option (Bytes × Phase × Bytes) :=
  match findEnd s with
  | some (t, s') => (copyText enc (mimehdrEnd ++ s') t).map fun out => (out, afterWord s')
  | none => (copyText enc [] s).map fun out => (out, afterWord [])

/-- One round of the loop: the bytes written, the next state, and what is still to be read. -/
def round : Phase → Bytes → Option (Bytes × Phase × Bytes)
  | .copyPlain, s => some (copyPlain s)
  | .skipMimeinit, s => (skipMimeinit s).map fun r => ([], r)
  | .copyMime enc, s => copyMime enc s

/-! ## The loop goes on, and the output keeps behind the input -/

theorem copyQ_length {behind t out : Bytes} {skip : Nat} (h : copyQ behind skip t = some out) :
    out.length ≤ t.length := by
  induction t generalizing skip out with
  | nil =>
    rw [copyQ] at h
    cases h
    exact Nat.le_refl 0
  | cons c t ih =>
    cases skip with
    | succ skip => exact Nat.le_succ_of_le (ih h)
    | zero =>
      -- each branch that goes on writes one byte
      have hcons : ∀ {k : Nat} {b : UInt8}, (copyQ behind k t).map (b :: ·) = some out →
          out.length ≤ (c :: t).length := by
        intro k b hk
        obtain ⟨more, hmore, rfl⟩ := Option.map_eq_some_iff.mp hk
        exact Nat.succ_le_succ (ih hmore)
      rw [copyQ] at h
      by_cases hc : c = Bytes.equals
      · rw [if_pos hc] at h
        by_cases hend : t ++ behind = []
        · rw [if_pos hend] at h
          cases h
        · rw [if_neg hend] at h
          split at h
          · exact hcons h
          · exact hcons h
      · rw [if_neg hc] at h
        exact hcons h

theorem decodeGroup_length (d₁ d₂ : UInt8) (d₃ d₄ : Option UInt8) :
    (Auth.decodeGroup d₁ d₂ d₃ d₄).length ≤ 3 := by
  cases d₃ with
  | none => exact Nat.le_add_left 1 2
  | some d₃ =>
    cases d₄ with
    | none => exact Nat.le_succ 2
    | some d₄ => exact Nat.le_refl 3

theorem decodeGroups_length {s out : Bytes} (h : Auth.decodeGroups s = some out) :
    out.length < s.length := by
  induction s using Auth.decodeGroups.induct generalizing out with
  | case1 c₁ c₂ c₃ c₄ rest ih =>
    rw [Auth.decodeGroups] at h
    simp only [Option.bind_eq_bind, Option.bind_eq_some_iff] at h
    obtain ⟨d₁, -, d₂, -, d₃, -, d₄, -, h⟩ := h
    have hgroup := decodeGroup_length d₁ d₂ d₃ d₄
    split at h
    · cases h
      simp only [List.length_cons]
      omega
    · obtain ⟨more, hmore, heq⟩ := Option.bind_eq_some_iff.mp h
      cases heq
      have := ih hmore
      simp only [List.length_append, List.length_cons]
      omega
  | case2 s hs =>
    rw [Auth.decodeGroups] at h
    · cases h
    · exact hs

theorem copyB_length (t : Bytes) : (copyB t).length ≤ t.length := by
  unfold copyB
  split
  · exact Nat.zero_le _
  · unfold Auth.from64tobits
    -- the text and the carriage return, perhaps without a `+` and a blank before it
    have hcut : ∀ u : Bytes, u.length ≤ t.length + 1 →
        ((if u.head? = some Bytes.cr then some []
          else (Auth.decodeGroups u).filter fun out => 0 = 0 ∨ out.length ≤ 0).getD []).length ≤
          t.length := by
      intro u hu
      split
      · exact Nat.zero_le _
      · cases hgroups : Auth.decodeGroups u with
        | none => exact Nat.zero_le _
        | some out =>
          have := decodeGroups_length hgroups
          simp only [Option.filter_some, true_or, decide_true, if_true, Option.getD_some]
          omega
    apply hcut
    split
    · rw [List.length_drop, List.length_append]
      simp
      omega
    · simp

theorem copyText_length {enc : UInt8} {behind t out : Bytes}
    (h : copyText enc behind t = some out) : out.length ≤ t.length := by
  unfold copyText at h
  split at h
  · exact copyQ_length h
  · split at h
    · cases h
      exact copyB_length t
    · cases h
      exact Nat.le_refl _

theorem length_of_findInit {s t s' : Bytes} (h : findInit s = some (t, s')) :
    s.length = t.length + 2 + s'.length := by
  rw [Pairs.eq_of_cut h]
  simp only [List.length_append, List.length_cons]
  omega

theorem length_of_findEnd {s t s' : Bytes} (h : findEnd s = some (t, s')) :
    s.length = t.length + 2 + s'.length := by
  rw [Pairs.eq_of_cut h]
  simp only [List.length_append, List.length_cons]
  omega

theorem afterWord_length (s : Bytes) : (afterWord s).2.length ≤ s.length := by
  unfold afterWord
  split
  · next hfind =>
    split
    · have := length_of_findInit hfind
      simp only
      omega
    · exact Nat.le_refl _
  · exact Nat.le_refl _

/-- A round in an encoded word leaves out the `?=` behind it, or reads all that is left. -/
theorem copyMime_length {enc : UInt8} {ph' : Phase} {s s' out : Bytes}
    (h : round (.copyMime enc) s = some (out, ph', s')) :
    out.length + 2 + s'.length ≤ s.length ∨ (out.length ≤ s.length ∧ s' = []) := by
  rw [round, copyMime] at h
  split at h
  · next t u hfind =>
    obtain ⟨out', hcopy, heq⟩ := Option.map_eq_some_iff.mp h
    obtain ⟨rfl, hafter⟩ := Prod.mk.inj heq
    have hle := afterWord_length u
    rw [hafter] at hle
    have hcopied := copyText_length hcopy
    have hend := length_of_findEnd hfind
    simp only at hle
    exact .inl (by omega)
  · obtain ⟨out', hcopy, heq⟩ := Option.map_eq_some_iff.mp h
    cases heq
    exact .inr ⟨copyText_length hcopy, rfl⟩

/-- What a round writes is no more than what it reads. -/
theorem round_length {ph ph' : Phase} {s s' out : Bytes} (h : round ph s = some (out, ph', s')) :
    out.length + s'.length ≤ s.length := by
  cases ph with
  -- text is copied as it is, and `=?` is left out
  | copyPlain =>
    rw [round, copyPlain] at h
    split at h
    · cases h
      simp
    · next hfind =>
      cases h
      have := length_of_findInit hfind
      omega
  -- nothing is written
  | skipMimeinit =>
    rw [round, skipMimeinit] at h
    have hsuffix := (List.dropWhile_suffix (l := s) (· ≠ questionMark)).length_le
    split at h
    · cases h
      simp
    · cases h
    · next hdrop =>
      rw [hdrop] at hsuffix
      split at h
      · cases h
        simp only [List.length_cons, List.length_tail, List.length_nil] at hsuffix ⊢
        omega
      · cases h
        simp
  -- decoding does not lengthen the text, and `?=` is left out
  | copyMime enc =>
    rcases copyMime_length h with hle | ⟨hle, rfl⟩
    · omega
    · exact hle

/-- What is left to do. A round that only reads ahead leaves less than before, too. -/
def effort (ph : Phase) (s : Bytes) : Nat := 2 * s.length + if ph = .skipMimeinit then 1 else 0

theorem round_effort {ph ph' : Phase} {s s' out : Bytes} (hs : s ≠ [])
    (h : round ph s = some (out, ph', s')) : effort ph' s' < effort ph s := by
  have hpos := List.length_pos_iff.mpr hs
  unfold effort
  cases ph with
  | copyPlain =>
    rw [round, copyPlain] at h
    split at h
    · cases h
      simp
      omega
    · next hfind =>
      cases h
      have := length_of_findInit hfind
      simp
      omega
  -- this round may read nothing, but only once
  | skipMimeinit =>
    rw [round, skipMimeinit] at h
    have hsuffix := (List.dropWhile_suffix (l := s) (· ≠ questionMark)).length_le
    split at h
    · cases h
      simp
    · cases h
    · next hdrop =>
      rw [hdrop] at hsuffix
      split at h
      · cases h
        simp only [List.length_cons, List.length_tail] at hsuffix ⊢
        simp
        omega
      · cases h
        simp
  | copyMime enc =>
    have hif : ∀ q : Phase, (if q = .skipMimeinit then 1 else 0) ≤ 1 := by
      intro q
      split <;> omega
    have := hif ph'
    rw [if_neg (by simp : ¬ Phase.copyMime enc = .skipMimeinit)]
    rcases copyMime_length h with hle | ⟨hle, rfl⟩
    · omega
    · rw [List.length_nil]
      omega

/-- The loop of `UnMimeHeader`. -/
def decodeFrom (ph : Phase) (s : Bytes) : Option Bytes :=
  if _hs : s = [] then some []
  else
    match _h : round ph s with
    | none => none
    | some (out, ph', s') => (decodeFrom ph' s').map (out ++ ·)
termination_by effort ph s
decreasing_by exact round_effort _hs _h

/-- `UnMimeHeader`; `none` if a byte behind the end of the header is read. -/
def unMimeHeader (hdr : Bytes) : Option Bytes :=
  if findInit hdr = none then some hdr else decodeFrom .copyPlain hdr

@[simp]
theorem decodeFrom_nil (ph : Phase) : decodeFrom ph [] = some [] := by
  rw [decodeFrom, dif_pos rfl]

theorem decodeFrom_round {ph : Phase} {s : Bytes} {r : Bytes × Phase × Bytes} (hs : s ≠ [])
    (h : round ph s = some r) : decodeFrom ph s = (decodeFrom r.2.1 r.2.2).map (r.1 ++ ·) := by
  rw [decodeFrom, dif_neg hs]
  split
  · next hnone =>
    rw [h] at hnone
    cases hnone
  · next hsome =>
    rw [h] at hsome
    cases hsome
    rfl

/-- The header is not decoded if there is nothing to be decoded. -/
theorem unMimeHeader_eq (hdr : Bytes) : unMimeHeader hdr = decodeFrom .copyPlain hdr := by
  unfold unMimeHeader
  by_cases hfind : findInit hdr = none
  · rw [if_pos hfind]
    by_cases hnil : hdr = []
    · rw [hnil, decodeFrom_nil]
    · have hround : round .copyPlain hdr = some (hdr, .copyPlain, []) := by
        rw [round, copyPlain, hfind]
      rw [decodeFrom_round hnil hround]
      simp
  · rw [if_neg hfind]

/-! ## A run of the loop -/

/-- The loop comes to a state, with some bytes still to be read and some bytes written. -/
inductive Reaches (hdr : Bytes) : Phase → Bytes → Bytes → Prop where
  | start : Reaches hdr .copyPlain hdr []
  | round {ph ph' : Phase} {s s' out w : Bytes} (hs : s ≠ [])
      (h : Mime.round ph s = some (w, ph', s')) (hreach : Reaches hdr ph s out) :
      Reaches hdr ph' s' (out ++ w)

/-- `p_out` never passes `p_in`. -/
theorem Reaches.length {hdr s out : Bytes} {ph : Phase} (h : Reaches hdr ph s out) :
    out.length + s.length ≤ hdr.length := by
  induction h with
  | start => simp
  | round hs h hreach ih =>
    have := round_length h
    rw [List.length_append]
    omega

theorem decodeFrom_length {ph : Phase} {s out : Bytes} (h : decodeFrom ph s = some out) :
    out.length ≤ s.length := by
  -- round by round
  induction ph, s using decodeFrom.induct generalizing out with
  | case1 ph =>
    rw [decodeFrom_nil] at h
    cases h
    exact Nat.le_refl 0
  | case2 ph s hs hnone =>
    rw [decodeFrom, dif_neg hs] at h
    split at h
    · cases h
    · next hsome =>
      rw [hnone] at hsome
      cases hsome
  | case3 ph s hs w ph' s' hround ih =>
    rw [decodeFrom_round hs hround] at h
    dsimp only at h
    obtain ⟨more, hmore, rfl⟩ := Option.map_eq_some_iff.mp h
    have := round_length hround
    have := ih hmore
    rw [List.length_append]
    omega

/-! ## Decoding piece by piece -/

/-- No encoded word begins here: there is no `=?`. -/
def PlainText (s : Bytes) : Prop := Pairs.Free Bytes.equals questionMark s

instance (s : Bytes) : Decidable (PlainText s) := inferInstanceAs (Decidable (Pairs.Free _ _ s))

/-- The digits of a character are none of the delimiters. -/
theorem qpChar_question {l : UInt8} : qpChar questionMark l = none := by
  rw [qpChar, if_pos (.inl (by decide))]

theorem question_notMem_of_qpChar {h l b : UInt8} (hb : qpChar h l = some b) :
    questionMark ≠ h ∧ questionMark ≠ l := by
  constructor
  · rintro rfl
    rw [qpChar_question] at hb
    cases hb
  · rintro rfl
    rw [qpChar, if_pos (.inr (by decide))] at hb
    cases hb

/-- What is decoded behind an encoded word. -/
def decodeAfter (s : Bytes) : Option Bytes := decodeFrom (afterWord s).1 (afterWord s).2

section

variable {t y : Bytes}

theorem findInit_append (h : PlainText t) (y : Bytes) :
    findInit (t ++ (mimehdrInit ++ y)) = some (t, y) :=
  Pairs.cut_append (by decide) h

theorem findEnd_append (h : questionMark ∉ t) (y : Bytes) :
    findEnd (t ++ (mimehdrEnd ++ y)) = some (t, y) :=
  Pairs.cut_append (by decide) (Pairs.free_of_notMem_left h)

theorem decodeFrom_plain (h : PlainText t) : decodeFrom .copyPlain t = some t := by
  have hnone : findInit t = none := Pairs.cut_of_free h
  rw [← unMimeHeader_eq, unMimeHeader, if_pos hnone]

theorem decodeFrom_lead (h : PlainText t) (y : Bytes) :
    decodeFrom .copyPlain (t ++ (mimehdrInit ++ y)) =
      (decodeFrom .skipMimeinit y).map (t ++ ·) := by
  have hround : round .copyPlain (t ++ (mimehdrInit ++ y)) = some (t, .skipMimeinit, y) := by
    rw [round, copyPlain, findInit_append h]
  exact decodeFrom_round (by simp [mimehdrInit]) hround

theorem dropWhile_charset {charset : Bytes} (h : questionMark ∉ charset) (y : Bytes) :
    (charset ++ questionMark :: y).dropWhile (· ≠ questionMark) = questionMark :: y := by
  induction charset with
  | nil => rfl
  | cons c charset ih =>
    rw [List.mem_cons, not_or] at h
    rw [List.cons_append, List.dropWhile_cons_of_pos (by simpa using Ne.symm h.1), ih h.2]

theorem decodeFrom_charset {charset : Bytes} (h : questionMark ∉ charset) (e : UInt8) (y : Bytes) :
    decodeFrom .skipMimeinit (charset ++ questionMark :: e :: questionMark :: y) =
      decodeFrom (.copyMime (Bytes.toLower e)) y := by
  have hround : round .skipMimeinit (charset ++ questionMark :: e :: questionMark :: y) =
      some ([], .copyMime (Bytes.toLower e), y) := by
    rw [round, skipMimeinit, dropWhile_charset h]
    rfl
  rw [decodeFrom_round (by simp) hround]
  simp

theorem decodeFrom_text {enc : UInt8} {out : Bytes} (h : questionMark ∉ t) (y : Bytes)
    (hcopy : copyText enc (mimehdrEnd ++ y) t = some out) :
    decodeFrom (.copyMime enc) (t ++ (mimehdrEnd ++ y)) = (decodeAfter y).map (out ++ ·) := by
  have hround : round (.copyMime enc) (t ++ (mimehdrEnd ++ y)) = some (out, afterWord y) := by
    rw [round, copyMime, findEnd_append h]
    simp only [hcopy, Option.map_some]
  exact decodeFrom_round (by simp [mimehdrEnd]) hround

/-- White space in front of the next encoded word is dropped. -/
theorem decodeAfter_blanks (h : t.all Bytes.isspace = true) (y : Bytes) :
    decodeAfter (t ++ (mimehdrInit ++ y)) = decodeFrom .skipMimeinit y := by
  -- `=` is no white space
  have hplain : PlainText t := by
    apply Pairs.free_of_notMem_left
    intro hmem
    exact absurd (List.all_eq_true.mp h _ hmem) (by decide)
  rw [decodeAfter, afterWord, findInit_append hplain]
  simp only [if_pos h]

/-- Everything else is text again. -/
theorem decodeAfter_text {s : Bytes}
    (h : ∀ t y, findInit s = some (t, y) → t.all Bytes.isspace = false) :
    decodeAfter s = decodeFrom .copyPlain s := by
  rw [decodeAfter, afterWord]
  split
  · next hfind => simp [h _ _ hfind]
  · rfl

theorem decodeAfter_plain (h : PlainText t) : decodeAfter t = some t := by
  have hnone : findInit t = none := Pairs.cut_of_free h
  rw [decodeAfter_text (by simp [hnone]), decodeFrom_plain h]

end

end Fetchmail.Mime
