import Fetchmail.Mime.UnMimeHeader

/-!
# Encoded Words in Headers

A header is text with encoded words in it, as RFC 2047 has them. What `UnMimeHeader` is for is
to put the value of each encoded word in its place, to drop the white space between two of
them, and to leave the text alone. It does so where `=?` stands nowhere in the text: a `=?` that
begins no encoded word is taken for one all the same.
-/

namespace Fetchmail.Mime

open Fetchmail.Lib

/-! ## The value of an encoded word -/

/-- The printable characters that stand for themselves. -/
def isQLiteral (c : UInt8) : Bool :=
  33 ≤ c && c ≤ 126 && c ≠ questionMark && c ≠ underscore && c ≠ Bytes.equals

/-- The value of a text in the encoding `Q`; none if the text is not valid. -/
def qValue : Bytes → Option Bytes
  | [] => some []
  | c :: s =>
    if c = Bytes.equals then
      match s with
      | h :: l :: s' =>
        match qpChar h l with
        | some b => (qValue s').map (b :: ·)
        | none => none
      | _ => none
    else if c = underscore then (qValue s).map (Bytes.space :: ·)
    else if isQLiteral c then (qValue s).map (c :: ·)
    else none

/-- The value of a text in the encoding `B`: groups of four digits, and padding nowhere but in
the last one. -/
def bValue : Bytes → Option Bytes
  | [] => some []
  | c₁ :: c₂ :: c₃ :: c₄ :: s => do
    let d₁ ← Auth.decode64 c₁
    let d₂ ← Auth.decode64 c₂
    if s = [] ∧ c₄ = Bytes.equals then
      return Auth.decodeGroup d₁ d₂ (← Auth.decodeOrPad c₃) none
    else
      return Auth.decodeGroup d₁ d₂ (some (← Auth.decode64 c₃)) (some (← Auth.decode64 c₄)) ++
        (← bValue s)
  | _ => none

/-- `Q` and `B`, in either case -/
def textValue (encoding : UInt8) (text : Bytes) : Option Bytes :=
  if Bytes.toLower encoding = 113 then qValue text
  else if Bytes.toLower encoding = 98 then bValue text
  else none

/-- The characters of the name of a character set: no blank, no control character, and none of
`()<>@,;:"/[]?.=` -/
def isToken (c : UInt8) : Bool :=
  33 ≤ c && c ≤ 126 && c ∉ Bytes.lit "()<>@,;:\"/[]?.="

/-- `=?charset?encoding?text?=` -/
structure EncodedWord where
  charset : Bytes
  encoding : UInt8
  text : Bytes
  value : Bytes
  charset_nonempty : charset ≠ []
  charset_token : ∀ b ∈ charset, isToken b = true
  text_nonempty : text ≠ []
  text_value : textValue encoding text = some value

def EncodedWord.source (w : EncodedWord) : Bytes :=
  mimehdrInit ++ (w.charset ++ questionMark :: w.encoding :: questionMark :: (w.text ++ mimehdrEnd))

/-! ## Headers -/

/-- Text, and encoded words each with the text behind it. -/
structure MimeHeader where
  lead : Bytes
  words : List (EncodedWord × Bytes)

namespace MimeHeader

/-- The parts of the header outside of its encoded words. -/
def parts (h : MimeHeader) : List Bytes := h.lead :: h.words.map Prod.snd

def wordsSource (ws : List (EncodedWord × Bytes)) : Bytes :=
  ws.flatMap fun w => w.1.source ++ w.2

/-- The header as it is written. -/
def source (h : MimeHeader) : Bytes := h.lead ++ wordsSource h.words

/-- White space between two encoded words is dropped. -/
def wordsRendered : List (EncodedWord × Bytes) → Bytes
  | [] => []
  | [(w, t)] => w.value ++ t
  | (w, t) :: w' :: ws =>
    w.value ++ ((if t.all Bytes.isspace then [] else t) ++ wordsRendered (w' :: ws))

/-- The header as it is meant. -/
def rendered (h : MimeHeader) : Bytes := h.lead ++ wordsRendered h.words

/-- The parts outside of the encoded words are maximal: there is no encoded word in them. -/
def Maximal (h : MimeHeader) : Prop := ∀ t ∈ h.parts, ∀ w : EncodedWord, ¬ w.source <:+: t

/-- `UnMimeHeader` touches only the encoded words of the header: nothing outside of the header is
read, and the output does not pass the input. -/
structure OnlyWordsTouched (h : MimeHeader) : Prop where
  decoded : unMimeHeader h.source = some h.rendered
  behind : ∀ ph s out, Reaches h.source ph s out → out.length + s.length ≤ h.source.length

end MimeHeader

/-! ## Decoding the text of an encoded word -/

theorem copyQ_of_qValue {t v : Bytes} (h : qValue t = some v) (behind : Bytes) :
    copyQ behind 0 t = some v ∧ questionMark ∉ t := by
  -- along the grammar of the text; the cases that give no value contradict `h`
  induction t using qValue.induct generalizing v with
  | case1 =>
    cases h
    exact ⟨rfl, List.not_mem_nil⟩
  | case2 hi lo s b hb ih =>
    rw [qValue, if_pos rfl] at h
    simp only [hb] at h
    obtain ⟨v', hv', rfl⟩ := Option.map_eq_some_iff.mp h
    obtain ⟨hcopy, hnone⟩ := ih hv'
    obtain ⟨hhi, hlo⟩ := question_notMem_of_qpChar hb
    constructor
    · rw [copyQ, if_pos rfl, if_neg (by simp)]
      have hchars : qpChar (Bytes.charAt (hi :: lo :: s ++ behind) 0)
          (Bytes.charAt (hi :: lo :: s ++ behind) 1) = some b := hb
      simp only [hchars]
      rw [copyQ, copyQ, hcopy]
      rfl
    · simp only [List.mem_cons, not_or]
      exact ⟨by decide, hhi, hlo, hnone⟩
  | case3 hi lo s hnone =>
    rw [qValue, if_pos rfl] at h
    simp only [hnone] at h
    cases h
  | case4 s hs =>
    unfold qValue at h
    rw [if_pos rfl] at h
    split at h
    · next hi lo s' => exact (hs hi lo s' rfl).elim
    · cases h
  | case5 s hne ih =>
    unfold qValue at h
    rw [if_neg hne, if_pos rfl] at h
    obtain ⟨v', hv', rfl⟩ := Option.map_eq_some_iff.mp h
    obtain ⟨hcopy, hnone⟩ := ih hv'
    refine ⟨?_, ?_⟩
    · rw [copyQ, if_neg hne, if_pos rfl, hcopy]
      rfl
    · rw [List.mem_cons, not_or]
      exact ⟨by decide, hnone⟩
  | case6 c s hne hunder hlit ih =>
    unfold qValue at h
    rw [if_neg hne, if_neg hunder, if_pos hlit] at h
    obtain ⟨v', hv', rfl⟩ := Option.map_eq_some_iff.mp h
    obtain ⟨hcopy, hnone⟩ := ih hv'
    refine ⟨?_, ?_⟩
    · rw [copyQ, if_neg hne, if_neg hunder, hcopy]
      rfl
    · rw [List.mem_cons, not_or]
      refine ⟨?_, hnone⟩
      rintro rfl
      exact absurd hlit (by decide)
  | case7 c s hne hunder hlit =>
    unfold qValue at h
    rw [if_neg hne, if_neg hunder, if_neg hlit] at h
    cases h

theorem decode64_digit {c d : UInt8} (h : Auth.decode64 c = some d) :
    c ≠ questionMark ∧ c ≠ Bytes.equals ∧ c ≠ Bytes.cr ∧ c ≠ Bytes.space := by
  have hdigit : ∀ b : UInt8, Auth.decode64 b = none → c ≠ b := by
    rintro b hb rfl
    rw [hb] at h
    cases h
  exact ⟨hdigit _ (by decide), hdigit _ (by decide), hdigit _ (by decide), hdigit _ (by decide)⟩

theorem decodeOrPad_digit {c d : UInt8} (h : Auth.decode64 c = some d) :
    Auth.decodeOrPad c = some (some d) := by
  rw [Auth.decodeOrPad, if_neg (decode64_digit h).2.1, h]
  rfl

theorem decodeOrPad_ne {c : UInt8} {d : Option UInt8} (h : Auth.decodeOrPad c = some d) :
    c ≠ questionMark := by
  rintro rfl
  have hnone : Auth.decodeOrPad questionMark = none := by decide
  rw [hnone] at h
  cases h

/-- The second place of a group is a digit, so that no `+` with a blank behind it begins the
text, and neither does a carriage return. -/
theorem bValue_start {t v : Bytes} (h : bValue t = some v) (hne : t ≠ []) :
    ∃ c₁ c₂ s, t = c₁ :: c₂ :: s ∧ c₁ ≠ Bytes.cr ∧ c₂ ≠ Bytes.space := by
  match t, h with
  | [], _ => exact absurd rfl hne
  | c₁ :: c₂ :: c₃ :: c₄ :: s, h =>
    simp only [bValue, Option.bind_eq_bind, Option.bind_eq_some_iff] at h
    obtain ⟨d₁, h₁, d₂, h₂, -⟩ := h
    exact ⟨c₁, c₂, _, rfl, (decode64_digit h₁).2.2.1, (decode64_digit h₂).2.2.2⟩
  | [_], h => cases h
  | [_, _], h => cases h
  | [_, _, _], h => cases h

/-- A valid text is decoded up to the carriage return behind it. -/
theorem decodeGroups_of_bValue {t v : Bytes} (h : bValue t = some v) (hne : t ≠ []) :
    Auth.decodeGroups (t ++ [Bytes.cr]) = some v ∧ questionMark ∉ t := by
  induction t using bValue.induct generalizing v with
  | case1 => exact absurd rfl hne
  | case2 c₁ c₂ c₃ c₄ s ih =>
    simp only [bValue, Option.bind_eq_bind, Option.bind_eq_some_iff] at h
    obtain ⟨d₁, h₁, d₂, h₂, h⟩ := h
    have hq₁ := (decode64_digit h₁).1
    have hq₂ := (decode64_digit h₂).1
    -- only the last group may be filled up
    by_cases hpad : s = [] ∧ c₄ = Bytes.equals
    · obtain ⟨rfl, rfl⟩ := hpad
      rw [if_pos ⟨rfl, rfl⟩] at h
      obtain ⟨d₃, h₃, heq⟩ := Option.bind_eq_some_iff.mp h
      cases heq
      constructor
      · have hequals : Auth.decodeOrPad Bytes.equals = some none := rfl
        simp [Auth.decodeGroups, h₁, h₂, h₃, hequals]
      · have hq₃ := decodeOrPad_ne h₃
        simp [hq₁.symm, hq₂.symm, hq₃.symm]
        decide
    · rw [if_neg hpad] at h
      simp only [Option.bind_eq_some_iff] at h
      obtain ⟨d₃, h₃, d₄, h₄, more, hmore, heq⟩ := h
      cases heq
      have hq₃ := (decode64_digit h₃).1
      have hd₄ := decode64_digit h₄
      have hquestion : questionMark ∉ s := by
        by_cases hs : s = []
        · rw [hs]
          exact List.not_mem_nil
        · exact (ih hmore hs).2
      constructor
      -- another group begins with a digit, so that the loop goes on
      · by_cases hs : s = []
        · -- the carriage return ends the loop
          subst hs
          cases hmore
          simp [Auth.decodeGroups, h₁, h₂, decodeOrPad_digit h₃, decodeOrPad_digit h₄]
        · obtain ⟨b, c, s', rfl, hb, -⟩ := bValue_start hmore hs
          have hrest := (ih hmore hs).1
          simp only [List.cons_append] at hrest
          simp [Auth.decodeGroups, h₁, h₂, decodeOrPad_digit h₃, decodeOrPad_digit h₄, hd₄.2.1, hb,
            hrest]
      · simp only [List.mem_cons, not_or]
        exact ⟨hq₁.symm, hq₂.symm, hq₃.symm, hd₄.1.symm, hquestion⟩
  | case3 s hnil hs =>
    unfold bValue at h
    split at h
    · exact absurd rfl hnil
    · next c₁ c₂ c₃ c₄ s' => exact (hs c₁ c₂ c₃ c₄ s' rfl).elim
    · cases h

theorem copyB_of_bValue {t v : Bytes} (h : bValue t = some v) (hne : t ≠ []) :
    copyB t = v ∧ questionMark ∉ t := by
  obtain ⟨hgroups, hnone⟩ := decodeGroups_of_bValue h hne
  obtain ⟨c₁, c₂, s, rfl, hc₁, hc₂⟩ := bValue_start h hne
  refine ⟨?_, hnone⟩
  -- `from64tobits` skips a `+` and a blank, and stops at a carriage return
  have hplus : ¬ (c₁ :: c₂ :: s ++ [Bytes.cr]).take 2 = Bytes.lit "+ " := by
    intro heq
    exact hc₂ (List.cons.inj (List.cons.inj heq).2).1
  have hcr : ¬ (c₁ :: c₂ :: s ++ [Bytes.cr]).head? = some Bytes.cr := by
    intro heq
    exact hc₁ (Option.some.inj heq)
  rw [copyB, if_neg hne, Auth.from64tobits]
  simp only [if_neg hplus, if_neg hcr, hgroups]
  rfl

/-- The text of an encoded word is replaced by its value. -/
theorem EncodedWord.copyText (w : EncodedWord) (behind : Bytes) :
    Mime.copyText (Bytes.toLower w.encoding) behind w.text = some w.value ∧
      questionMark ∉ w.text := by
  have hvalue := w.text_value
  unfold textValue at hvalue
  unfold Mime.copyText
  by_cases hq : Bytes.toLower w.encoding = 113
  · rw [if_pos hq] at hvalue ⊢
    exact copyQ_of_qValue hvalue behind
  · rw [if_neg hq] at hvalue ⊢
    by_cases hb : Bytes.toLower w.encoding = 98
    · rw [if_pos hb] at hvalue ⊢
      obtain ⟨hcopy, hnone⟩ := copyB_of_bValue hvalue w.text_nonempty
      exact ⟨by rw [hcopy], hnone⟩
    · rw [if_neg hb] at hvalue
      cases hvalue

theorem EncodedWord.question_notMem_charset (w : EncodedWord) : questionMark ∉ w.charset := by
  intro hmem
  exact absurd (w.charset_token _ hmem) (by decide)

/-! ## Decoding a header -/

/-- What follows the `=?`. -/
def EncodedWord.body (w : EncodedWord) : Bytes :=
  w.charset ++ questionMark :: w.encoding :: questionMark :: (w.text ++ mimehdrEnd)

theorem EncodedWord.decodeFrom_body (w : EncodedWord) (y : Bytes) :
    decodeFrom .skipMimeinit (w.body ++ y) = (decodeAfter y).map (w.value ++ ·) := by
  obtain ⟨hcopy, hnone⟩ := w.copyText (mimehdrEnd ++ y)
  have hbody : w.body ++ y = w.charset ++ questionMark :: w.encoding :: questionMark ::
      (w.text ++ (mimehdrEnd ++ y)) := by
    simp [EncodedWord.body]
  rw [hbody, decodeFrom_charset w.question_notMem_charset, decodeFrom_text hnone y hcopy]

namespace MimeHeader

theorem wordsSource_cons (w : EncodedWord) (t : Bytes) (ws : List (EncodedWord × Bytes)) :
    wordsSource ((w, t) :: ws) = mimehdrInit ++ (w.body ++ (t ++ wordsSource ws)) := by
  simp [wordsSource, EncodedWord.source, EncodedWord.body]

/-- From one encoded word to the next one, or to the end of the header. -/
theorem decodeFrom_words {w : EncodedWord} {t : Bytes} {ws : List (EncodedWord × Bytes)}
    (ht : PlainText t) (hws : ∀ p ∈ ws, PlainText p.2) :
    decodeFrom .skipMimeinit (w.body ++ (t ++ wordsSource ws)) =
      some (wordsRendered ((w, t) :: ws)) := by
  rw [w.decodeFrom_body]
  -- from word to word; `t` is the text behind the word that is read
  induction ws generalizing w t with
  | nil =>
    have hend : t ++ wordsSource [] = t := List.append_nil t
    rw [hend, decodeAfter_plain ht]
    rfl
  | cons p ws ih =>
    obtain ⟨w', t'⟩ := p
    have ht' : PlainText t' := hws _ (List.mem_cons_self ..)
    have hrest := ih (w := w') ht' fun p hp => hws p (List.mem_cons_of_mem _ hp)
    rw [← w'.decodeFrom_body] at hrest
    rw [wordsSource_cons]
    -- white space between two words is dropped, other text is copied
    by_cases hblank : t.all Bytes.isspace = true
    · rw [decodeAfter_blanks hblank, hrest, wordsRendered, if_pos hblank]
      rfl
    · have hfind := findInit_append ht (w'.body ++ (t' ++ wordsSource ws))
      have htext : decodeAfter (t ++ (mimehdrInit ++ (w'.body ++ (t' ++ wordsSource ws)))) =
          decodeFrom .copyPlain (t ++ (mimehdrInit ++ (w'.body ++ (t' ++ wordsSource ws)))) := by
        apply decodeAfter_text
        intro u y huy
        rw [hfind] at huy
        cases huy
        simpa using hblank
      rw [htext, decodeFrom_lead ht, hrest, wordsRendered, if_neg hblank]
      rfl

/-- A header whose text has no `=?` in it is decoded as it is meant. -/
theorem unMimeHeader_source (h : MimeHeader) (hplain : ∀ t ∈ h.parts, PlainText t) :
    unMimeHeader h.source = some h.rendered := by
  obtain ⟨lead, words⟩ := h
  have hlead : PlainText lead := hplain _ (List.mem_cons_self ..)
  have hwords : ∀ p ∈ words, PlainText p.2 := fun p hp =>
    hplain _ (List.mem_cons_of_mem _ (List.mem_map_of_mem hp))
  rw [unMimeHeader_eq, source, rendered]
  cases words with
  | nil =>
    have hsource : lead ++ wordsSource [] = lead := List.append_nil lead
    have hrendered : lead ++ wordsRendered [] = lead := List.append_nil lead
    rw [hsource, hrendered, decodeFrom_plain hlead]
  | cons p ws =>
    obtain ⟨w, t⟩ := p
    rw [wordsSource_cons, decodeFrom_lead hlead,
      decodeFrom_words (hwords _ (List.mem_cons_self ..)) fun p hp =>
        hwords p (List.mem_cons_of_mem _ hp)]
    rfl

/-- Where there is a `=?`, fewer bytes are written than read. -/
theorem length_unMimeHeader_lt {s out : Bytes} (hs : ¬ PlainText s)
    (h : unMimeHeader s = some out) : out.length < s.length := by
  rw [unMimeHeader_eq] at h
  -- the two bytes are lost in the first round, and no later one makes up for them
  cases hfind : findInit s with
  | none => exact absurd (Pairs.cut_eq_none.mp hfind) hs
  | some r =>
    obtain ⟨t, s'⟩ := r
    have hlen := length_of_findInit hfind
    have hne : s ≠ [] := by
      rintro rfl
      cases hfind
    have hround : round .copyPlain s = some (t, .skipMimeinit, s') := by
      rw [round, copyPlain, hfind]
    rw [decodeFrom_round hne hround] at h
    dsimp only at h
    obtain ⟨more, hmore, rfl⟩ := Option.map_eq_some_iff.mp h
    have := decodeFrom_length hmore
    rw [List.length_append]
    omega

/-- `UnMimeHeader` touches only the encoded words of a header if no other `=?` is in it. Without
encoded words it must not contain one. -/
theorem unMimeHeader_touches_words (h : MimeHeader) :
    ((∀ t ∈ h.parts, PlainText t) → h.OnlyWordsTouched) ∧
      (h.words = [] → h.OnlyWordsTouched → ∀ t ∈ h.parts, PlainText t) := by
  constructor
  · intro hplain
    exact ⟨h.unMimeHeader_source hplain, fun _ _ _ hreach => hreach.length⟩
  · intro hwords honly t ht
    obtain ⟨lead, words⟩ := h
    cases hwords
    have ht : t = lead := List.mem_singleton.mp ht
    have hdecoded := honly.decoded
    have hsource : MimeHeader.source ⟨lead, []⟩ = lead := List.append_nil lead
    have hrendered : MimeHeader.rendered ⟨lead, []⟩ = lead := List.append_nil lead
    rw [hsource, hrendered] at hdecoded
    rw [ht]
    -- the output would be as long as the header
    by_contra hnot
    exact absurd (length_unMimeHeader_lt hnot hdecoded) (Nat.lt_irrefl _)

end MimeHeader

/-- A word in the encoding `Q`, and one in `B` -/
def plainWord : EncodedWord where
  charset := Bytes.lit "us-ascii"
  encoding := 113
  text := Bytes.lit "a=3Db_c"
  value := Bytes.lit "a=b c"
  charset_nonempty := by decide
  charset_token := by decide
  text_nonempty := by decide
  text_value := by decide +kernel

def digitsWord : EncodedWord where
  charset := Bytes.lit "utf-8"
  encoding := 66
  text := Bytes.lit "QUJD"
  value := Bytes.lit "ABC"
  charset_nonempty := by decide
  charset_token := by decide
  text_nonempty := by decide
  text_value := by decide +kernel

namespace MimeHeader

theorem unMimeHeader_touches_words_subject :
    OnlyWordsTouched
      ⟨Bytes.lit "Subject: ", [(plainWord, Bytes.lit " "), (digitsWord, Bytes.lit "\n")]⟩ := by
  have hplain : ∀ t ∈ [Bytes.lit "Subject: ", Bytes.lit " ", Bytes.lit "\n"], PlainText t := by
    decide
  exact (unMimeHeader_touches_words _).1 hplain

/-- `a=?b` has no encoded word in it, and loses its `=?`. -/
theorem unMimeHeader_drops_init :
    ∃ h : MimeHeader, h.Maximal ∧ h.source = Bytes.lit "a=?b" ∧ ¬ h.OnlyWordsTouched := by
  refine ⟨⟨Bytes.lit "a=?b", []⟩, ?_, rfl, ?_⟩
  · intro t ht w hin
    have ht : t = Bytes.lit "a=?b" := List.mem_singleton.mp ht
    -- it is too short for an encoded word
    have hle := hin.length_le
    rw [ht] at hle
    have hcharset := List.length_pos_iff.mpr w.charset_nonempty
    have htext := List.length_pos_iff.mpr w.text_nonempty
    have hlen : (Bytes.lit "a=?b").length = 4 := rfl
    rw [hlen] at hle
    simp only [EncodedWord.source, mimehdrInit, mimehdrEnd, List.length_append, List.length_cons,
      List.length_nil] at hle
    omega
  · intro honly
    have hdecoded := honly.decoded
    have hrun : unMimeHeader (Bytes.lit "a=?b") = some (Bytes.lit "ab") := by decide +kernel
    have hsource : MimeHeader.source ⟨Bytes.lit "a=?b", []⟩ = Bytes.lit "a=?b" := rfl
    rw [hsource, hrun] at hdecoded
    exact absurd hdecoded (by decide)

end MimeHeader

end Fetchmail.Mime
