import Fetchmail.Lib.Bytes

/-!
# Lines and Dot Stuffing

Byte streams as sequences of lines that end in a line feed, and the transparency procedure
with which line-oriented mail protocols end a text by a line that is a single dot: a sender
doubles the dot at the start of a line, a receiver stops at the lone dot and takes one dot
off every other line that starts with one.
-/

namespace Fetchmail.Lib

/-! ## Lines -/

/-- The lines of a stream, each with its line feed; the last may be without. -/
def lfLines : Bytes → List Bytes
  | [] => []
  | b :: s =>
    if b = Bytes.lf then [b] :: lfLines s
    else
      match lfLines s with
      | [] => [[b]]
      | l :: ls => (b :: l) :: ls

/-- One line with its line feed. -/
def IsLine (l : Bytes) : Prop := ∃ text, Bytes.lf ∉ text ∧ l = text ++ [Bytes.lf]

/-- A stream without an unfinished line. -/
def Terminated (s : Bytes) : Prop := s = [] ∨ s.getLast? = some Bytes.lf

@[simp]
theorem flatten_lfLines (s : Bytes) : (lfLines s).flatten = s := by
  induction s with
  | nil => rfl
  | cons b s ih =>
    simp only [lfLines]
    split
    · simp [ih]
    · split
      · next h => simp_all
      · next l ls h => simpa [h] using ih

theorem lfLines_line_append {text : Bytes} (s : Bytes) (h : Bytes.lf ∉ text) :
    lfLines (text ++ Bytes.lf :: s) = (text ++ [Bytes.lf]) :: lfLines s := by
  induction text with
  | nil => simp [lfLines]
  | cons b text ih =>
    have hb : b ≠ Bytes.lf := fun heq => h (by simp [heq])
    have htext : Bytes.lf ∉ text := fun hmem => h (by simp [hmem])
    simp [lfLines, hb, ih htext]

/-- The first line feed splits a stream. -/
theorem exists_line_append {s : Bytes} (h : Bytes.lf ∈ s) :
    ∃ text rest, Bytes.lf ∉ text ∧ s = text ++ Bytes.lf :: rest := by
  induction s with
  | nil => simp at h
  | cons b s ih =>
    by_cases hb : b = Bytes.lf
    · exact ⟨[], s, by simp, by simp [hb]⟩
    · obtain ⟨text, rest, htext, rfl⟩ := ih (by simpa [Ne.symm hb] using h)
      refine ⟨b :: text, rest, ?_, rfl⟩
      simp [Ne.symm hb, htext]

theorem Terminated.lf_mem {s : Bytes} (h : Terminated s) (hne : s ≠ []) : Bytes.lf ∈ s :=
  List.mem_of_getLast? (h.resolve_left hne)

/-- Induction over the lines of a terminated stream. -/
theorem Terminated.rec_lines (P : Bytes → Prop) (nil : P [])
    (line : ∀ text s, Bytes.lf ∉ text → Terminated s → P s → P (text ++ Bytes.lf :: s))
    {s : Bytes} (h : Terminated s) : P s := by
  by_cases hne : s = []
  · exact hne ▸ nil
  · obtain ⟨text, rest, htext, rfl⟩ := exists_line_append (h.lf_mem hne)
    have hrest : Terminated rest := by
      rcases List.eq_nil_or_concat rest with rfl | ⟨init, b, rfl⟩
      · exact .inl rfl
      · right
        have hlast := h.resolve_left hne
        rw [List.concat_eq_append] at hlast ⊢
        rw [← List.cons_append, ← List.append_assoc, List.getLast?_concat] at hlast
        rw [List.getLast?_concat, hlast]
    exact line text rest htext hrest (hrest.rec_lines P nil line)
termination_by s.length
decreasing_by
  subst_vars
  simp
  omega

theorem Terminated.append {a b : Bytes} (ha : Terminated a) (hb : Terminated b) :
    Terminated (a ++ b) := by
  rcases hb with rfl | hb
  · simpa using ha
  · right
    simp [List.getLast?_append, hb]

theorem terminated_line (text : Bytes) : Terminated (text ++ [Bytes.lf]) := by
  right
  simp

theorem lfLines_append {a : Bytes} (b : Bytes) (ha : Terminated a) :
    lfLines (a ++ b) = lfLines a ++ lfLines b := by
  refine ha.rec_lines (fun a => lfLines (a ++ b) = lfLines a ++ lfLines b) (by simp [lfLines]) ?_
  intro text s htext _ ih
  rw [lfLines_line_append s htext, List.append_assoc, List.cons_append,
    lfLines_line_append _ htext, ih, List.cons_append]

/-- A terminated stream is made of lines. -/
theorem Terminated.isLine_of_mem {s l : Bytes} (h : Terminated s) (hl : l ∈ lfLines s) :
    IsLine l := by
  revert hl
  refine h.rec_lines (fun s => l ∈ lfLines s → IsLine l) (by simp [lfLines]) ?_
  intro text s htext _ ih hl
  rw [lfLines_line_append s htext, List.mem_cons] at hl
  rcases hl with rfl | hl
  · exact ⟨text, htext, rfl⟩
  · exact ih hl

/-- Cutting a line keeps its end a line. -/
theorem IsLine.drop {l : Bytes} (hl : IsLine l) {n : Nat} (h : n < l.length) :
    IsLine (l.drop n) := by
  obtain ⟨text, htext, rfl⟩ := hl
  have hn : n ≤ text.length := by simpa [Nat.lt_succ_iff] using h
  refine ⟨text.drop n, fun hmem => htext (List.mem_of_mem_drop hmem), ?_⟩
  rw [List.drop_append_of_le_length hn]

theorem IsLine.take {l : Bytes} (hl : IsLine l) {n : Nat} (h : n < l.length) :
    Bytes.lf ∉ l.take n := by
  obtain ⟨text, htext, rfl⟩ := hl
  have hn : n ≤ text.length := by simpa [Nat.lt_succ_iff] using h
  rw [List.take_append_of_le_length hn]
  exact fun hmem => htext (List.mem_of_mem_take hmem)

/-! ## The sender -/

/-- Double the dot at the start of a line. -/
def stuff (l : Bytes) : Bytes :=
  if l.head? = some Bytes.dot then Bytes.dot :: l else l

/-- The lines of a text as they are sent, each ended by CRLF. -/
def stuffed (texts : List Bytes) : Bytes :=
  (texts.map fun text => stuff text ++ Bytes.crlf).flatten

/-- The line that ends the text. -/
def terminator : Bytes := Bytes.dot :: Bytes.crlf

theorem terminated_stuffed (texts : List Bytes) : Terminated (stuffed texts) := by
  induction texts with
  | nil => exact .inl rfl
  | cons text texts ih =>
    have hline : Terminated (stuff text ++ Bytes.crlf) := by
      right
      simp [Bytes.crlf, List.getLast?_append]
    exact hline.append ih

/-! ## The receiver -/

/-- A line that is a single dot. -/
def loneDot (l : Bytes) : Bool :=
  l = [Bytes.dot, Bytes.cr, Bytes.lf] || l = [Bytes.dot, Bytes.lf] || l = [Bytes.dot]

/-- Take the stuffing off a line. -/
def unstuff (l : Bytes) : Bytes :=
  if l.head? = some Bytes.dot then l.tail else l

/-- What a receiver makes of a stream. -/
def receive (s : Bytes) : Bytes :=
  (((lfLines s).takeWhile fun l => !loneDot l).map unstuff).flatten

/-- What a receiver would make of a stream without looking for its end. -/
def unstuffLines (s : Bytes) : Bytes := ((lfLines s).map unstuff).flatten

/-- No line of the stream is a single dot. -/
def NoLoneDot (s : Bytes) : Prop := ∀ l ∈ lfLines s, loneDot l = false

theorem receive_of_noLoneDot {s : Bytes} (h : NoLoneDot s) : receive s = unstuffLines s := by
  have htake : ∀ ls : List Bytes, (∀ l ∈ ls, loneDot l = false) →
      ls.takeWhile (fun l => !loneDot l) = ls := by
    intro ls hls
    induction ls with
    | nil => rfl
    | cons l ls ih =>
      have hl := hls l (by simp)
      have hrest := ih fun l' hl' => hls l' (by simp [hl'])
      simp [hl, hrest]
  rw [receive, htake _ h, unstuffLines]

/-- A receiver adds nothing. -/
theorem mem_of_mem_receive {s : Bytes} {b : UInt8} (h : b ∈ receive s) : b ∈ s := by
  obtain ⟨l', hl', hb⟩ := List.mem_flatten.mp h
  obtain ⟨l, hl, rfl⟩ := List.mem_map.mp hl'
  have hbl : b ∈ l := by
    unfold unstuff at hb
    split at hb
    · exact List.mem_of_mem_tail hb
    · exact hb
  rw [← flatten_lfLines s]
  exact List.mem_flatten_of_mem ((List.takeWhile_sublist _).mem hl) hbl

theorem unstuffLines_append {a : Bytes} (b : Bytes) (ha : Terminated a) :
    unstuffLines (a ++ b) = unstuffLines a ++ unstuffLines b := by
  simp [unstuffLines, lfLines_append b ha]

/-- What comes first is read first. -/
theorem receive_append {a : Bytes} (b : Bytes) (ha : Terminated a) (hdot : NoLoneDot a) :
    receive (a ++ b) = unstuffLines a ++ receive b := by
  have hpos : ∀ l ∈ lfLines a, (!loneDot l) = true := fun l hl => by simp [hdot l hl]
  rw [receive, lfLines_append b ha, List.takeWhile_append_of_pos hpos, List.map_append,
    List.flatten_append]
  rfl

theorem noLoneDot_append {a b : Bytes} (ha : Terminated a) :
    NoLoneDot (a ++ b) ↔ NoLoneDot a ∧ NoLoneDot b := by
  unfold NoLoneDot
  rw [lfLines_append b ha]
  simp only [List.mem_append, or_imp, forall_and]

/-! ## Weight

The bytes of a stream that are not line ends. Every dot taken off a line is missed in the
weight of the result, whatever else happens to the line ends. -/

/-- How many bytes are neither carriage return nor line feed. -/
def weight (s : Bytes) : Nat := s.countP fun b => b ≠ Bytes.cr && b ≠ Bytes.lf

@[simp]
theorem weight_append (a b : Bytes) : weight (a ++ b) = weight a + weight b :=
  List.countP_append

@[simp]
theorem weight_dot_cons (s : Bytes) : weight (Bytes.dot :: s) = weight s + 1 := by
  simp [weight, Bytes.dot, Bytes.cr, Bytes.lf]

/-- What may end a line. -/
def LineEnd (e : Bytes) : Prop := e = [Bytes.lf] ∨ e = Bytes.crlf

theorem LineEnd.weight {e : Bytes} (h : LineEnd e) : weight e = 0 := by
  rcases h with rfl | rfl <;> rfl

theorem LineEnd.length_pos {e : Bytes} (h : LineEnd e) : 0 < e.length := by
  rcases h with rfl | rfl <;> simp [Bytes.crlf]

theorem LineEnd.terminated {e : Bytes} (h : LineEnd e) (s : Bytes) : Terminated (s ++ e) := by
  right
  rcases h with rfl | rfl <;> simp [Bytes.crlf, List.getLast?_append]

/-- A line that starts with a dot. -/
def dotted (l : Bytes) : Bool := l.head? = some Bytes.dot

theorem countP_unstuff {p : UInt8 → Bool} (hp : p Bytes.dot = true) (l : Bytes) :
    (unstuff l).countP p + (if dotted l then 1 else 0) = l.countP p := by
  cases l with
  | nil => rfl
  | cons b l =>
    by_cases hb : b = Bytes.dot
    · subst hb
      simp [unstuff, dotted, hp]
    · simp [unstuff, dotted, hb]

/-- Unstuffing costs one for every line that starts with a dot, however the bytes are counted. -/
theorem countP_unstuffLines {p : UInt8 → Bool} (hp : p Bytes.dot = true) (s : Bytes) :
    (unstuffLines s).countP p + (lfLines s).countP dotted = s.countP p := by
  have hlines : ∀ ls : List Bytes,
      (ls.map unstuff).flatten.countP p + ls.countP dotted = ls.flatten.countP p := by
    intro ls
    induction ls with
    | nil => rfl
    | cons l ls ih =>
      have hl := countP_unstuff hp l
      rw [List.map_cons, List.flatten_cons, List.flatten_cons, List.countP_append,
        List.countP_append, List.countP_cons]
      omega
  simpa [unstuffLines] using hlines (lfLines s)

theorem weight_unstuffLines (s : Bytes) :
    weight (unstuffLines s) + (lfLines s).countP dotted = weight s :=
  countP_unstuffLines (by decide) s

/-- Stopping early does not add anything. -/
theorem countP_receive_le (p : UInt8 → Bool) (s : Bytes) :
    (receive s).countP p ≤ (unstuffLines s).countP p := by
  have hlines : ∀ ls : List Bytes, ((ls.takeWhile fun l => !loneDot l).map unstuff).flatten.countP p ≤
      (ls.map unstuff).flatten.countP p := by
    intro ls
    induction ls with
    | nil => simp
    | cons l ls ih =>
      rw [List.takeWhile_cons]
      split
      · simpa using ih
      · simp
  exact hlines (lfLines s)

theorem map_unstuff_of_not_dotted {ls : List Bytes} (h : ∀ l ∈ ls, dotted l = false) :
    ls.map unstuff = ls := by
  have hid : ∀ l ∈ ls, unstuff l = id l := by
    intro l hl
    have hl := h l hl
    simp only [dotted, decide_eq_false_iff_not] at hl
    simp [unstuff, hl]
  rw [List.map_congr_left hid, List.map_id]

theorem loneDot_of_not_dotted {l : Bytes} (h : dotted l = false) : loneDot l = false := by
  rw [← Bool.not_eq_true]
  intro hlone
  simp only [loneDot, Bool.or_eq_true, decide_eq_true_eq] at hlone
  rcases hlone with (rfl | rfl) | rfl <;> simp [dotted] at h

/-! ## Reading a text off a stream

A sender that goes wrong loses weight or makes the text longer; the two cannot make up for
each other. So a stream that is sent in pieces gives a text exactly if its pieces give the
pieces of the text. -/

/-- The lines of the stream are the text, and none of them ends it. -/
def Reads (s text : Bytes) : Prop := unstuffLines s = text ∧ NoLoneDot s

/-- Text without a dot at the start of a line reads as it is. -/
theorem reads_self {s : Bytes} (h : ∀ l ∈ lfLines s, dotted l = false) : Reads s s := by
  refine ⟨?_, fun l hl => loneDot_of_not_dotted (h l hl)⟩
  rw [unstuffLines, map_unstuff_of_not_dotted h, flatten_lfLines]

/-- What is read off a stream is at most as heavy as the text, and if it is as heavy, then at
least as long. -/
structure Accounted (s text : Bytes) : Prop where
  weight_le : weight (unstuffLines s) ≤ weight text
  noLoneDot : weight (unstuffLines s) = weight text → NoLoneDot s
  length_le : weight (unstuffLines s) = weight text → text.length ≤ (unstuffLines s).length
  eq : weight (unstuffLines s) = weight text → (unstuffLines s).length = text.length →
    unstuffLines s = text

theorem accounted_nil : Accounted [] [] := by
  constructor <;> simp [unstuffLines, lfLines, NoLoneDot]

theorem Reads.accounted {s text : Bytes} (h : Reads s text) : Accounted s text where
  weight_le := Nat.le_of_eq (congrArg weight h.1)
  noLoneDot _ := h.2
  length_le _ := Nat.le_of_eq (congrArg List.length h.1.symm)
  eq _ _ := h.1

/-- A stream that has lost weight is accounted for. -/
theorem Accounted.of_lighter {s text : Bytes} (h : weight (unstuffLines s) < weight text) :
    Accounted s text where
  weight_le := Nat.le_of_lt h
  noLoneDot heq := absurd heq (Nat.ne_of_lt h)
  length_le heq := absurd heq (Nat.ne_of_lt h)
  eq heq := absurd heq (Nat.ne_of_lt h)

theorem Accounted.append {s t text text' : Bytes} (hterm : Terminated s) (h : Accounted s text)
    (h' : Accounted t text') : Accounted (s ++ t) (text ++ text') := by
  have hunstuff := unstuffLines_append t hterm
  have hle := h.weight_le
  have hle' := h'.weight_le
  have hsplit : weight (unstuffLines (s ++ t)) = weight (text ++ text') →
      weight (unstuffLines s) = weight text ∧ weight (unstuffLines t) = weight text' := by
    rw [hunstuff, weight_append, weight_append]
    omega
  constructor
  · rw [hunstuff, weight_append, weight_append]
    omega
  · intro heq
    obtain ⟨heq₁, heq₂⟩ := hsplit heq
    exact (noLoneDot_append hterm).mpr ⟨h.noLoneDot heq₁, h'.noLoneDot heq₂⟩
  · intro heq
    obtain ⟨heq₁, heq₂⟩ := hsplit heq
    have hlen := h.length_le heq₁
    have hlen' := h'.length_le heq₂
    rw [hunstuff, List.length_append, List.length_append]
    omega
  · intro heq hlength
    obtain ⟨heq₁, heq₂⟩ := hsplit heq
    have hlen := h.length_le heq₁
    have hlen' := h'.length_le heq₂
    rw [hunstuff, List.length_append, List.length_append] at hlength
    rw [hunstuff, h.eq heq₁ (by omega), h'.eq heq₂ (by omega)]

/-- The whole is read exactly if the pieces are. -/
theorem reads_append_iff {s t text text' : Bytes} (hterm : Terminated s) (h : Accounted s text)
    (h' : Accounted t text') :
    Reads (s ++ t) (text ++ text') ↔ Reads s text ∧ Reads t text' := by
  unfold Reads
  rw [unstuffLines_append t hterm, noLoneDot_append hterm]
  constructor
  · rintro ⟨heq, hdot, hdot'⟩
    have hw := congrArg weight heq
    have hlength := congrArg List.length heq
    rw [weight_append, weight_append] at hw
    rw [List.length_append, List.length_append] at hlength
    have hle := h.weight_le
    have hle' := h'.weight_le
    have hlen := h.length_le (by omega)
    have hlen' := h'.length_le (by omega)
    exact ⟨⟨h.eq (by omega) (by omega), hdot⟩, h'.eq (by omega) (by omega), hdot'⟩
  · rintro ⟨⟨heq, hdot⟩, heq', hdot'⟩
    exact ⟨by rw [heq, heq'], hdot, hdot'⟩

/-- Looking for the end of the text makes no difference to a receiver that gets all of it. -/
theorem receive_iff {s text : Bytes} : receive s = text ∧ NoLoneDot s ↔ Reads s text := by
  constructor
  · rintro ⟨hreceive, hdot⟩
    exact ⟨(receive_of_noLoneDot hdot).symm.trans hreceive, hdot⟩
  · rintro ⟨heq, hdot⟩
    exact ⟨(receive_of_noLoneDot hdot).trans heq, hdot⟩

/-! ## A text with a dot ahead -/

theorem lfLines_eq_nil {s : Bytes} : lfLines s = [] ↔ s = [] := by
  constructor
  · intro h
    rw [← flatten_lfLines s, h]
    rfl
  · rintro rfl
    rfl

/-- A byte ahead of a stream goes to its first line. -/
theorem lfLines_cons {b : UInt8} (hb : b ≠ Bytes.lf) (s : Bytes) :
    lfLines (b :: s) = (b :: (lfLines s).headD []) :: (lfLines s).tail := by
  simp only [lfLines, if_neg hb]
  cases lfLines s <;> rfl

/-- The first line starts as the stream does. -/
theorem dotted_headD (s : Bytes) : dotted ((lfLines s).headD []) = dotted s := by
  cases s with
  | nil => rfl
  | cons b s =>
    by_cases hb : b = Bytes.lf
    · simp [lfLines, hb, dotted]
    · rw [lfLines_cons hb]
      rfl

theorem countP_dotted (s : Bytes) : (lfLines s).countP dotted =
    (lfLines s).tail.countP dotted + if dotted s then 1 else 0 := by
  cases hs : lfLines s with
  | nil =>
    rw [lfLines_eq_nil.mp hs]
    rfl
  | cons l ls =>
    have hhead := dotted_headD s
    rw [hs] at hhead
    rw [List.countP_cons, ← hhead]
    rfl

/-- A dot may be put ahead of a text that starts with one. -/
def Lead (lead text : Bytes) : Prop := lead = [] ∨ lead = [Bytes.dot] ∧ dotted text = true

theorem Lead.append {lead text : Bytes} (h : Lead lead text) (more : Bytes) :
    Lead lead (text ++ more) := by
  rcases h with rfl | ⟨rfl, hdot⟩
  · exact .inl rfl
  · cases text with
    | nil => simp [dotted] at hdot
    | cons b text => exact .inr ⟨rfl, hdot⟩

theorem Lead.weight_append {lead text : Bytes} (h : Lead lead text) :
    weight (lead ++ text) = weight text + lead.length := by
  rcases h with rfl | ⟨rfl, -⟩
  · rfl
  · simp

/-- No line starts with a dot that has not been put there: a text with its lead. -/
structure WellLed (lead text : Bytes) : Prop where
  first : dotted text = true → lead ≠ []
  inner : ∀ l ∈ (lfLines text).tail, dotted l = false

/-- The dots that are taken off a text with its lead are at least the lead, and no more exactly
if it is well led. -/
theorem Lead.countP_dotted {lead text : Bytes} (h : Lead lead text) :
    lead.length ≤ (lfLines (lead ++ text)).countP dotted ∧
      ((lfLines (lead ++ text)).countP dotted = lead.length ↔ WellLed lead text) := by
  have hdot : Bytes.dot ≠ Bytes.lf := by decide
  have hinner : (lfLines text).tail.countP dotted = 0 ↔
      ∀ l ∈ (lfLines text).tail, dotted l = false := by
    simp [List.countP_eq_zero]
  -- without a lead the first line counts as it is, with one it is a dot more
  rcases h with rfl | ⟨rfl, hfirst⟩
  · refine ⟨Nat.zero_le _, ?_⟩
    rw [List.nil_append, Lib.countP_dotted]
    constructor
    · intro heq
      refine ⟨fun hd => ?_, hinner.mp (by simp only [List.length_nil] at heq; omega)⟩
      simp [hd] at heq
    · intro hled
      have hfirst : dotted text = false := by
        rw [← Bool.not_eq_true]
        exact fun hd => hled.first hd rfl
      simp [hinner.mpr hled.inner, hfirst]
  · have hlines : (lfLines ([Bytes.dot] ++ text)).countP dotted =
        (lfLines text).tail.countP dotted + 1 := by
      rw [List.singleton_append, lfLines_cons hdot, List.countP_cons]
      simp [dotted]
    rw [hlines]
    refine ⟨Nat.le_add_left _ _, ?_⟩
    constructor
    · intro heq
      exact ⟨fun _ => by simp, hinner.mp (by simpa using heq)⟩
    · intro hled
      simp [hinner.mpr hled.inner]

/-- A text that is well led is read off. -/
theorem Lead.reads {lead text : Bytes} (h : Lead lead text) (hled : WellLed lead text) :
    Reads (lead ++ text) text := by
  have hdot : Bytes.dot ≠ Bytes.lf := by decide
  rcases h with rfl | ⟨rfl, hfirst⟩
  · have hall : ∀ l ∈ lfLines text, dotted l = false := by
      -- no dot was put in front, so the first line begins with none, nor any other
      have hfirst : dotted text = false := by
        rw [← Bool.not_eq_true]
        exact fun hd => hled.first hd rfl
      cases hlines : lfLines text with
      | nil => simp
      | cons l ls =>
        have hhead := dotted_headD text
        have hinner := hled.inner
        rw [hlines] at hhead hinner
        simp only [List.mem_cons, forall_eq_or_imp]
        exact ⟨hhead.trans hfirst, hinner⟩
    exact reads_self hall
  -- the dot in front is the one that is taken off the first line
  · have hhead := dotted_headD text
    rw [hfirst] at hhead
    have hflatten := flatten_lfLines text
    have hinner := hled.inner
    have hlines := lfLines_cons hdot text
    cases htext : lfLines text with
    | nil => simp [htext, dotted] at hhead
    | cons l ls =>
      rw [htext] at hhead hflatten hinner hlines
      simp only [List.headD_cons, List.tail_cons] at hhead hinner hlines
      refine ⟨?_, ?_⟩
      · rw [unstuffLines, List.singleton_append, hlines, List.map_cons,
          map_unstuff_of_not_dotted hinner, ← hflatten]
        simp [unstuff]
      · intro l' hl'
        rw [List.singleton_append, hlines] at hl'
        rcases List.mem_cons.mp hl' with rfl | hl'
        · -- two dots are no lone dot
          cases l with
          | nil => simp [dotted] at hhead
          | cons b l =>
            simp only [dotted, List.head?_cons, Option.some.injEq, decide_eq_true_eq] at hhead
            simp [loneDot, hhead, Bytes.dot, Bytes.cr, Bytes.lf]
        · exact loneDot_of_not_dotted (hinner l' hl')

/-- A text with its lead is accounted for, and read off exactly if it is well led. -/
theorem Lead.accounted {lead text : Bytes} (h : Lead lead text) :
    Accounted (lead ++ text) text ∧ (Reads (lead ++ text) text ↔ WellLed lead text) := by
  have hw := weight_unstuffLines (lead ++ text)
  obtain ⟨hle, hiff⟩ := h.countP_dotted
  rw [h.weight_append] at hw
  refine ⟨?_, fun hreads => hiff.mp ?_, h.reads⟩
  · by_cases hled : WellLed lead text
    · exact (h.reads hled).accounted
    · refine Accounted.of_lighter ?_
      have hne := mt hiff.mp hled
      omega
  · rw [hreads.1] at hw
    omega

/-- What reads as a longer text of the same weight is not the text. -/
theorem Accounted.longer {s text text' : Bytes} (h : Accounted s text')
    (hw : weight text' = weight text) (hlen : text.length < text'.length) :
    Accounted s text ∧ ¬ Reads s text := by
  have hlt : weight (unstuffLines s) = weight text → text.length < (unstuffLines s).length :=
    fun heq => Nat.lt_of_lt_of_le hlen (h.length_le (heq.trans hw.symm))
  refine ⟨?_, fun hreads => ?_⟩
  · constructor
    · exact hw ▸ h.weight_le
    · exact fun heq => h.noLoneDot (heq.trans hw.symm)
    · exact fun heq => Nat.le_of_lt (hlt heq)
    · exact fun heq hlength => absurd hlength.symm (Nat.ne_of_lt (hlt heq))
  · have := hlt (congrArg weight hreads.1)
    rw [hreads.1] at this
    exact Nat.lt_irrefl _ this

/-- A stream that is too light is read as something lighter than the text, even if a dot of it
is not part of the text. -/
theorem lighter_of_weight {lead s text : Bytes} (hlead : lead.length ≤ 1)
    (hdotted : lead = [] ∨ dotted s = true) (hw : weight s < weight text + lead.length) :
    weight (unstuffLines s) < weight text := by
  have htaken := weight_unstuffLines s
  rw [countP_dotted] at htaken
  rcases hdotted with rfl | h
  · simp only [List.length_nil] at hw
    omega
  · rw [if_pos h] at htaken
    omega

end Fetchmail.Lib
