import Fetchmail.Lib.Storage
import Fetchmail.Sink.Bounce

/-!
# The Buffer of the Warning Header

The part of `readheaders` that builds the `X-Fetchmail-Warning` line. The texts go into an
array on the stack with calls that cut what does not fit; the recipients that the listener
rejected go into a block of computed size. The line end is put behind all that with `strcat`,
which does not cut.
-/

namespace Fetchmail.Transact

open Fetchmail.Lib Fetchmail.Lib.Storage
open Fetchmail.Sink (Recipient)

/-- `USERNAMELEN + POPBUFSIZE`, the size of `errhd` -/
def errhdSize : Nat := 128 + 512

/-- What the warning is made from. -/
structure Complaint where
  noLocalMatches : Bool
  hasNuls : Bool
  /-- `bad_addresses` is not zero. -/
  badAddresses : Bool
  /-- `msgblk.recipients` -/
  recipients : List Recipient
  strings : ∀ r ∈ recipients, Bytes.nul ∉ r.id

/-- `reject_count`: `find_server_names` counts with every recipient that it marks. -/
def Complaint.rejectCount (c : Complaint) : Nat := c.recipients.countP fun r => r.mark = .reject

section

variable (c : Complaint)

/-- `snprintf(errhd+strlen(errhd), sizeof(errhd)-strlen(errhd), text)` -/
def append (errhd text : Bytes) : Option Bytes :=
  snprintf errhd (strlen errhd) (errhdSize - strlen errhd) text

/-- `"; "`, if the byte behind the first of the text is set. -/
def semicolon (errhd : Bytes) : Option Bytes :=
  if Bytes.charAt errhd 22 ≠ Bytes.nul then append errhd (Bytes.lit "; ") else some errhd

def noMatchText (errhd : Bytes) : Option Bytes :=
  if !c.noLocalMatches then some errhd
  else if c.rejectCount ≠ 1 then
    strlcat errhd (Bytes.lit "no recipient addresses matched declared local names") errhdSize
  else
    match c.recipients.find? fun r => r.mark = .reject with
    | some idp => append errhd
        (Bytes.lit "recipient address " ++ idp.id ++ Bytes.lit " didn't match any local name")
    | none => none

def nulsText (errhd : Bytes) : Option Bytes :=
  if c.hasNuls then do
    let errhd ← semicolon errhd
    append errhd (Bytes.lit "message has embedded NULs")
  else some errhd

/-- The bytes reserved for the recipients that were rejected. -/
def badLength (rs : List Recipient) : Nat :=
  ((rs.filter fun r => r.mark = .rcptbad).map fun r => r.id.length + 2).sum

/-- `if (idp->next) strcat(errmsg, ", ")` -/
def comma (rest : List Recipient) (errmsg : Bytes) : Option Bytes :=
  if rest.isEmpty then some errmsg else strcat errmsg (Bytes.lit ", ")

/-- The loop that puts these recipients behind the text. -/
def addBad : List Recipient → (errmsg : Bytes) → Option Bytes
  | [], errmsg => some errmsg
  | idp :: rest, errmsg =>
    if idp.mark = .rcptbad then do
      let errmsg ← strcat errmsg idp.id
      let errmsg ← comma rest errmsg
      addBad rest errmsg
    else addBad rest errmsg

/-- The text goes on in a block of its own, if the listener rejected recipients. -/
def badText (xmalloc : (size : Nat) → Block size) (errhd : Bytes) : Option Bytes :=
  if c.badAddresses then do
    let errhd ← semicolon errhd
    let errhd ← append errhd (Bytes.lit "SMTP listener rejected local recipient addresses: ")
    let errlen := strlen errhd + badLength c.recipients
    let errmsg ← strcpy (xmalloc (errlen + 3)).val (Bytes.cstr errhd)
    addBad c.recipients errmsg
  else some errhd

/-- The line handed to `stuffline`; nothing if a byte would be written outside the array and
the block. The array holds anything before. -/
def errorLine (stack : Block errhdSize) (xmalloc : (size : Nat) → Block size) : Option Bytes := do
  let errhd ← strlcpy stack.val (Bytes.lit "X-Fetchmail-Warning: ") errhdSize
  let errhd ← noMatchText c errhd
  let errhd ← nulsText c errhd
  let errmsg ← badText c xmalloc errhd
  strcat errmsg Bytes.crlf

/-- All that is written for the warning lies inside. -/
def WarningInBounds (stack : Block errhdSize) (xmalloc : (size : Nat) → Block size) : Prop :=
  c.noLocalMatches || c.hasNuls || c.badAddresses → (errorLine c stack xmalloc).isSome

/-- The text is not cut short in the array: it goes on in the block, or it is one of the short
ones, or the address of the only recipient that did not match leaves room for the rest. -/
def WarningFits : Prop :=
  c.badAddresses = true ∨ c.noLocalMatches = false ∨ c.rejectCount ≠ 1 ∨
    ∀ r ∈ c.recipients, r.mark = .reject → r.id.length + (if c.hasNuls then 27 else 0) ≤ 570

end

/-! ## The texts -/

theorem holds_append {errhd text m : Bytes} (h : Holds errhdSize errhd text)
    (hm : Bytes.nul ∉ m) :
    ∃ mem, append errhd m = some mem ∧ Holds errhdSize mem ((text ++ m).take 639) :=
  h.snprintf hm

/-- The semicolon may be there or not as long as there is no text; whatever the array held
before decides. -/
theorem holds_semicolon {errhd text : Bytes} (h : Holds errhdSize errhd text) :
    ∃ mem text', semicolon errhd = some mem ∧ Holds errhdSize mem text' ∧
      text'.length ≤ text.length + 2 ∧
      (22 < text.length → text'.length = min 639 (text.length + 2)) := by
  unfold semicolon
  have hlt := h.lt
  -- `errmsg[22]` is looked at even if the text is shorter
  split
  · obtain ⟨mem, hmem, hholds⟩ := holds_append h (m := Bytes.lit "; ") (by decide)
    have hlen : (Bytes.lit "; ").length = 2 := rfl
    refine ⟨mem, _, hmem, hholds, ?_, ?_⟩
    · rw [List.length_take, List.length_append, hlen]
      exact Nat.min_le_right _ _
    · intro _
      rw [List.length_take, List.length_append, hlen]
  · next hnul =>
    refine ⟨errhd, text, rfl, h, Nat.le_add_right _ _, ?_⟩
    intro hlong
    exact absurd (h.charAt hlong) hnul

theorem holds_nulsText (c : Complaint) {errhd text : Bytes} (h : Holds errhdSize errhd text) :
    ∃ mem text', nulsText c errhd = some mem ∧ Holds errhdSize mem text' ∧
      text'.length ≤ text.length + 27 ∧
      (22 < text.length →
        text'.length = min 639 (text.length + if c.hasNuls then 27 else 0)) := by
  unfold nulsText
  cases c.hasNuls with
  | false =>
    have hlt : text.length ≤ 639 := Nat.le_of_lt_succ h.lt
    refine ⟨errhd, text, rfl, h, Nat.le_add_right _ _, ?_⟩
    intro _
    exact (Nat.min_eq_right hlt).symm
  | true =>
    obtain ⟨mem, joined, hjoin, hholds, hle, hlong⟩ := holds_semicolon h
    obtain ⟨mem', happend, hholds'⟩ :=
      holds_append hholds (m := Bytes.lit "message has embedded NULs") (by decide)
    have hlen : (Bytes.lit "message has embedded NULs").length = 25 := rfl
    refine ⟨mem', _, ?_, hholds', ?_, ?_⟩
    · simp only [if_true, hjoin, Option.bind_eq_bind, Option.bind_some]
      exact happend
    · rw [List.length_take, List.length_append, hlen]
      omega
    -- the semicolon is there, and takes two of the 27 bytes
    · intro h22
      have hjoined := hlong h22
      rw [List.length_take, List.length_append, hlen, if_pos rfl]
      omega

/-- The only recipient that did not match. -/
theorem find_rejected {c : Complaint} (h : c.rejectCount = 1) :
    ∃ idp ∈ c.recipients, (c.recipients.find? fun r => r.mark = .reject) = some idp ∧
      ∀ n, (∀ r ∈ c.recipients, r.mark = .reject → r.id.length + n ≤ 570) ↔
        idp.id.length + n ≤ 570 := by
  unfold Complaint.rejectCount at h
  rw [List.countP_eq_length_filter] at h
  obtain ⟨idp, hfilter⟩ := List.length_eq_one_iff.mp h
  -- the filtered list has a single element
  have hmem : ∀ r, r ∈ c.recipients ∧ r.mark = .reject ↔ r = idp := by
    intro r
    have hiff := @List.mem_filter _ (fun r : Recipient => decide (r.mark = .reject)) c.recipients r
    rw [hfilter, List.mem_singleton, decide_eq_true_eq] at hiff
    exact hiff.symm
  refine ⟨idp, ((hmem idp).mpr rfl).1, ?_, ?_⟩
  · rw [← List.head?_filter, hfilter]
    rfl
  · intro n
    constructor
    · exact fun hall => hall idp ((hmem idp).mpr rfl).1 ((hmem idp).mpr rfl).2
    · intro hidp r hr hmark
      rwa [(hmem r).mp ⟨hr, hmark⟩]

theorem holds_noMatchText (c : Complaint) {errhd : Bytes}
    (h : Holds errhdSize errhd (Bytes.lit "X-Fetchmail-Warning: ")) :
    ∃ mem text, noMatchText c errhd = some mem ∧ Holds errhdSize mem text ∧
      (c.noLocalMatches = false ∨ c.rejectCount ≠ 1 → text.length ≤ 73) ∧
      (c.noLocalMatches = true → c.rejectCount = 1 → ∀ n,
        (text.length = 639 ∨ text.length + n > 637 ↔
          ¬ ∀ r ∈ c.recipients, r.mark = .reject → r.id.length + n ≤ 570) ∧
        22 < text.length) := by
  have hname : (Bytes.lit "X-Fetchmail-Warning: ").length = 21 := rfl
  unfold noMatchText
  cases hlocal : c.noLocalMatches with
  | false =>
    refine ⟨errhd, _, rfl, h, fun _ => by rw [hname]; decide, ?_⟩
    intro hnot
    cases hnot
  | true =>
    -- one address is named, several are not
    by_cases hcount : c.rejectCount = 1
    · obtain ⟨idp, hidp, hfind, hall⟩ := find_rejected hcount
      have hplain : Bytes.nul ∉ Bytes.lit "recipient address " ++ idp.id ++
          Bytes.lit " didn't match any local name" := by
        simp only [List.mem_append, not_or]
        exact ⟨⟨by decide, c.strings idp hidp⟩, by decide⟩
      obtain ⟨mem, hmem, hholds⟩ := holds_append h hplain
      have hlen : ((Bytes.lit "X-Fetchmail-Warning: " ++
          (Bytes.lit "recipient address " ++ idp.id ++
            Bytes.lit " didn't match any local name")).take 639).length =
          min 639 (67 + idp.id.length) := by
        have h₁ : (Bytes.lit "recipient address ").length = 18 := rfl
        have h₂ : (Bytes.lit " didn't match any local name").length = 28 := rfl
        simp only [List.length_take, List.length_append, hname, h₁, h₂]
        omega
      refine ⟨mem, _, ?_, hholds, ?_, ?_⟩
      · simpa [hcount, hfind] using hmem
      · rintro (hnot | hnot)
        · cases hnot
        · exact absurd hcount hnot
      · intro _ _ n
        rw [hall n, hlen]
        omega
    · obtain ⟨mem, hmem, hholds⟩ := h.strlcat
        (m := Bytes.lit "no recipient addresses matched declared local names") (by decide)
      refine ⟨mem, _, by simpa [hcount] using hmem, hholds, ?_, ?_⟩
      · intro _
        rw [List.length_take]
        exact Nat.le_trans (Nat.min_le_right _ _) (by decide)
      · exact fun _ heq => absurd heq hcount

/-! ## The block -/

theorem badLength_cons (idp : Recipient) (rest : List Recipient) :
    badLength (idp :: rest) =
      (if idp.mark = .rcptbad then idp.id.length + 2 else 0) + badLength rest := by
  unfold badLength
  by_cases hmark : idp.mark = .rcptbad
  · simp [hmark]
  · simp [hmark]

/-- Each recipient takes no more than was reserved for it. -/
theorem holds_addBad {size : Nat} {rs : List Recipient} (hrs : ∀ r ∈ rs, Bytes.nul ∉ r.id)
    {errmsg text : Bytes} (h : Holds size errmsg text)
    (hroom : text.length + badLength rs < size) :
    ∃ mem text', addBad rs errmsg = some mem ∧ Holds size mem text' ∧
      text'.length ≤ text.length + badLength rs := by
  -- each recipient takes its share of `badLength`
  induction rs generalizing errmsg text with
  | nil => exact ⟨errmsg, text, rfl, h, Nat.le_add_right _ _⟩
  | cons idp rest ih =>
    have hrest : ∀ r ∈ rest, Bytes.nul ∉ r.id := fun r hr => hrs r (List.mem_cons_of_mem _ hr)
    rw [badLength_cons] at hroom ⊢
    unfold addBad
    by_cases hmark : idp.mark = .rcptbad
    · simp only [if_pos hmark] at hroom ⊢
      obtain ⟨mem, hcat, hholds⟩ := h.strcat (hrs idp (List.mem_cons_self ..)) (by omega)
      have hsep : ∃ mem' sep, comma rest mem = some mem' ∧
          Holds size mem' (text ++ idp.id ++ sep) ∧ sep.length ≤ 2 := by
        unfold comma
        split
        · exact ⟨mem, [], rfl, by rwa [List.append_nil], Nat.zero_le _⟩
        · have hlen : (Bytes.lit ", ").length = 2 := rfl
          obtain ⟨mem', hcat', hholds'⟩ := hholds.strcat (m := Bytes.lit ", ") (by decide) (by
            rw [List.length_append, hlen]
            omega)
          exact ⟨mem', _, hcat', hholds', Nat.le_of_eq hlen⟩
      obtain ⟨mem', sep, hcat', hholds', hlen⟩ := hsep
      obtain ⟨mem'', text', hloop, hholds'', hle⟩ := ih hrest hholds' (by
        rw [List.length_append, List.length_append]
        omega)
      refine ⟨mem'', text', ?_, hholds'', ?_⟩
      · simp only [hcat, hcat', Option.bind_eq_bind, Option.bind_some]
        exact hloop
      · rw [List.length_append, List.length_append] at hle
        omega
    · simp only [if_neg hmark, Nat.zero_add] at hroom ⊢
      exact ih hrest h hroom

/-- In the block there is room for the line end. -/
theorem badText_roomy {c : Complaint} (hbad : c.badAddresses = true)
    (xmalloc : (size : Nat) → Block size) {errhd text : Bytes} (h : Holds errhdSize errhd text) :
    ∃ mem, badText c xmalloc errhd = some mem ∧ (strcat mem Bytes.crlf).isSome := by
  obtain ⟨mem, joined, hjoin, hholds, -, -⟩ := holds_semicolon h
  obtain ⟨mem', happend, hholds'⟩ := holds_append hholds
    (m := Bytes.lit "SMTP listener rejected local recipient addresses: ") (by decide)
  generalize (joined ++ Bytes.lit "SMTP listener rejected local recipient addresses: ").take 639 =
    text' at hholds'
  -- `strcpy` takes the text up to its zero byte
  have hcstr : Bytes.cstr mem' = text' := by
    obtain ⟨rest, rfl⟩ := hholds'.starts
    have hpos : ∀ b ∈ text', decide (b ≠ Bytes.nul) = true := fun b hb =>
      decide_eq_true fun heq => hholds'.plain (heq ▸ hb)
    rw [Bytes.cstr, List.append_assoc, List.takeWhile_append_of_pos hpos]
    simp
  obtain ⟨errmsg, hcpy, hcopied⟩ := strcpy_holds
    (xmalloc (strlen mem' + badLength c.recipients + 3)).property hholds'.plain (by
      rw [hholds'.strlen]
      omega)
  obtain ⟨errmsg', text'', hloop, hlooped, hle⟩ := holds_addBad c.strings hcopied (by
    rw [hholds'.strlen]
    omega)
  refine ⟨errmsg', ?_, ?_⟩
  · simp only [badText, hbad, if_true, hjoin, happend, Option.bind_eq_bind, Option.bind_some, hcstr,
      hcpy]
    exact hloop
  · rw [hlooped.strcat_isSome, hholds'.strlen]
    have hlen : Bytes.crlf.length = 2 := rfl
    omega

/-- The warning is written inside the array and the block exactly if the text with an address
is not too long for the array. -/
theorem warning_in_bounds_iff (c : Complaint) (stack : Block errhdSize)
    (xmalloc : (size : Nat) → Block size) :
    WarningInBounds c stack xmalloc ↔ WarningFits c := by
  obtain ⟨mem₀, hcpy, hholds₀⟩ := strlcpy_holds stack.property
    (m := Bytes.lit "X-Fetchmail-Warning: ") (by decide) (by decide)
  obtain ⟨mem₁, text₁, hmatch, hholds₁, hshort, hlong⟩ := holds_noMatchText c hholds₀
  obtain ⟨mem₂, text₂, hnuls, hholds₂, hle, hlen⟩ := holds_nulsText c hholds₁
  have hline : errorLine c stack xmalloc =
      (badText c xmalloc mem₂).bind fun mem => strcat mem Bytes.crlf := by
    simp only [errorLine, hcpy, hmatch, hnuls, Option.bind_eq_bind, Option.bind_some]
  unfold WarningInBounds WarningFits
  rw [hline]
  cases hbad : c.badAddresses with
  -- the text goes on in the block
  | true =>
    obtain ⟨mem, htext, hroom⟩ := badText_roomy hbad xmalloc hholds₂
    rw [htext]
    exact iff_of_true (fun _ => hroom) (.inl rfl)
  -- the text stays in the array, and the line end is put behind it
  | false =>
    have htext : badText c xmalloc mem₂ = some mem₂ := by
      rw [badText, hbad]
      rfl
    have hcrlf : Bytes.crlf.length = 2 := rfl
    rw [htext, Option.bind_some, hholds₂.strcat_isSome, hcrlf, errhdSize]
    by_cases hone : c.noLocalMatches = true ∧ c.rejectCount = 1
    · -- the text with the address
      obtain ⟨hlocal, hcount⟩ := hone
      obtain ⟨hfit, h22⟩ := hlong hlocal hcount (if c.hasNuls then 27 else 0)
      have hlen := hlen h22
      have hlt : text₁.length < 640 := hholds₁.lt
      simp only [hlocal, hcount, Bool.true_or, true_imp_iff, Bool.false_eq_true, false_or,
        ne_eq, not_true_eq_false, reduceCtorEq]
      rw [← not_iff_not, ← hfit, hlen]
      split <;> omega
    -- any other text is short
    · have hshort : text₁.length ≤ 73 := by
        apply hshort
        cases hlocal : c.noLocalMatches with
        | false => exact .inl rfl
        | true => exact .inr fun hcount => hone ⟨hlocal, hcount⟩
      refine iff_of_true (fun _ => by omega) (.inr ?_)
      cases hlocal : c.noLocalMatches with
      | false => exact .inl rfl
      | true => exact .inr (.inl fun hcount => hone ⟨hlocal, hcount⟩)

/-- An address of 571 bytes is the only one, and it does not match: with the line end there is one
byte too many, which is written behind the array. -/
def longRejected : Complaint where
  noLocalMatches := true
  hasNuls := false
  badAddresses := false
  recipients := [⟨List.replicate 571 97, .reject⟩, ⟨Bytes.lit "root", .accept⟩]
  strings := by decide +kernel

theorem warning_overflows :
    ¬ WarningInBounds longRejected ⟨List.replicate errhdSize 0, by decide +kernel⟩
      (fun size => ⟨List.replicate size 0, List.length_replicate ..⟩) := by
  unfold WarningInBounds
  decide +kernel

end Fetchmail.Transact
