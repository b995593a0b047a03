import Fetchmail.Lib.Decimal
import Fetchmail.Pop3.Session

/-!
# The Lines of a UID List

What `parseuid` takes for a line of a UID list, against what the protocol has there: a message
number, white space and a UID. `strtoul` takes a sign as well, and a UID need not follow.
-/

namespace Fetchmail.Pop3

open Fetchmail.Lib

/-- `parseuid` with a buffer of `idsize` bytes for the UID. -/
def parseuidInto (idsize : Nat) (buf : Bytes) : Option (Nat × Bytes) :=
  match Bytes.strtoul (buf.dropWhile Bytes.isspace) with
  | .number n (b :: rest) =>
    if Bytes.isspace b then
      some (n, trim (((b :: rest).dropWhile Bytes.isspace).take (idsize - 1)))
    else none
  | _ => none

/-- A line that begins with white space, a sign, digits and white space, and what follows then. -/
structure NumberedLine (line sign digits tail : Bytes) : Prop where
  /-- the parts of the line -/
  split : ∃ ws gap, line = ws ++ (sign ++ (digits ++ (gap ++ tail))) ∧
    (∀ b ∈ ws, Bytes.isspace b = true) ∧ gap ≠ [] ∧ ∀ b ∈ gap, Bytes.isspace b = true
  digits_ne_nil : digits ≠ []
  isdigit : ∀ b ∈ digits, Bytes.isdigit b = true
  /-- the number is an `unsigned long` -/
  range : Bytes.digitsVal 0 digits < 2 ^ 64
  /-- all of the white space is counted -/
  tail_head : ∀ b ∈ tail.head?, Bytes.isspace b = false

/-- A line of a UID list: a number, white space and a UID that ends at white space. -/
def UidLine (line : Bytes) (n : Nat) (id : Bytes) : Prop :=
  id ≠ [] ∧ (∀ b ∈ id, Bytes.isspace b = false) ∧
    ∃ digits rest, NumberedLine line [] digits (id ++ rest) ∧ n = Bytes.digitsVal 0 digits ∧
      ∀ b ∈ rest.head?, Bytes.isspace b = true

/-- What is asked of `parseuid`: it takes the lines of a UID list and no others, and returns the
number and as much of the UID as the buffer has room for. -/
def ParsesUid (idsize : Nat) (line : Bytes) : Prop :=
  ((parseuidInto idsize line).isSome ↔ ∃ n id, UidLine line n id) ∧
    ∀ r, parseuidInto idsize line = some r →
      (∃ id, UidLine line r.1 id ∧ r.2 = id.take (idsize - 1)) ∧ r.2 ≠ []

/-- A plus or a minus stands before the number. -/
def SignedNumber (line : Bytes) : Prop :=
  ∃ sign ∈ [[43], [45]], ∃ digits tail, NumberedLine line sign digits tail

/-- Nothing but white space follows the number. -/
def NoUid (line : Bytes) : Prop := ∃ digits, NumberedLine line [] digits []

/-- The number that `strtoul` makes of a sign and digits. -/
def signedVal (sign digits : Bytes) : Nat :=
  if sign = [45] then (2 ^ 64 - Bytes.digitsVal 0 digits) % 2 ^ 64 else Bytes.digitsVal 0 digits

/-! ## Signs and white space -/

/-- `takeSign` takes a plus or a minus. -/
theorem takeSign_spec (s : Bytes) :
    ∃ sign ∈ [[], [43], [45]], s = sign ++ (Bytes.takeSign s).2 ∧
      (Bytes.takeSign s).1 = decide (sign = [45]) := by
  unfold Bytes.takeSign
  split
  · exact ⟨[45], by decide, rfl, rfl⟩
  · exact ⟨[43], by decide, rfl, rfl⟩
  · exact ⟨[], by decide, rfl, rfl⟩

/-- Digits begin no sign. -/
theorem takeSign_append {sign digits : Bytes} (hsign : sign ∈ [[], [43], [45]])
    (hne : digits ≠ []) (hdigit : ∀ b ∈ digits, Bytes.isdigit b = true) (rest : Bytes) :
    Bytes.takeSign (sign ++ (digits ++ rest)) = (decide (sign = [45]), digits ++ rest) := by
  obtain ⟨d, ds, rfl⟩ := List.exists_cons_of_ne_nil hne
  simp only [List.mem_cons, List.not_mem_nil, or_false] at hsign
  rcases hsign with rfl | rfl | rfl
  · exact Bytes.takeSign_of_isdigit (hdigit d List.mem_cons_self) _
  · rfl
  · rfl

/-- A number begins with no white space. -/
theorem dropWhile_number {sign digits : Bytes} (hsign : sign ∈ [[], [43], [45]])
    (hne : digits ≠ []) (hdigit : ∀ b ∈ digits, Bytes.isdigit b = true) (rest : Bytes) :
    (sign ++ (digits ++ rest)).dropWhile Bytes.isspace = sign ++ (digits ++ rest) := by
  obtain ⟨d, ds, rfl⟩ := List.exists_cons_of_ne_nil hne
  have hd := Bytes.isspace_of_isdigit (hdigit d List.mem_cons_self)
  simp only [List.mem_cons, List.not_mem_nil, or_false] at hsign
  rcases hsign with rfl | rfl | rfl
  · exact List.dropWhile_cons_of_neg (by simp [hd])
  · exact List.dropWhile_cons_of_neg (by decide)
  · exact List.dropWhile_cons_of_neg (by decide)

/-- `strtoul` reads a sign and all the digits. -/
theorem strtoul_number {sign digits : Bytes} (hsign : sign ∈ [[], [43], [45]])
    (hne : digits ≠ []) (hdigit : ∀ b ∈ digits, Bytes.isdigit b = true)
    (hrange : Bytes.digitsVal 0 digits < 2 ^ 64) {rest : Bytes}
    (hrest : ∀ b ∈ rest.head?, Bytes.isdigit b = false) :
    Bytes.strtoul (sign ++ (digits ++ rest)) = .number (signedVal sign digits) rest := by
  have htake : (digits ++ rest).takeWhile Bytes.isdigit = digits := by
    rw [List.takeWhile_append_of_pos hdigit, Bytes.takeWhile_of_head hrest, List.append_nil]
  have hdrop : (digits ++ rest).dropWhile Bytes.isdigit = rest := by
    rw [List.dropWhile_append_of_pos hdigit, Bytes.dropWhile_of_head hrest]
  unfold Bytes.strtoul
  simp only [dropWhile_number hsign hne hdigit, takeSign_append hsign hne hdigit, htake, hdrop,
    if_neg hne, if_neg (Nat.not_le.mpr hrange), decide_eq_true_eq, signedVal]

/-! ## What is accepted -/

variable {idsize : Nat} {line sign digits tail : Bytes}

/-- White space is no digit. -/
theorem isdigit_of_isspace {b : UInt8} (h : Bytes.isspace b = true) : Bytes.isdigit b = false := by
  cases hdigit : Bytes.isdigit b with
  | false => rfl
  | true => rw [Bytes.isspace_of_isdigit hdigit] at h; exact absurd h (by decide)

theorem NumberedLine.dropWhile (hsign : sign ∈ [[], [43], [45]])
    (h : NumberedLine line sign digits tail) :
    ∃ gap, line.dropWhile Bytes.isspace = sign ++ (digits ++ (gap ++ tail)) ∧ gap ≠ [] ∧
      ∀ b ∈ gap, Bytes.isspace b = true := by
  obtain ⟨ws, gap, rfl, hws, hne, hgap⟩ := h.split
  refine ⟨gap, ?_, hne, hgap⟩
  rw [List.dropWhile_append_of_pos hws, dropWhile_number hsign h.digits_ne_nil h.isdigit]

/-- A line with a number and white space behind it is accepted. -/
theorem NumberedLine.parseuidInto (hsign : sign ∈ [[], [43], [45]])
    (h : NumberedLine line sign digits tail) (idsize : Nat) :
    parseuidInto idsize line = some (signedVal sign digits, trim (tail.take (idsize - 1))) := by
  obtain ⟨gap, hline, hne, hgap⟩ := h.dropWhile hsign
  obtain ⟨b, gap, rfl⟩ := List.exists_cons_of_ne_nil hne
  have hb := hgap b List.mem_cons_self
  have hrest : ∀ c ∈ ((b :: gap) ++ tail).head?, Bytes.isdigit c = false := by
    rintro c hc
    obtain rfl := Option.some.inj hc
    exact isdigit_of_isspace hb
  have htail : (b :: gap ++ tail).dropWhile Bytes.isspace = tail := by
    rw [List.dropWhile_append_of_pos hgap, Bytes.dropWhile_of_head h.tail_head]
  unfold Pop3.parseuidInto
  rw [hline, strtoul_number hsign h.digits_ne_nil h.isdigit h.range hrest]
  rw [List.cons_append] at htail ⊢
  dsimp only
  rw [if_pos hb, htail]

/-- An accepted line has a number and white space behind it. -/
theorem exists_numberedLine {r : Nat × Bytes} (h : parseuidInto idsize line = some r) :
    ∃ sign ∈ [[], [43], [45]], ∃ digits tail, NumberedLine line sign digits tail := by
  obtain ⟨ws, hline, hws⟩ := Bytes.exists_dropWhile Bytes.isspace line
  have hhead := Bytes.head_dropWhile Bytes.isspace line
  unfold parseuidInto Bytes.strtoul at h
  simp only [Bytes.dropWhile_of_head hhead] at h
  obtain ⟨sign, hsign, hs, -⟩ := takeSign_spec (line.dropWhile Bytes.isspace)
  generalize Bytes.takeSign (line.dropWhile Bytes.isspace) = signed at hs h
  obtain ⟨neg, s⟩ := signed
  dsimp only at hs h
  split at h
  · next n b rest hnumber =>
    split at h
    · next hb =>
      split at hnumber
      · cases hnumber
      next hne =>
      split at hnumber
      · cases hnumber
      next hrange =>
      obtain ⟨gap, hgap, hspace⟩ := Bytes.exists_dropWhile Bytes.isspace (b :: rest)
      -- the character behind the number is white space, so that the gap is not empty
      have hgapne : gap ≠ [] := by
        rintro rfl
        have hskip := Bytes.head_dropWhile Bytes.isspace (b :: rest) b
        rw [List.nil_append] at hgap
        rw [← hgap] at hskip
        exact absurd hb (by simp [hskip rfl])
      have hrest : s.dropWhile Bytes.isdigit = b :: rest := (Bytes.Strtoul.number.inj hnumber).2
      refine ⟨sign, hsign, s.takeWhile Bytes.isdigit, (b :: rest).dropWhile Bytes.isspace,
        ⟨ws, gap, ?_, hws, hgapne, hspace⟩, hne, fun _ hd => List.mem_takeWhile_imp hd,
        Nat.not_le.mp hrange, Bytes.head_dropWhile _ _⟩
      calc line = ws ++ (sign ++ s) := by rw [← hs]; exact hline
        _ = ws ++ (sign ++ (s.takeWhile Bytes.isdigit ++ (b :: rest))) := by
          rw [← hrest, List.takeWhile_append_dropWhile]
        _ = _ := by rw [← hgap]
    · cases h
  · cases h

/-- A line whose number has a sign has none without. -/
theorem NumberedLine.unsigned {digits' tail' : Bytes} (hsign : sign ∈ [[43], [45]])
    (h : NumberedLine line sign digits tail) : ¬ NumberedLine line [] digits' tail' := by
  intro h'
  obtain ⟨gap, hline, -, -⟩ := h.dropWhile (List.mem_cons_of_mem _ hsign)
  obtain ⟨gap', hline', -, -⟩ := h'.dropWhile List.mem_cons_self
  obtain ⟨d, ds, rfl⟩ := List.exists_cons_of_ne_nil h'.digits_ne_nil
  have hd := h'.isdigit d List.mem_cons_self
  rw [hline'] at hline
  simp only [List.mem_cons, List.not_mem_nil, or_false] at hsign
  rcases hsign with rfl | rfl
  · obtain rfl : d = 43 := (List.cons.inj hline).1
    exact absurd hd (by decide)
  · obtain rfl : d = 45 := (List.cons.inj hline).1
    exact absurd hd (by decide)

/-- The UID is what follows the white space, up to the next. -/
theorem NumberedLine.uidLine (h : NumberedLine line [] digits tail) (hne : tail ≠ []) :
    UidLine line (Bytes.digitsVal 0 digits) (trim tail) := by
  have htail : trim tail ++ tail.dropWhile (fun b => !Bytes.isspace b) = tail :=
    List.takeWhile_append_dropWhile
  refine ⟨?_, fun b hb => by simpa using List.mem_takeWhile_imp hb, digits,
    tail.dropWhile fun b => !Bytes.isspace b, htail.symm ▸ h, rfl, fun b hb => ?_⟩
  · obtain ⟨b, tail, rfl⟩ := List.exists_cons_of_ne_nil hne
    rw [trim, List.takeWhile_cons_of_pos (by simp [h.tail_head b rfl])]
    exact List.cons_ne_nil _ _
  · simpa using Bytes.head_dropWhile (fun b => !Bytes.isspace b) tail b hb

/-- To cut before the white space or behind it is the same. -/
theorem trim_take (n : Nat) (s : Bytes) : trim (s.take n) = (trim s).take n := by
  induction s generalizing n with
  | nil => simp [trim]
  | cons b s ih =>
    cases n with
    | zero => rfl
    | succ n =>
      cases hb : Bytes.isspace b with
      | true => simp [trim, hb]
      | false =>
        have hnext := ih n
        unfold trim at hnext ⊢
        simp [hb, hnext]

/-- **`parseuid` takes the lines of a UID list and no others just where the number has no sign and
a UID follows it.** -/
theorem parsesUid_exact (idsize : Nat) (hsize : 2 ≤ idsize) (line : Bytes) :
    ParsesUid idsize line ↔ ¬ SignedNumber line ∧ ¬ NoUid line := by
  constructor
  -- a sign is no digit, and the UID of a line without one would be empty
  · rintro ⟨haccepts, hreturns⟩
    constructor
    · rintro ⟨sign, hsign, digits, tail, hline⟩
      have hparse := hline.parseuidInto (List.mem_cons_of_mem _ hsign) idsize
      obtain ⟨n, id, -, -, digits', rest, hline', -⟩ := haccepts.mp (by rw [hparse]; rfl)
      exact hline.unsigned hsign hline'
    · rintro ⟨digits, hline⟩
      obtain ⟨-, hne⟩ := hreturns _ (hline.parseuidInto List.mem_cons_self idsize)
      exact hne (by simp [trim])
  · rintro ⟨hsigned, hnone⟩
    have hunsigned : ∀ r, parseuidInto idsize line = some r →
        ∃ digits tail, NumberedLine line [] digits tail ∧ tail ≠ [] := by
      intro r hr
      obtain ⟨sign, hsign, digits, tail, hline⟩ := exists_numberedLine hr
      rcases List.mem_cons.mp hsign with rfl | hsign
      · exact ⟨digits, tail, hline, fun hnil => hnone ⟨digits, hnil ▸ hline⟩⟩
      · exact absurd ⟨sign, hsign, digits, tail, hline⟩ hsigned
    refine ⟨⟨fun hsome => ?_, ?_⟩, fun r hr => ?_⟩
    · obtain ⟨r, hr⟩ := Option.isSome_iff_exists.mp hsome
      obtain ⟨digits, tail, hline, hne⟩ := hunsigned r hr
      exact ⟨_, _, hline.uidLine hne⟩
    · rintro ⟨n, id, -, -, digits, rest, hline, -⟩
      rw [hline.parseuidInto List.mem_cons_self idsize]
      rfl
    · obtain ⟨digits, tail, hline, hne⟩ := hunsigned r hr
      have huid := hline.uidLine hne
      rw [hline.parseuidInto List.mem_cons_self idsize] at hr
      obtain rfl := Option.some.inj hr
      rw [trim_take]
      refine ⟨⟨_, huid, rfl⟩, fun hnil => ?_⟩
      rcases List.take_eq_nil_iff.mp hnil with hzero | hempty
      · omega
      · exact huid.1 hempty

/-- The line `"5 "` has no UID. -/
theorem parsesUid_exact_five :
    ParsesUid (idLen + 1) (Bytes.lit "5 ") ↔
      ¬ SignedNumber (Bytes.lit "5 ") ∧ ¬ NoUid (Bytes.lit "5 ") :=
  parsesUid_exact (idLen + 1) (by decide) _

/-- `parseuid` takes it all the same, and returns an empty UID. -/
theorem parseuid_five : ¬ ParsesUid (idLen + 1) (Bytes.lit "5 ") := by
  rintro ⟨-, hreturns⟩
  exact (hreturns (5, []) (by decide +kernel)).2 rfl

end Fetchmail.Pop3
