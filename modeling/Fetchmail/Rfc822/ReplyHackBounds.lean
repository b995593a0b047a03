import Fetchmail.Rfc822.ReplyHack
import Mathlib.Data.List.TakeWhile

/-!
# The Buffer of `reply_hack`

The buffer is made larger by what one insertion takes for each comma and each blank, and one
more. Something is put in only while no host part has been seen, and putting it in counts as
one; only behind a comma is that taken back. So there is at most one insertion more than there
are commas, whatever the header looks like.
-/

namespace Fetchmail.Rfc822

open Fetchmail.Lib

section

variable {host : Bytes} {capacity : Nat} {b : UInt8} {s : Bytes} {v v' : HackVars}

/-! ## Walking back -/

/-- Something in the text stops the walk. -/
def Anchored (text : Bytes) : Prop := ∃ b ∈ text, Bytes.isspace b = false ∧ b ≠ comma

theorem Anchored.append {text : Bytes} (h : Anchored text) (more : Bytes) :
    Anchored (text ++ more) := by
  obtain ⟨b, hb, hstop⟩ := h
  exact ⟨b, List.mem_append_left _ hb, hstop⟩

theorem Anchored.take_append {text : Bytes} {n : Nat} (h : Anchored (text.take n)) (more : Bytes) :
    Anchored ((text ++ more).take n) := by
  rw [List.take_append]
  exact h.append _

theorem walkBack_isSome {text : Bytes} (h : Anchored text) :
    ∃ place, walkBack text = some place := by
  obtain ⟨b, hb, hspace, hcomma⟩ := h
  unfold walkBack
  -- nothing is left only if all of it is blanks and commas
  cases hdrop : text.reverse.dropWhile fun b => Bytes.isspace b || b = comma with
  | nil =>
    have hall := List.dropWhile_eq_nil_iff.mp hdrop b (List.mem_reverse.mpr hb)
    simp [hspace, hcomma] at hall
  | cons c t => exact ⟨_, rfl⟩

/-! ## The count of insertions -/

/-- The comma before `from`, if there is one there. -/
def lastComma (before : Bytes) : Nat := if before.getLast? = some comma then 1 else 0

/-- An insertion that has been made, and one that can be made. -/
def due (v : HackVars) : Nat := v.insertions + if v.hasHostPart then 0 else 1

/-- What the loop keeps: with `rest` still to scan, and `total` commas and `size` bytes in the
header. -/
structure HackInv (host : Bytes) (total size : Nat) (rest : Bytes) (v : HackVars) : Prop where
  due_le : due v + lastComma v.before + rest.count comma ≤ 1 + total
  length_eq : v.before.length + rest.length = size + v.insertions * (host.length + 1)
  colon : v.state ≠ .beforeColon → Anchored v.before
  parens : ∀ place, v.parensFrom = some place → v.hasHostPart = false →
    Anchored (v.before.take (place + 1))

/-- The `switch`: room is left for the insertions that are still due. -/
structure Roomy (host : Bytes) (capacity total size : Nat) : Prop where
  host_plain : comma ∉ host
  room : ∀ n, n ≤ 1 + total → size + n * (host.length + 1) < capacity

variable {total size : Nat}

theorem lastComma_putHost (hhost : comma ∉ host) (before : Bytes) (place : Nat) :
    lastComma (before.take place ++ atSign :: host ++ before.drop place) ≤ lastComma before := by
  unfold lastComma
  cases hdrop : before.drop place with
  | nil =>
    -- the last byte is one of what was put in
    have hne : (before.take place ++ atSign :: host ++ []).getLast? ≠ some comma := by
      rw [List.append_nil, List.getLast?_append_of_ne_nil _ (List.cons_ne_nil _ _)]
      intro hlast
      rcases List.mem_cons.mp (List.mem_of_getLast? hlast) with hat | hmem
      · exact absurd hat (by decide)
      · exact hhost hmem
    rw [if_neg hne]
    exact Nat.zero_le _
  -- the last byte stays where it is
  | cons c t =>
    have hsame : (before.take place ++ atSign :: host ++ c :: t).getLast? = before.getLast? := by
      rw [List.getLast?_append_of_ne_nil _ (List.cons_ne_nil _ _), ← hdrop]
      conv_rhs => rw [← List.take_append_drop place before]
      rw [List.getLast?_append_of_ne_nil]
      rw [hdrop]
      exact List.cons_ne_nil _ _
    exact Nat.le_of_eq (by rw [hsame])

/-- One insertion. -/
theorem putHost_inv (hroomy : Roomy host capacity total size)
    (h : HackInv host total size (b :: s) v) (hfree : v.hasHostPart = false) (place : Nat)
    (hcolon : v.state ≠ .beforeColon) :
    ∃ v', putHost host capacity place (b :: s) v = some v' ∧
      HackInv host total size (b :: s) v' := by
  have hdue := h.due_le
  have hlength := h.length_eq
  simp only [due, hfree, Bool.false_eq_true, if_false] at hdue
  -- an insertion is due, so there is room for it
  have hroom := hroomy.room (v.insertions + 1) (by omega)
  rw [Nat.succ_mul] at hroom
  have hfit : v.before.length + (b :: s).length + host.length + 1 < capacity := by omega
  refine ⟨_, if_pos hfit, ?_, ?_, fun _ => ?_, ?_⟩
  -- the insertion is made, and none is due until a comma is passed
  · have hlast := lastComma_putHost hroomy.host_plain v.before place
    simp only [due, if_true]
    omega
  · simp only [List.length_append, List.length_cons, List.length_take, List.length_drop,
      Nat.succ_mul] at hlength ⊢
    omega
  · -- nothing is taken out
    obtain ⟨c, hc, hstop⟩ := h.colon hcolon
    refine ⟨c, ?_, hstop⟩
    rw [← List.take_append_drop place v.before] at hc
    simp only [List.mem_append, List.mem_cons] at hc ⊢
    tauto
  · intro place' _ hhas
    cases hhas

/-- Something changes that is not counted. -/
theorem HackInv.of_same (h : HackInv host total size (b :: s) v) (hfree : v.hasHostPart = false)
    (hcolon : v.state ≠ .beforeColon) (hbefore : v'.before = v.before)
    (hinsertions : v'.insertions = v.insertions)
    (hparens : ∀ place, v'.parensFrom = some place → v'.hasHostPart = false →
      Anchored (v'.before.take (place + 1))) : HackInv host total size (b :: s) v' := by
  have hdue := h.due_le
  simp only [due, hfree, Bool.false_eq_true, if_false] at hdue
  refine ⟨?_, by rw [hbefore, hinsertions, h.length_eq], fun _ => hbefore ▸ h.colon hcolon, hparens⟩
  rw [hbefore]
  simp only [due, hinsertions]
  split <;> omega

theorem noteNws_inv (h : HackInv host total size (b :: s) v) :
    HackInv host total size (b :: s) (noteNws b v) ∧ (noteNws b v).state = v.state ∧
      (noteNws b v).hasHostPart = v.hasHostPart := by
  unfold noteNws
  split
  · exact ⟨h, rfl, rfl⟩
  · exact ⟨⟨h.due_le, h.length_eq, h.colon, h.parens⟩, rfl, rfl⟩

theorem seekCase_inv (hroomy : Roomy host capacity total size)
    (h : HackInv host total size (b :: s) v) (hfree : v.hasHostPart = false)
    (hcolon : v.state ≠ .beforeColon) :
    ∃ v', seekCase host capacity b s v = some v' ∧ HackInv host total size (b :: s) v' := by
  have hanchor := h.colon hcolon
  unfold seekCase
  split
  · exact ⟨_, rfl, h.of_same hfree hcolon rfl rfl h.parens⟩
  split
  · exact ⟨_, rfl, h.of_same hfree hcolon rfl rfl fun _ _ hh => by cases hh⟩
  split
  · exact ⟨_, rfl, h.of_same hfree hcolon rfl rfl h.parens⟩
  split
  · -- the walk ends in the buffer
    have hwalk : ∃ place, walkBack (addressText v) = some place := by
      unfold addressText
      cases hp : v.parensFrom with
      | none => exact walkBack_isSome hanchor
      | some place => exact walkBack_isSome (h.parens place hp hfree)
    obtain ⟨place, hplace⟩ := hwalk
    rw [hplace, Option.bind_some]
    exact putHost_inv hroomy h hfree place hcolon
  split
  -- the place before a comment is noted, with all of the text before it
  · refine ⟨_, rfl, h.of_same hfree hcolon rfl rfl ?_⟩
    intro place hp _
    have hplace : v.before.length = place := Option.some.inj hp
    rw [← hplace, List.take_of_length_le (Nat.le_succ _)]
    exact hanchor
  split
  · exact ⟨_, rfl, h⟩
  · exact ⟨_, rfl, h.of_same hfree hcolon rfl rfl h.parens⟩

theorem bracketsStep_inv (hroomy : Roomy host capacity total size)
    (h : HackInv host total size (b :: s) v) (hfree : v.hasHostPart = false)
    (hstate : v.state = .inBrackets) :
    ∃ v', bracketsStep host capacity b s v = some v' ∧ HackInv host total size (b :: s) v' := by
  have hcolon : v.state ≠ .beforeColon := by
    rw [hstate]
    decide
  have hdue := h.due_le
  simp only [due, hfree, Bool.false_eq_true, if_false] at hdue
  unfold bracketsStep
  split
  -- a host part is seen, and no insertion is due any more
  · refine ⟨_, rfl, ?_, h.length_eq, h.colon, fun _ _ hh => by cases hh⟩
    simp only [due, if_true]
    omega
  · split
    · simp only [hfree, Bool.false_eq_true, if_false]
      have h' : HackInv host total size (b :: s) { v with state := .seekAddress } :=
        ⟨h.due_le, h.length_eq, fun _ => h.colon hcolon, h.parens⟩
      simpa [hfree] using putHost_inv hroomy h' hfree v.before.length (by simp)
    · exact ⟨v, rfl, h⟩

theorem hackSwitch_inv (hroomy : Roomy host capacity total size)
    (h : HackInv host total size (b :: s) v) (hfree : v.hasHostPart = false) :
    ∃ v', hackSwitch host capacity b s v = some v' ∧
      (HackInv host total size (b :: s) v' ∨
        v.state = .beforeColon ∧ b = colon ∧ v' = { v with state := .seekAddress }) := by
  -- one case for each state; only the colon of the name breaks the invariant
  unfold hackSwitch
  cases hstate : v.state with
  | beforeColon =>
    refine ⟨_, rfl, ?_⟩
    split
    · next hb => exact .inr ⟨rfl, hb, rfl⟩
    · exact .inl h
  | seekAddress =>
    obtain ⟨hnoted, hstate', hfree'⟩ := noteNws_inv h
    have hcolon : (noteNws b v).state ≠ .beforeColon := by
      rw [hstate', hstate]
      decide
    obtain ⟨v', hstep, hinv⟩ := seekCase_inv hroomy hnoted (hfree'.trans hfree) hcolon
    exact ⟨v', hstep, .inl hinv⟩
  | inString =>
    have hcolon : v.state ≠ .beforeColon := by
      rw [hstate]
      decide
    refine ⟨_, rfl, .inl ?_⟩
    unfold stringStep
    split
    · dsimp only
      split
      · exact ⟨h.due_le, h.length_eq, fun _ => h.colon hcolon, h.parens⟩
      · exact h
    · exact h
  | inBrackets =>
    obtain ⟨v', hstep, hinv⟩ := bracketsStep_inv hroomy h hfree hstate
    exact ⟨v', hstep, .inl hinv⟩

/-! ## The loop -/

theorem countParens_same (b : UInt8) (v : HackVars) :
    (countParens b v).before = v.before ∧ (countParens b v).state = v.state ∧
      (countParens b v).hasHostPart = v.hasHostPart ∧
      (countParens b v).insertions = v.insertions ∧
      (countParens b v).parensFrom = v.parensFrom := by
  unfold countParens
  split
  · exact ⟨rfl, rfl, rfl, rfl, rfl⟩
  · split
    · exact ⟨rfl, rfl, rfl, rfl, rfl⟩
    · split <;> exact ⟨rfl, rfl, rfl, rfl, rfl⟩

theorem countParens_inv (h : HackInv host total size (b :: s) v) :
    HackInv host total size (b :: s) (countParens b v) := by
  obtain ⟨hbefore, hstate, hhost, hinsertions, hparens⟩ := countParens_same b v
  constructor
  · have hdue := h.due_le
    unfold due at hdue ⊢
    rwa [hhost, hinsertions, hbefore]
  · rw [hbefore, hinsertions]
    exact h.length_eq
  · rw [hstate, hbefore]
    exact h.colon
  · rw [hparens, hhost, hbefore]
    exact h.parens

/-- Behind a comma the host part may be forgotten: the comma pays for the next insertion. -/
theorem passComma_inv (h : HackInv host total size (b :: s) v) :
    HackInv host total size s
      { passComma v with before := (passComma v).before ++ [b] } := by
  have hdue := h.due_le
  have hlength := h.length_eq
  -- a comma that is read moves from the rest to the text before
  have hcount : lastComma (v.before ++ [b]) + s.count comma = (b :: s).count comma := by
    rw [lastComma, List.getLast?_concat, List.count_cons]
    by_cases hb : b = comma
    · simp [hb, Nat.add_comm]
    · simp [hb]
  rw [List.length_cons] at hlength
  unfold passComma
  split
  · next hcomma =>
    have hlast : lastComma v.before = 1 := if_pos hcomma.1
    refine ⟨?_, ?_, fun hstate => (h.colon hstate).append [b], fun _ hnone => by cases hnone⟩
    · simp only [due, Bool.false_eq_true, if_false]
      unfold due at hdue
      omega
    · rw [List.length_append, List.length_singleton]
      dsimp only
      omega
  · refine ⟨?_, ?_, fun hstate => (h.colon hstate).append [b], ?_⟩
    · unfold due at hdue ⊢
      dsimp only
      omega
    · rw [List.length_append, List.length_singleton]
      dsimp only
      omega
    · exact fun place hp hhost => (h.parens place hp hhost).take_append [b]

/-- **Step.** -/
theorem hackStep_inv (hroomy : Roomy host capacity total size)
    (h : HackInv host total size (b :: s) v) :
    ∃ v', hackStep host capacity b s v = some v' ∧ HackInv host total size s v' := by
  have hcounted := countParens_inv h
  unfold hackStep
  generalize countParens b v = v at hcounted
  dsimp only
  split
  · next hswitch =>
    obtain ⟨v', hstep, hinv | ⟨hstate, rfl, rfl⟩⟩ := hackSwitch_inv hroomy hcounted hswitch.2
    · rw [hstep]
      exact ⟨_, rfl, passComma_inv hinv⟩
    · -- the colon is there to stop the walk from now on
      have hpassed := passComma_inv hcounted
      rw [hstep]
      refine ⟨_, rfl, ?_⟩
      have hsame : (passComma { v with state := .seekAddress }).before = (passComma v).before ∧
          (passComma { v with state := .seekAddress }).hasHostPart = (passComma v).hasHostPart ∧
          (passComma { v with state := .seekAddress }).insertions = (passComma v).insertions ∧
          (passComma { v with state := .seekAddress }).parensFrom = (passComma v).parensFrom := by
        unfold passComma
        split <;> exact ⟨rfl, rfl, rfl, rfl⟩
      obtain ⟨hbefore, hhost, hinsertions, hparens⟩ := hsame
      constructor
      · have hdue := hpassed.due_le
        unfold due at hdue ⊢
        dsimp only at hdue ⊢
        rwa [hbefore, hhost, hinsertions]
      · have hlength := hpassed.length_eq
        dsimp only at hlength ⊢
        rwa [hbefore, hinsertions]
      · intro _
        dsimp only
        exact ⟨colon, List.mem_append_right _ (List.mem_singleton_self _), by decide, by decide⟩
      · have hp := hpassed.parens
        dsimp only at hp ⊢
        rwa [hbefore, hhost, hparens]
  -- in a comment, or behind the host part, the `switch` is not run
  · exact ⟨_, rfl, passComma_inv hcounted⟩

/-- **Run.** -/
theorem hackLoop_inv (hroomy : Roomy host capacity total size)
    (h : HackInv host total size s v) :
    ∃ v', hackLoop host capacity s v = some v' ∧ HackInv host total size [] v' := by
  induction s generalizing v with
  | nil => exact ⟨v, rfl, h⟩
  | cons b s ih =>
    obtain ⟨v₁, hstep, hinv⟩ := hackStep_inv hroomy h
    rw [hackLoop, hstep, Option.bind_some]
    exact ih hinv

end

/-! ## The whole header -/

theorem roomy_header {buf host : Bytes} (hhost : comma ∉ host) :
    Roomy host (hackCapacity buf host) (buf.count comma) buf.length := by
  refine ⟨hhost, fun n hn => ?_⟩
  -- `addresscount` counts the blanks, too
  have hcount : buf.count comma ≤ buf.countP fun b => b = comma || Bytes.isspace b := by
    apply List.countP_mono_left
    intro b _ hb
    simpa using .inl (by simpa using hb)
  have hle : n ≤ addresscount buf := by
    unfold addresscount
    omega
  have hmul := Nat.mul_le_mul_right (host.length + 1) hle
  unfold hackCapacity
  omega

theorem hackStart_inv (buf host : Bytes) :
    HackInv host (buf.count comma) buf.length buf hackStart := by
  refine ⟨?_, ?_, fun h => absurd rfl h, fun _ h => by cases h⟩
  · simp [due, hackStart, lastComma]
  · simp [hackStart]

/-- Whatever the header looks like, `reply_hack` gets through it inside its buffer, puts in no
more than the buffer was made larger for, and sets the length of what is in the buffer then. -/
theorem replyHack_bounded (buf host : Bytes) (hkind : isReplyHeader buf = true)
    (hhost : comma ∉ host) :
    ∃ r, replyHack buf host = some r ∧ r.insertions ≤ addresscount buf ∧
      r.length = some r.buf.length ∧ r.buf.length < hackCapacity buf host := by
  have hroomy := @roomy_header buf _ hhost
  obtain ⟨v, hloop, hinv⟩ := hackLoop_inv hroomy (hackStart_inv buf host)
  have hdue := hinv.due_le
  have hlength := hinv.length_eq
  simp only [due, List.count_nil, List.length_nil, Nat.add_zero] at hdue hlength
  have hcount : v.insertions ≤ 1 + buf.count comma := by omega
  refine ⟨_, by rw [replyHack, if_pos hkind, hloop, Option.map_some], ?_, rfl, ?_⟩
  · refine Nat.le_trans hcount (Nat.add_le_add_left ?_ 1)
    apply List.countP_mono_left
    intro b _ hb
    simpa using .inl (by simpa using hb)
  · rw [hlength]
    exact hroomy.room _ hcount

theorem replyHack_bounded_two :
    ∃ r, replyHack (Bytes.lit "To: a (b, c), (d@e\" f,,\n") (Bytes.lit "example.org") = some r ∧
      r.insertions ≤ addresscount (Bytes.lit "To: a (b, c), (d@e\" f,,\n") ∧
      r.length = some r.buf.length ∧
      r.buf.length < hackCapacity (Bytes.lit "To: a (b, c), (d@e\" f,,\n")
        (Bytes.lit "example.org") :=
  replyHack_bounded _ _ (by decide) (by decide)

end Fetchmail.Rfc822
