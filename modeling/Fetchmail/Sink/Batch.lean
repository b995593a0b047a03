import Fetchmail.Sink.Bsmtp

/-!
# Batches of Messages

What a consumer of a batch makes of it. When all goes well, the batch is a sequence of
transactions, one for each message, and each message that is reported as delivered is among
them. But a message that is broken off is left in the batch without its terminator: the
next one, commands and all, becomes a part of its content. And a message that is refused
before the sink is opened still ends in `close_sink`, which on the standard output, once it
has been opened, writes a terminator that belongs to nothing.
-/

namespace Fetchmail.Sink.Bsmtp

open Fetchmail.Lib

/-! ## The consumer -/

/-- A transaction that a consumer has carried out. -/
structure Transaction where
  mail : Bytes
  rcpts : List Bytes
  content : Bytes
  deriving DecidableEq, Repr

/-- What a consumer expects. -/
inductive Phase where
  | idle
  | envelope (mail : Bytes) (rcpts : List Bytes)
  | data (mail : Bytes) (rcpts : List Bytes) (content : Bytes)
  deriving DecidableEq, Repr

/-- A consumer of a batch. -/
structure Consumer where
  phase : Phase
  accepted : List Transaction
  /-- there was a lone dot outside of the content of a message -/
  stray : Bool
  deriving DecidableEq, Repr

/-- The line ends the content of a message. -/
def isEnd (l : Bytes) : Bool := l = terminator || l = [Bytes.dot, Bytes.lf]

/-- A command line; what is out of order is ignored. -/
def Phase.command (phase : Phase) (l : Bytes) : Phase :=
  if (Bytes.lit "MAIL FROM:").isPrefixOf l then .envelope l []
  else
    match phase with
    | .envelope mail rcpts =>
      if (Bytes.lit "RCPT TO:").isPrefixOf l then .envelope mail (rcpts ++ [l])
      else if l = dataLine then .data mail rcpts []
      else phase
    | _ => phase

/-- A line of the batch. -/
def Consumer.line (s : Consumer) (l : Bytes) : Consumer :=
  match s.phase with
  | .data mail rcpts content =>
    if isEnd l then ⟨.idle, s.accepted ++ [⟨mail, rcpts, content⟩], s.stray⟩
    else { s with phase := .data mail rcpts (content ++ unstuff l) }
  | phase => if isEnd l then { s with stray := true } else { s with phase := phase.command l }

/-- The consumer before the batch. -/
def Consumer.start : Consumer := ⟨.idle, [], false⟩

/-- The consumer behind some octets more. -/
def Consumer.read (s : Consumer) (octets : Bytes) : Consumer := (lfLines octets).foldl Consumer.line s

/-- What a consumer makes of a batch. -/
def consume (octets : Bytes) : Consumer := Consumer.start.read octets

theorem Consumer.read_append (s : Consumer) {a : Bytes} (b : Bytes) (ha : Terminated a) :
    s.read (a ++ b) = (s.read a).read b := by
  rw [Consumer.read, lfLines_append b ha, List.foldl_append]
  rfl

/-! ## Octets that end no message -/

/-- None of the lines ends the content of a message. -/
def Endless (s : Bytes) : Prop := ∀ l ∈ lfLines s, isEnd l = false

/-- None of the lines starts with a dot. -/
def Undotted (s : Bytes) : Prop := ∀ l ∈ lfLines s, dotted l = false

theorem loneDot_of_isEnd {l : Bytes} (h : isEnd l = true) : loneDot l = true := by
  simp only [isEnd, Bool.or_eq_true, decide_eq_true_eq] at h
  rcases h with rfl | rfl <;> rfl

theorem Undotted.endless {s : Bytes} (h : Undotted s) : Endless s := by
  intro l hl
  have hlone := loneDot_of_not_dotted (h l hl)
  rw [← Bool.not_eq_true]
  intro hend
  rw [loneDot_of_isEnd hend] at hlone
  cases hlone

theorem endless_of_noLoneDot {s : Bytes} (h : NoLoneDot s) : Endless s := by
  intro l hl
  rw [← Bool.not_eq_true]
  intro hend
  have hlone := h l hl
  rw [loneDot_of_isEnd hend] at hlone
  cases hlone

theorem Endless.append {a b : Bytes} (ht : Terminated a) (ha : Endless a) (hb : Endless b) :
    Endless (a ++ b) := by
  intro l hl
  rw [lfLines_append b ht, List.mem_append] at hl
  exact hl.elim (ha l) (hb l)

/-- The first line decides whether text without one goes with the rest. -/
theorem undotted_cons {b : UInt8} {s : Bytes} : Undotted (b :: s) ↔ b ≠ Bytes.dot ∧
    if b = Bytes.lf then Undotted s else ∀ l ∈ (lfLines s).tail, dotted l = false := by
  by_cases hb : b = Bytes.lf
  · simp [Undotted, lfLines, hb, dotted, Bytes.lf, Bytes.dot]
  · simp [Undotted, lfLines_cons hb, hb, dotted]

/-- What stands behind octets may be replaced, if neither its first line nor the others get a
dot. -/
theorem undotted_append_imp {s s' : Bytes} (hs : Undotted s → Undotted s')
    (htail : (∀ l ∈ (lfLines s).tail, dotted l = false) →
      ∀ l ∈ (lfLines s').tail, dotted l = false) (a : Bytes) :
    (Undotted (a ++ s) → Undotted (a ++ s')) ∧
      ((∀ l ∈ (lfLines (a ++ s)).tail, dotted l = false) →
        ∀ l ∈ (lfLines (a ++ s')).tail, dotted l = false) := by
  -- the first line may already have begun
  induction a with
  | nil => exact ⟨hs, htail⟩
  | cons x a ih =>
    rw [List.cons_append, List.cons_append, undotted_cons, undotted_cons]
    by_cases hx : x = Bytes.lf
    · rw [if_pos hx, if_pos hx]
      refine ⟨fun h => ⟨h.1, ih.1 h.2⟩, ?_⟩
      simpa [lfLines, hx, Undotted] using ih.1
    · rw [if_neg hx, if_neg hx, lfLines_cons hx, lfLines_cons hx]
      exact ⟨fun h => ⟨h.1, ih.2 h.2⟩, ih.2⟩

/-- Behind any octets, lines without a dot do not become lines with one. -/
theorem Undotted.append {a b : Bytes} (ha : Undotted a) (hb : Undotted b) : Undotted (a ++ b) := by
  refine (@undotted_append_imp [] b (fun _ => hb) (fun _ l hl => ?_) a).1 ?_
  · exact hb l (List.mem_of_mem_tail hl)
  · rwa [List.append_nil]

theorem Undotted.part {p s : Bytes} (h : Undotted s) (hp : p <+: s) : Undotted p := by
  obtain ⟨rest, rfl⟩ := hp
  have hpart := (@undotted_append_imp rest [] (fun _ => by simp [Undotted, lfLines])
    (fun _ => by simp [lfLines]) p).1 h
  rwa [List.append_nil] at hpart

/-- Octets are finished lines, and perhaps the start of another. -/
theorem exists_unfinished (s : Bytes) : ∃ a t, s = a ++ t ∧ Terminated a ∧ Bytes.lf ∉ t := by
  induction s with
  | nil => exact ⟨[], [], rfl, .inl rfl, by simp⟩
  | cons x s ih =>
    obtain ⟨a, t, rfl, ha, ht⟩ := ih
    by_cases hline : x ≠ Bytes.lf ∧ a = []
    · exact ⟨[], x :: t, by simp [hline.2], .inl rfl, by simp [Ne.symm hline.1, ht]⟩
    · refine ⟨x :: a, t, rfl, .inr ?_, ht⟩
      rcases ha with rfl | ha
      · simpa using hline
      · simp [List.getLast?_cons, ha]

/-- The finished lines of a part are lines of the whole. -/
theorem mem_lfLines_of_part {p s l : Bytes} (hp : p <+: s) (hl : l ∈ lfLines p)
    (hlast : l.getLast? = some Bytes.lf) : l ∈ lfLines s := by
  obtain ⟨rest, rfl⟩ := hp
  obtain ⟨a, t, rfl, ha, ht⟩ := exists_unfinished p
  rw [lfLines_append t ha, List.mem_append] at hl
  rw [List.append_assoc, lfLines_append _ ha, List.mem_append]
  rcases hl with hl | hl
  · exact .inl hl
  · -- the unfinished line
    have hlf : Bytes.lf ∈ (lfLines t).flatten := List.mem_flatten_of_mem hl (List.mem_of_getLast? hlast)
    rw [flatten_lfLines] at hlf
    exact absurd hlf ht

theorem Endless.part {p s : Bytes} (h : Endless s) (hp : p <+: s) : Endless p := by
  intro l hl
  rw [← Bool.not_eq_true]
  intro hend
  have hlast : l.getLast? = some Bytes.lf := by
    simp only [isEnd, Bool.or_eq_true, decide_eq_true_eq] at hend
    rcases hend with rfl | rfl <;> rfl
  rw [h l (mem_lfLines_of_part hp hl hlast)] at hend
  cases hend

/-! ## A run -/

section

variable (c : BsmtpCtl) (e : Disk)

/-- What is handed to `stuffline` for a message. -/
def Message.texts (m : Message) : List Bytes :=
  match m.headers with
  | .stopped _ _ => []
  | .addressed texts warning => texts ++ warning.toList ++ [delimiterLine] ++ m.body

/-- What `stuffline` writes for some texts. -/
def written (texts : List Bytes) : Bytes := texts.flatMap fun mem => (stuffline c.line mem).written

/-- The `MAIL FROM` line. -/
def mailLine (m : Message) : Bytes := (mailWrites c m.msg m.mime).flatten

/-- The transaction that the message should be. -/
def Message.transaction (m : Message) : Transaction :=
  ⟨mailLine c m, rcptLines c m.msg, unstuffLines (written c m.texts)⟩

/-- The batch, and the messages that were reported as delivered. -/
structure Ledger where
  batch : Batch
  reported : List Transaction

/-- A message is fetched. -/
def Ledger.next (l : Ledger) (m : Message) : Ledger where
  batch := (deliver c e m l.batch).2
  reported := if delivered c e m l.batch then l.reported ++ [m.transaction c] else l.reported

/-- Messages are fetched one after the other. -/
def Ledger.run (l : Ledger) (ms : List Message) : Ledger := ms.foldl (Ledger.next c e) l

/-- Nothing has been written yet. -/
def Ledger.start : Ledger := ⟨⟨[], none, 0⟩, []⟩

/-- A consumer accepts transactions that are those of messages, and nothing else; the messages
that were reported as delivered are among them, in their order; and there is no lone dot out
of place. -/
structure BatchSound (ms : List Message) (l : Ledger) : Prop where
  accepted : ∀ t ∈ (consume l.batch.octets).accepted, ∃ m ∈ ms, t = m.transaction c
  reported : l.reported.Sublist (consume l.batch.octets).accepted
  dots : (consume l.batch.octets).stray = false

/-! ## Runs in which nothing follows an interruption -/

/-- The text is written as lines, none of which ends the message. -/
def Lined (mem : Bytes) : Prop :=
  Terminated (stuffline c.line mem).written ∧ NoLoneDot (stuffline c.line mem).written

/-- The message gets to the batch. -/
def Message.Opens (m : Message) (b : Batch) : Prop :=
  (∃ texts warning, m.headers = .addressed texts warning) ∧
    if c.dash then b.sinkfp ≠ some true else e.opens b.ops = true

/-- The number of writes of `stuffline`. -/
def stuffWrites (mem : Bytes) : Nat :=
  if stuffing c.line (ended c.line (huntLine mem)) = [] then 1 else 2

/-- The number of writes for a message, if all goes well. -/
def Message.writes (m : Message) : Nat :=
  (preamble c m.msg m.mime).length + 1 + (m.texts.map (stuffWrites c)).sum + 1

/-- The message is interrupted after the sink has been opened: the connection breaks, or a
write fails. -/
def Message.Cut (m : Message) (b : Batch) : Prop :=
  m.Opens c e b ∧ (m.breaks = true ∨ ∃ n, (openStream c e b).ops ≤ n ∧
    n < (openStream c e b).ops + m.writes c ∧ e.fault n ≠ none)

/-- The message can be written as a transaction; or it does not come to be closed on the
standard output that others have used. -/
def Message.Calm (m : Message) (b : Batch) : Prop :=
  match m.headers with
  | .stopped status _ => suppressesForward status = true → c.dash = true → b.sinkfp ≠ none →
      m.reads = true ∧ m.breaks = true
  | .addressed _ warning => IsLine (mailLine c m) ∧ (∀ l ∈ rcptLines c m.msg, IsLine l) ∧
      (∀ mem ∈ m.texts, Lined c mem) ∧
      ∀ mem ∈ warning, Undotted (stuffline c.line mem).written

/-- None of the messages gets to the batch. -/
def Aloof : List Message → Batch → Prop
  | [], _ => True
  | m :: ms, b => ¬ m.Opens c e b ∧ Aloof ms (deliver c e m b).2

/-- All messages are calm, and none that gets to the batch follows one that is interrupted. -/
def Orderly : List Message → Batch → Prop
  | [], _ => True
  | m :: ms, b => m.Calm c b ∧ (m.Cut c e b → Aloof c e ms (deliver c e m b).2) ∧
      Orderly ms (deliver c e m b).2

end

end Fetchmail.Sink.Bsmtp
