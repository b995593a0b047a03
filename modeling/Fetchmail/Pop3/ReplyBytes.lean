import Fetchmail.Driver.SizeAccess
import Fetchmail.Pop3.Uidl
import Fetchmail.Transact.Socket

/-!
# Multi-line Replies, Byte by Byte

The loops of `capa_probe`, `pop3_getrange`, `pop3_getsizes` and `pop3_gettopid` that read the lines
of a reply. `gen_recv` reads a line that is too long for the buffer in pieces, and each piece is
looked at as if it were a line. The loops differ in the size of their buffers and in what they do
with a line.
-/

namespace Fetchmail.Pop3

open Fetchmail.Lib Fetchmail.Transact Fetchmail.Driver

/-! ## The loops -/

/-- What `gen_recv` leaves of what it has read: a string without the end of the line. -/
def stripLine (chunk : Bytes) : Bytes :=
  Bytes.chop Bytes.cr (Bytes.chop Bytes.lf (Bytes.cstr chunk))

/-- `gen_recv` with a buffer of the given size. -/
def genRecvBytes (size : Nat) (stream : Bytes) : Option (Bytes × Bytes) :=
  (sockRead size stream).map fun r => (stripLine r.1, r.2)

/-- How a loop ends. -/
inductive Ended where
  /-- at a `DOTLINE` -/
  | terminator
  | parseError
  | socket
  deriving DecidableEq, Repr

/-- A loop: the size of its buffer, and what it does with a line; nothing where it returns with an
error. -/
structure ReplyLoop where
  State : Type
  size : Nat
  body : Bytes → State → Option State

/-- The loop, from a state: how it ends, with which state, and what is still to be read. -/
def ReplyLoop.run (l : ReplyLoop) : (fuel : Nat) → Bytes → l.State →
    Option (Ended × l.State × Bytes)
  | 0, _, _ => none
  | fuel + 1, stream, st =>
    match genRecvBytes l.size stream with
    | none => some (.socket, st, stream)
    | some (buf, stream) =>
      if dotLine buf then some (.terminator, st, stream)
      else
        match l.body buf st with
        | none => some (.parseError, st, stream)
        | some st => l.run fuel stream st

/-- The variables that `capa_probe` sets. -/
structure Capabilities where
  stls : Bool
  gssapi : Bool
  kerberos : Bool
  otp : Bool
  ntlm : Bool
  cram : Bool
  deriving DecidableEq, Repr

/-- The tests of `capa_probe` on a line. -/
def Capabilities.note (buffer : Bytes) (c : Capabilities) : Capabilities where
  stls := c.stls || buffer.contains (Bytes.lit "STLS")
  gssapi := c.gssapi || buffer.contains (Bytes.lit "GSSAPI")
  kerberos := c.kerberos || buffer.contains (Bytes.lit "KERBEROS_V4")
  otp := c.otp || buffer.contains (Bytes.lit "X-OTP")
  ntlm := c.ntlm || buffer.contains (Bytes.lit "NTLM")
  cram := c.cram || buffer.contains (Bytes.lit "CRAM-MD5")

/-- `pop3_getrange` on a line of the reply to `UIDL`. -/
def uidlBody (flush : Bool) (buf : Bytes) (s : Statics × Int) : Option (Statics × Int) :=
  match parseuid buf with
  | none => none
  | some (unum, id) =>
    let (new, statics) := s.1.listLine flush unum id
    some (statics, if new then s.2 + 1 else s.2)

/-- `pop3_gettopid` on a line; the state is `got_it` and `id`. -/
def topBody (buf : Bytes) (s : Bool × Bytes) : Bool × Bytes :=
  if !s.1 && Bytes.startsWithCI buf (Bytes.lit "Message-Id:") then
    (true, copyId ((buf.drop 11).dropWhile Bytes.isspace))
  else s

/-- The commands with multi-line replies. -/
inductive MultilineCommand where
  | capa
  | uidl (flush : Bool)
  | list (count : Nat)
  | top

/-- The loop that reads the reply. -/
def MultilineCommand.loop : MultilineCommand → ReplyLoop
  | .capa => ⟨Capabilities, 64, fun buffer c => some (c.note buffer)⟩
  | .uidl flush => ⟨Statics × Int, popBufSize + 1, uidlBody flush⟩
  | .list count => ⟨List Int, popBufSize + 1, fun buf sizes =>
      some (applyAll (popListWrite count buf) sizes)⟩
  | .top => ⟨Bool × Bytes, popBufSize + 1, fun buf s => some (topBody buf s)⟩

/-! ## Replies -/

/-- The text of a line. -/
structure LineText where
  text : Bytes
  plain : Bytes.lf ∉ text

/-- A line as it is sent, with a dot before one at its start. -/
def LineText.wire (t : LineText) : Bytes :=
  (if t.text.head? = some Bytes.dot then Bytes.dot :: t.text else t.text) ++ Bytes.crlf

/-- The line that ends a reply. -/
def terminatorLine : Bytes := Bytes.dot :: Bytes.crlf

/-- A reply. -/
def replyWire (lines : List LineText) : Bytes := lines.flatMap LineText.wire ++ terminatorLine

/-- The pieces of a line, `n` bytes each. -/
def pieces (n : Nat) : (steps : Nat) → Bytes → List Bytes
  | 0, _ => []
  | steps + 1, w => if w = [] then [] else w.take n :: pieces n steps (w.drop n)

/-- What a loop with a buffer of the given size gets to see of a line. -/
def heard (size : Nat) (w : Bytes) : List Bytes := (pieces (size - 1) w.length w).map stripLine

/-- The state after pieces of lines, if the loop goes on behind each of them. -/
def ReplyLoop.absorb (l : ReplyLoop) : List Bytes → l.State → Option l.State
  | [], st => some st
  | buf :: rest, st => if dotLine buf then none else (l.body buf st).bind (l.absorb rest)

/-- The loop makes something of a piece of a line. -/
def MultilineCommand.Readable : MultilineCommand → Bytes → Prop
  | .uidl _, buf => (parseuid buf).isSome
  | .capa, _ | .list _, _ | .top, _ => True

section

variable {l : ReplyLoop}

/-- More fuel does not change how a loop ends. -/
theorem ReplyLoop.run_mono {fuel : Nat} {stream : Bytes} {st : l.State}
    {r : Ended × l.State × Bytes} (h : l.run fuel stream st = some r) (more : Nat) :
    l.run (fuel + more) stream st = some r := by
  induction fuel generalizing stream st with
  | zero => cases h
  | succ fuel ih =>
    have hfuel : fuel + 1 + more = (fuel + more) + 1 := by omega
    rw [hfuel]
    rw [ReplyLoop.run] at h ⊢
    cases hrecv : genRecvBytes l.size stream with
    | none =>
      rw [hrecv] at h
      exact h
    | some got =>
      obtain ⟨buf, rest⟩ := got
      rw [hrecv] at h
      dsimp only at h ⊢
      split
      · rwa [if_pos ‹_›] at h
      · rw [if_neg ‹_›] at h
        cases hbody : l.body buf st with
        | none =>
          rw [hbody] at h
          exact h
        | some st' =>
          rw [hbody] at h
          exact ih h

theorem ReplyLoop.run_unique {fuel fuel' : Nat} {stream : Bytes} {st : l.State}
    {r r' : Ended × l.State × Bytes} (h : l.run fuel stream st = some r)
    (h' : l.run fuel' stream st = some r') : r = r' := by
  have hmore := l.run_mono h fuel'
  rw [Nat.add_comm, l.run_mono h' fuel] at hmore
  exact (Option.some.inj hmore).symm

theorem ReplyLoop.absorb_append (a b : List Bytes) (st : l.State) :
    l.absorb (a ++ b) st = (l.absorb a st).bind (l.absorb b) := by
  induction a generalizing st with
  | nil => rfl
  | cons buf a ih =>
    simp only [List.cons_append, ReplyLoop.absorb]
    split
    · rfl
    · cases l.body buf st with
      | none => rfl
      | some st' => exact ih st'

/-- A piece of a line is read. -/
theorem genRecvBytes_piece {size : Nat} (hsize : 2 ≤ size) {t : Bytes} (ht : Bytes.lf ∉ t)
    (rest : Bytes) :
    genRecvBytes size (t ++ Bytes.lf :: rest) =
      some (stripLine ((t ++ [Bytes.lf]).take (size - 1)),
        (t ++ [Bytes.lf]).drop (size - 1) ++ rest) := by
  rw [genRecvBytes, sockRead, if_neg (by omega), readUpTo_line ht]
  rfl

theorem pieces_nil (n steps : Nat) : pieces n steps [] = [] := by
  cases steps <;> rfl

/-- What a loop does with the bytes of a line: it ends before the next one, or goes on there. -/
structure ReadsLine (l : ReplyLoop) (line : Bytes) (frags : List Bytes) (rest : Bytes)
    (st : l.State) : Prop where
  ended : l.absorb frags st = none →
    ∃ fuel e st' left, l.run fuel (line ++ rest) st = some (e, st', left) ∧
      rest.length ≤ left.length
  through : ∀ st', l.absorb frags st = some st' →
    ∀ fuel r, l.run fuel rest st' = some r → ∃ fuel', l.run fuel' (line ++ rest) st = some r

/-- **Step.** A line is read piece by piece. -/
theorem readsLine (hsize : 2 ≤ l.size) (rest : Bytes) (steps : Nat) :
    ∀ (t : Bytes) (st : l.State), Bytes.lf ∉ t → (t ++ [Bytes.lf]).length ≤ steps →
      ReadsLine l (t ++ [Bytes.lf])
        ((pieces (l.size - 1) steps (t ++ [Bytes.lf])).map stripLine) rest st := by
  induction steps with
  | zero =>
    intro t st _ hsteps
    simp at hsteps
  | succ steps ih =>
    intro t st ht hsteps
    obtain ⟨piece, hpiece⟩ :
        ∃ piece, stripLine ((t ++ [Bytes.lf]).take (l.size - 1)) = piece := ⟨_, rfl⟩
    obtain ⟨later, hlater⟩ : ∃ later, (t ++ [Bytes.lf]).drop (l.size - 1) = later := ⟨_, rfl⟩
    have hfrags : (pieces (l.size - 1) (steps + 1) (t ++ [Bytes.lf])).map stripLine =
        piece :: (pieces (l.size - 1) steps later).map stripLine := by
      rw [pieces, if_neg (by simp), List.map_cons, hpiece, hlater]
    have hrun : ∀ fuel st, l.run (fuel + 1) (t ++ [Bytes.lf] ++ rest) st =
        if dotLine piece then some (.terminator, st, later ++ rest)
        else
          match l.body piece st with
          | none => some (.parseError, st, later ++ rest)
          | some st => l.run fuel (later ++ rest) st := by
      intro fuel st
      rw [ReplyLoop.run, List.append_assoc, List.singleton_append, genRecvBytes_piece hsize ht,
        hpiece, hlater]
    -- what is left of the line is read like a line, if there is something left
    have hrest : ∀ st,
        ReadsLine l later ((pieces (l.size - 1) steps later).map stripLine) rest st := by
      intro st
      by_cases hshort : l.size - 1 ≤ t.length
      · have hdrop : later = t.drop (l.size - 1) ++ [Bytes.lf] := by
          rw [← hlater, List.drop_append_of_le_length hshort]
        rw [hdrop]
        apply ih _ _ (fun h => ht (List.mem_of_mem_drop h))
        simp only [List.length_append, List.length_drop, List.length_singleton] at hsteps ⊢
        omega
      · have hnil : later = [] := by
          rw [← hlater]
          apply List.drop_eq_nil_of_le
          rw [List.length_append, List.length_singleton]
          omega
        rw [hnil, pieces_nil]
        refine ⟨fun h => (nomatch h), fun st' h fuel r hr => ?_⟩
        obtain rfl := Option.some.inj h
        exact ⟨fuel, hr⟩
    rw [hfrags]
    by_cases hdot : dotLine piece = true
    · refine ⟨fun _ => ?_, fun st' habsorb => ?_⟩
      · refine ⟨1, .terminator, st, later ++ rest, ?_, by simp⟩
        rw [hrun, if_pos hdot]
      · rw [ReplyLoop.absorb, if_pos hdot] at habsorb
        cases habsorb
    · cases hbody : l.body piece st with
      | none =>
        refine ⟨fun _ => ?_, fun st' habsorb => ?_⟩
        · refine ⟨1, .parseError, st, later ++ rest, ?_, by simp⟩
          rw [hrun, if_neg hdot, hbody]
        · rw [ReplyLoop.absorb, if_neg hdot, hbody] at habsorb
          cases habsorb
      | some st' =>
        have hnext : l.absorb (piece :: (pieces (l.size - 1) steps later).map stripLine) st =
            l.absorb ((pieces (l.size - 1) steps later).map stripLine) st' := by
          rw [ReplyLoop.absorb, if_neg hdot, hbody, Option.bind_some]
        have hstep : ∀ fuel, l.run (fuel + 1) (t ++ [Bytes.lf] ++ rest) st =
            l.run fuel (later ++ rest) st' := by
          intro fuel
          rw [hrun, if_neg hdot, hbody]
        refine ⟨fun habsorb => ?_, fun st'' habsorb fuel r hr => ?_⟩
        · rw [hnext] at habsorb
          obtain ⟨fuel, e, st'', left, hleft, hlen⟩ := (hrest st').ended habsorb
          exact ⟨fuel + 1, e, st'', left, (hstep fuel).trans hleft, hlen⟩
        · rw [hnext] at habsorb
          obtain ⟨fuel', hleft⟩ := (hrest st').through st'' habsorb fuel r hr
          exact ⟨fuel' + 1, (hstep fuel').trans hleft⟩

/-- A line of a reply. -/
theorem readsLine_wire (hsize : 2 ≤ l.size) (t : LineText) (rest : Bytes) (st : l.State) :
    ReadsLine l t.wire (heard l.size t.wire) rest st := by
  obtain ⟨text, htext, hplain⟩ : ∃ text, t.wire = text ++ [Bytes.lf] ∧ Bytes.lf ∉ text := by
    unfold LineText.wire
    refine ⟨(if t.text.head? = some Bytes.dot then Bytes.dot :: t.text else t.text) ++ [Bytes.cr],
      by simp [Bytes.crlf], ?_⟩
    have hplain := t.plain
    have hdot : Bytes.lf ≠ Bytes.dot := by decide
    have hcr : Bytes.lf ≠ Bytes.cr := by decide
    split <;> simp [hplain, hdot, hcr]
  rw [heard, htext]
  exact readsLine hsize rest _ text st hplain (Nat.le_refl _)

/-- The terminator ends the loop. -/
theorem run_terminator (hsize : 4 ≤ l.size) (rest : Bytes) (st : l.State) :
    l.run 1 (terminatorLine ++ rest) st = some (.terminator, st, rest) := by
  have hwire : terminatorLine ++ rest = [Bytes.dot, Bytes.cr] ++ Bytes.lf :: rest := rfl
  have htake : ([Bytes.dot, Bytes.cr] ++ [Bytes.lf]).take (l.size - 1) = terminatorLine :=
    List.take_of_length_le (by simp; omega)
  have hdrop : ([Bytes.dot, Bytes.cr] ++ [Bytes.lf]).drop (l.size - 1) = [] :=
    List.drop_eq_nil_of_le (by simp; omega)
  rw [ReplyLoop.run, hwire, genRecvBytes_piece (by omega) (by decide), htake, hdrop]
  rfl

/-- **Run.** The lines of a reply, and what follows them. -/
theorem readsReply (hsize : 4 ≤ l.size) (lines : List LineText) (rest : Bytes) :
    ∀ st : l.State,
      (l.absorb (lines.flatMap fun t => heard l.size t.wire) st = none →
        ∃ fuel e st' left, l.run fuel (replyWire lines ++ rest) st = some (e, st', left) ∧
          rest.length < left.length) ∧
      ∀ st', l.absorb (lines.flatMap fun t => heard l.size t.wire) st = some st' →
        ∃ fuel, l.run fuel (replyWire lines ++ rest) st = some (.terminator, st', rest) := by
  induction lines with
  | nil =>
    intro st
    refine ⟨fun h => (nomatch h), fun st' h => ⟨1, ?_⟩⟩
    obtain rfl := Option.some.inj h
    exact run_terminator hsize rest st
  | cons t lines ih =>
    intro st
    have hwire : replyWire (t :: lines) ++ rest = t.wire ++ (replyWire lines ++ rest) := by
      simp [replyWire]
    have hline := readsLine_wire (by omega : 2 ≤ l.size) t (replyWire lines ++ rest) st
    have hlonger : rest.length < (replyWire lines ++ rest).length := by
      simp [replyWire, terminatorLine]
      omega
    rw [hwire, List.flatMap_cons, l.absorb_append]
    cases habsorb : l.absorb (heard l.size t.wire) st with
    | none =>
      -- the loop ends within this line
      refine ⟨fun _ => ?_, fun st' h => (nomatch h)⟩
      obtain ⟨fuel, e, st', left, hrun, hlen⟩ := hline.ended habsorb
      exact ⟨fuel, e, st', left, hrun, by omega⟩
    | some st' =>
      obtain ⟨hended, hthrough⟩ := ih st'
      rw [Option.bind_some]
      constructor
      · intro hnone
        obtain ⟨fuel, e, st'', left, hrun, hlen⟩ := hended hnone
        obtain ⟨fuel', hrun'⟩ := hline.through st' habsorb fuel _ hrun
        exact ⟨fuel', e, st'', left, hrun', hlen⟩
      · intro st'' hsome
        obtain ⟨fuel, hrun⟩ := hthrough st'' hsome
        exact hline.through st' habsorb fuel _ hrun

end

theorem MultilineCommand.body_isSome_iff (command : MultilineCommand) (buf : Bytes)
    (st : command.loop.State) :
    (command.loop.body buf st).isSome ↔ command.Readable buf := by
  cases command with
  | capa | list count | top => exact iff_of_true rfl trivial
  | uidl flush =>
    change (uidlBody flush buf st).isSome = true ↔ (parseuid buf).isSome
    unfold uidlBody
    cases parseuid buf <;> simp

theorem MultilineCommand.absorb_isSome_iff (command : MultilineCommand) (frags : List Bytes)
    (st : command.loop.State) :
    (command.loop.absorb frags st).isSome ↔
      ∀ piece ∈ frags, dotLine piece = false ∧ command.Readable piece := by
  induction frags generalizing st with
  | nil => simp [ReplyLoop.absorb]
  | cons buf rest ih =>
    have hbuf := command.body_isSome_iff buf st
    rw [ReplyLoop.absorb, List.forall_mem_cons, ← hbuf]
    cases hdot : dotLine buf with
    | true => simp
    | false =>
      cases hbody : command.loop.body buf st with
      | none => simp
      | some st' => simpa using ih st'

/-- **Multi-line replies.** A loop leaves just what follows the terminator of the reply, however
it ends, if and only if no piece of a line consists of a dot, and, for `UIDL`, a number and a UID
are read from each. -/
theorem multilineReply_iff (command : MultilineCommand) (lines : List LineText) (rest : Bytes)
    (st : command.loop.State) :
    (∃ fuel e st', command.loop.run fuel (replyWire lines ++ rest) st = some (e, st', rest)) ↔
      ∀ t ∈ lines, ∀ piece ∈ heard command.loop.size t.wire,
        dotLine piece = false ∧ command.Readable piece := by
  have hsize : 4 ≤ command.loop.size := by
    cases command <;> simp [MultilineCommand.loop, popBufSize]
  obtain ⟨hended, hthrough⟩ := readsReply hsize lines rest st
  -- the loop goes by pieces of its buffer, not by lines
  have hpieces := command.absorb_isSome_iff
    (lines.flatMap fun t => heard command.loop.size t.wire) st
  have hall : (∀ t ∈ lines, ∀ piece ∈ heard command.loop.size t.wire,
      dotLine piece = false ∧ command.Readable piece) ↔
      ∀ piece ∈ lines.flatMap fun t => heard command.loop.size t.wire,
        dotLine piece = false ∧ command.Readable piece := by
    simp only [List.mem_flatMap, forall_exists_index, and_imp]
    exact ⟨fun h piece t ht => h t ht piece, fun h t ht piece => h piece t ht⟩
  rw [hall, ← hpieces]
  constructor
  · rintro ⟨fuel, e, st', hrun⟩
    rw [Option.isSome_iff_ne_none]
    intro hnone
    obtain ⟨fuel', e', st'', left, hrun', hlen⟩ := hended hnone
    -- a piece ended the loop, and something of the reply is left behind it
    have hsame := ReplyLoop.run_unique hrun hrun'
    simp only [Prod.mk.injEq] at hsame
    obtain ⟨-, -, rfl⟩ := hsame
    omega
  · intro hsome
    obtain ⟨st', hst'⟩ := Option.isSome_iff_exists.mp hsome
    obtain ⟨fuel, hrun⟩ := hthrough st' hst'
    exact ⟨fuel, .terminator, st', hrun⟩

/-- A capability whose 64th byte is the dot at its end, and a UID list with a line that is none:
the terminator of the reply is left for the next command, with a line of the list before it. -/
theorem replies_stop_early :
    let line : LineText := ⟨List.replicate 63 65 ++ [Bytes.dot], by decide⟩
    let listing : List LineText :=
      [⟨Bytes.lit "1 a", by decide⟩, ⟨Bytes.lit "x", by decide⟩, ⟨Bytes.lit "2 b", by decide⟩]
    (MultilineCommand.capa.loop.run 10 (replyWire [line])
      ⟨false, false, false, false, false, false⟩).map (fun r => (r.1, r.2.2)) =
        some (.terminator, terminatorLine) ∧
    ((MultilineCommand.uidl false).loop.run 10 (replyWire listing)
      (⟨Uid.Db.initUidDb, Uid.Db.initUidDb, 0, false, false, false⟩, 0)).map (fun r => (r.1, r.2.2)) =
        some (.parseError, Bytes.lit "2 b" ++ Bytes.crlf ++ terminatorLine) := by
  decide +kernel

end Fetchmail.Pop3
