import Fetchmail.Basic
import Fetchmail.Transact.SockWrite

/-!
# On-Demand Mail Relay

`odmr.c`: the `ATRN` command, and the pipe between the ODMR server and the local SMTP listener
once the server has turned the connection around. When data are there to read, and how much of
them a write passes on, is up to the world. `SMTP_ehlo`, `do_cram_md5`, `gen_recv` and
`smtp_setup` are called and their outcomes are given; what is reported is left out.
-/

namespace Fetchmail.Odmr

open Fetchmail.Lib Fetchmail.Transact

/-! ## The command -/

/-- `sizeof(buf)` -/
def bufSize : Nat := 8193

/-- The loop over `ctl->domainlist`, from what `buf` holds: names are added while they fit. -/
def domainLoop : List Bytes → Bytes → Bytes
  | [], buf => buf
  | id :: rest, buf =>
    if bufSize ≤ buf.length + id.length + 1 then buf
    else domainLoop rest (buf ++ id ++ [44])

/-- The argument of `ATRN`. The final comma is overwritten; without one there is a write before
the start of the buffer. -/
def atrnDomains (domainlist : List Bytes) : Option Bytes :=
  let buf := domainLoop domainlist []
  if buf = [] then none else some buf.dropLast

/-- `gen_send(sock, "ATRN %s", buf)`: what goes to the server. The command is cut where the buffer
of `gen_send`, with room for the line end, has no more room for it. -/
def atrnCommand (arg : Bytes) : Bytes :=
  (Bytes.lit "ATRN " ++ arg).take (bufSize - 2 - 1) ++ Bytes.crlf

/-! ## The pipe -/

/-- What `select` comes to: `-1`, or which of the two sockets have something to read. -/
inductive Select where
  | failed
  | ready (server listener : Bool)
  deriving DecidableEq, Repr

/-- The two connections: what their far ends will still send, and what has gone to them. -/
structure Pipe where
  fromServer : Bytes
  fromListener : Bytes
  toServer : Peer
  toListener : Peer
  doingSmtpData : Bool

/-- Data of the server go to the listener; nothing if there are none to be read. -/
def Pipe.forward (p : Pipe) : Option Pipe :=
  (sockRead bufSize p.fromServer).map fun r =>
    { p with fromServer := r.2, toListener := (p.toListener.sockWrite r.1).2 }

/-- Data of the listener go to the server. A `354` says that the message comes next. -/
def Pipe.backward (p : Pipe) : Option Pipe :=
  (sockRead bufSize p.fromListener).map fun r =>
    { p with
      fromListener := r.2
      toServer := (p.toServer.sockWrite r.1).2
      doingSmtpData := !p.doingSmtpData && Bytes.lit "354" <+: r.1 }

/-- The body of the loop, and the return code if it ends. -/
def Pipe.round (p : Pipe) : Select → Pipe × Option Ps
  | .failed => (p, some .protocol)
  | .ready server listener =>
    match if server then p.forward else some p with
    | none => (p, some .success)
    | some p =>
      match if listener then p.backward else some p with
      | none => (p, some .success)
      | some p => (p, none)

/-- The loop over what `select` comes to. -/
def Pipe.run (p : Pipe) : List Select → Pipe × Option Ps
  | [] => (p, none)
  | s :: rest =>
    let after := p.round s
    if after.2.isSome then after else after.1.run rest

/-! ## The session -/

/-- The outcomes of the calls of `odmr_getrange`. -/
structure Calls where
  /-- `SMTP_ehlo` -/
  ehlo : Ps
  /-- `opts & ESMTP_ATRN` -/
  atrn : Bool
  /-- `do_cram_md5` -/
  cramMd5 : Ps
  /-- `gen_recv` after `ATRN` -/
  reply : Except Ps Bytes
  /-- `smtp_setup(ctl) != -1` -/
  setup : Bool

/-- The `switch` over the reply to `ATRN`: the connection is turned around, or a return code. -/
def turnaround (buf : Bytes) : Except Ps Unit :=
  match Bytes.atoi buf with
  | 250 => .ok ()
  | 450 => .error .protocol
  | 451 => .error .exclude
  | 453 => .error .nomail
  | 502 => .error .protocol
  | 530 => .error .authfail
  | _ => .error .protocol

/-- `odmr_getrange`: the `ATRN` command if it was sent, the pipe as it is left, and the return
code; no result for a write before the buffer, and no return code while the pipe is open. -/
def odmrGetrange (c : Calls) (domainlist : List Bytes) (p : Pipe) (selects : List Select) :
    Option (Option Bytes × Pipe × Option Ps) :=
  if c.ehlo ≠ .success then some (none, p, some c.ehlo)
  else if !c.atrn then some (none, p, some .protocol)
  else if c.cramMd5 ≠ .success then some (none, p, some c.cramMd5)
  else
    (atrnDomains domainlist).map fun arg =>
      let sent := some (atrnCommand arg)
      match c.reply with
      | .error err => (sent, p, some err)
      | .ok buf =>
        match turnaround buf with
        | .error err => (sent, p, some err)
        | .ok () => if c.setup then (sent, p.run selects) else (sent, p, some .socket)

/-! ## The names that are sent -/

/-- Names, each with a comma. -/
def commas (names : List Bytes) : Bytes := names.flatMap fun id => id ++ [44]

theorem commas_append (a b : List Bytes) : commas (a ++ b) = commas a ++ commas b :=
  List.flatMap_append

/-- The names that are added are the first ones, as many as fit together. -/
theorem domainLoop_spec (domainlist : List Bytes) (buf : Bytes) :
    ∃ k ≤ domainlist.length, domainLoop domainlist buf = buf ++ commas (domainlist.take k) ∧
      (buf.length < bufSize → (domainLoop domainlist buf).length < bufSize) ∧
      ∀ id, domainlist[k]? = some id →
        bufSize ≤ (domainLoop domainlist buf).length + id.length + 1 := by
  induction domainlist generalizing buf with
  | nil => exact ⟨0, Nat.le_refl 0, by simp [domainLoop, commas], id, by simp⟩
  | cons id rest ih =>
    rw [domainLoop]
    by_cases hfull : bufSize ≤ buf.length + id.length + 1
    · rw [if_pos hfull]
      refine ⟨0, Nat.zero_le _, by simp [commas], fun h => h, fun id' hid => ?_⟩
      cases hid
      exact hfull
    · rw [if_neg hfull]
      obtain ⟨k, hk, hloop, hlen, hnext⟩ := ih (buf ++ id ++ [44])
      refine ⟨k + 1, Nat.succ_le_succ hk, ?_, fun _ => hlen ?_, hnext⟩
      · rw [hloop, List.take_succ_cons]
        simp [commas]
      · simp only [List.length_append, List.length_singleton]
        omega

/-- What is sent of an argument: all of it, or its first 8185 bytes. -/
theorem atrnCommand_eq (arg : Bytes) :
    atrnCommand arg = Bytes.lit "ATRN " ++ arg.take 8185 ++ Bytes.crlf := by
  have hroom : bufSize - 2 - 1 = (Bytes.lit "ATRN ").length + 8185 := by decide
  rw [atrnCommand, hroom, List.take_length_add_append]

/-- The argument of `ATRN` is the longest beginning of the list whose names fit the buffer, parted
by commas, and it is sent up to its byte 8185. The buffer is written before its start exactly if
no name fits. -/
theorem atrnDomains_spec (domainlist : List Bytes) :
    ∃ k ≤ domainlist.length,
      (atrnDomains domainlist = none ↔ k = 0) ∧
      (∀ arg, atrnDomains domainlist = some arg → arg ++ [44] = commas (domainlist.take k) ∧
        atrnCommand arg = Bytes.lit "ATRN " ++ arg.take 8185 ++ Bytes.crlf) ∧
      (commas (domainlist.take k)).length < bufSize ∧
      ∀ id, domainlist[k]? = some id →
        bufSize ≤ (commas (domainlist.take k)).length + id.length + 1 := by
  obtain ⟨k, hk, hloop, hlen, hnext⟩ := domainLoop_spec domainlist []
  rw [List.nil_append] at hloop
  have hempty : commas (domainlist.take k) = [] ↔ k = 0 := by
    constructor
    · intro h
      rcases Nat.eq_zero_or_pos k with h0 | hpos
      · exact h0
      · obtain ⟨id, rest, hrest⟩ : ∃ id rest, domainlist.take k = id :: rest := by
          apply List.exists_cons_of_length_pos
          rw [List.length_take]
          omega
        rw [hrest, commas, List.flatMap_cons] at h
        simp at h
    · rintro rfl
      rfl
  refine ⟨k, hk, ?_, ?_, ?_, ?_⟩
  · rw [atrnDomains, hloop, ← hempty]
    by_cases h : commas (domainlist.take k) = [] <;> simp [h]
  · intro arg harg
    refine ⟨?_, atrnCommand_eq arg⟩
    rw [atrnDomains, hloop] at harg
    by_cases h : commas (domainlist.take k) = []
    · simp [h] at harg
    · -- the last name has put a comma at the end
      rw [if_neg h] at harg
      obtain ⟨init, id, hinit⟩ : ∃ init id, domainlist.take k = init ++ [id] := by
        rcases List.eq_nil_or_concat (domainlist.take k) with hnil | hconcat
        · rw [hnil] at h
          exact absurd rfl h
        · simpa using hconcat
      have hlast : commas (domainlist.take k) = commas init ++ id ++ [44] := by
        rw [hinit, commas_append]
        simp [commas]
      rw [← Option.some.inj harg, hlast, List.dropLast_concat]
  · rw [← hloop]
    exact hlen (by decide)
  · rw [← hloop]
    exact hnext

/-! ## What goes through the pipe -/

/-- From one state of the pipe to another, what has been read of either side has gone to the other
one. -/
structure Moved (p q : Pipe) : Prop where
  server : ∃ a, p.fromServer = a ++ q.fromServer ∧ q.toListener.got = p.toListener.got ++ a
  listener : ∃ b, p.fromListener = b ++ q.fromListener ∧ q.toServer.got = p.toServer.got ++ b
  accepts : q.toListener.accepts = p.toListener.accepts ∧ q.toServer.accepts = p.toServer.accepts

/-- The system takes something with every write, on both sides. -/
def Accepting (p : Pipe) : Prop :=
  (∀ k, 0 < p.toListener.accepts k) ∧ ∀ k, 0 < p.toServer.accepts k

theorem moved_refl (p : Pipe) : Moved p p :=
  ⟨⟨[], rfl, (List.append_nil _).symm⟩, ⟨[], rfl, (List.append_nil _).symm⟩, rfl, rfl⟩

section

variable {p q r : Pipe}

theorem Moved.trans (h : Moved p q) (h' : Moved q r) : Moved p r := by
  obtain ⟨a, ha, hga⟩ := h.server
  obtain ⟨a', ha', hga'⟩ := h'.server
  obtain ⟨b, hb, hgb⟩ := h.listener
  obtain ⟨b', hb', hgb'⟩ := h'.listener
  refine ⟨⟨a ++ a', ?_, ?_⟩, ⟨b ++ b', ?_, ?_⟩, ?_, ?_⟩
  · rw [ha, ha', List.append_assoc]
  · rw [hga', hga, List.append_assoc]
  · rw [hb, hb', List.append_assoc]
  · rw [hgb', hgb, List.append_assoc]
  · rw [h'.accepts.1, h.accepts.1]
  · rw [h'.accepts.2, h.accepts.2]

theorem Moved.accepting (h : Moved p q) (hp : Accepting p) : Accepting q := by
  rw [Accepting, h.accepts.1, h.accepts.2]
  exact hp

theorem accepts_sockWrite (buf : Bytes) (peer : Peer) :
    (peer.sockWrite buf).2.accepts = peer.accepts := by
  obtain ⟨-, -, -, haccepts, -⟩ := sockWrite_spec buf peer
  exact haccepts

theorem forward_moved (hp : Accepting p) (h : p.forward = some q) : Moved p q := by
  obtain ⟨⟨chunk, rest⟩, hread, heq⟩ := Option.map_eq_some_iff.mp h
  subst heq
  refine ⟨⟨chunk, sockRead_append hread, (sockWrite_of_accepts chunk hp.1).2⟩, ?_,
    accepts_sockWrite chunk p.toListener, rfl⟩
  exact ⟨[], rfl, (List.append_nil _).symm⟩

theorem backward_moved (hp : Accepting p) (h : p.backward = some q) : Moved p q := by
  obtain ⟨⟨chunk, rest⟩, hread, heq⟩ := Option.map_eq_some_iff.mp h
  subst heq
  refine ⟨⟨[], rfl, (List.append_nil _).symm⟩, ?_, rfl, accepts_sockWrite chunk p.toServer⟩
  exact ⟨chunk, sockRead_append hread, (sockWrite_of_accepts chunk hp.2).2⟩

variable {server listener : Bool}

theorem round_first_none (hf : (if server then p.forward else some p) = none) :
    p.round (.ready server listener) = (p, some .success) := by
  simp only [Pipe.round, hf]

theorem round_second_none (hf : (if server then p.forward else some p) = some q)
    (hb : (if listener then q.backward else some q) = none) :
    p.round (.ready server listener) = (q, some .success) := by
  simp only [Pipe.round, hf, hb]

theorem round_both (hf : (if server then p.forward else some p) = some q)
    (hb : (if listener then q.backward else some q) = some r) :
    p.round (.ready server listener) = (r, none) := by
  simp only [Pipe.round, hf, hb]

theorem round_moved (hp : Accepting p) (s : Select) : Moved p (p.round s).1 := by
  cases s with
  | failed => exact moved_refl p
  | ready server listener =>
    have hfirst : ∀ q, (if server then p.forward else some p) = some q → Moved p q := by
      intro q hq
      cases server with
      | false =>
        cases hq
        exact moved_refl p
      | true => exact forward_moved hp hq
    have hsecond : ∀ q r, Accepting q → (if listener then q.backward else some q) = some r →
        Moved q r := by
      intro q r hq hr
      cases listener with
      | false =>
        cases hr
        exact moved_refl q
      | true => exact backward_moved hq hr
    -- a side that is not ready is not read, and nothing is done for the second after the first
    -- failed
    cases hf : (if server then p.forward else some p) with
    | none =>
      rw [round_first_none hf]
      exact moved_refl p
    | some q =>
      have hq := hfirst q hf
      cases hb : (if listener then q.backward else some q) with
      | none =>
        rw [round_second_none hf hb]
        exact hq
      | some r =>
        rw [round_both hf hb]
        exact hq.trans (hsecond q r (hq.accepting hp) hb)

/-- However the data arrive, and in whatever parts they are written: what has been read of the
server has gone to the listener, what has been read of the listener to the server, each in
order and once. -/
theorem run_moved (hp : Accepting p) (selects : List Select) : Moved p (p.run selects).1 := by
  induction selects generalizing p with
  | nil => exact moved_refl p
  | cons s rest ih =>
    have hround := round_moved hp s
    rw [Pipe.run]
    by_cases hend : (p.round s).2.isSome = true
    · simpa only [hend, if_true] using hround
    · simp only [hend, Bool.false_eq_true, if_false]
      exact hround.trans (ih (hround.accepting hp))

/-- What ends the pipe, in the round in which `select` comes to this: a failure, or a side that is
ready and has no line more. -/
def Ends (p : Pipe) : Select → Ps → Prop
  | .failed, status => status = .protocol
  | .ready server listener, status =>
    status = .success ∧ (server = true ∧ sockRead bufSize p.fromServer = none ∨
      listener = true ∧ sockRead bufSize p.fromListener = none)

theorem first_eq_none_iff : (if server then p.forward else some p) = none ↔
    server = true ∧ sockRead bufSize p.fromServer = none := by
  cases server with
  | false => simp
  | true => simp [Pipe.forward]

theorem second_eq_none_iff : (if listener then p.backward else some p) = none ↔
    listener = true ∧ sockRead bufSize p.fromListener = none := by
  cases listener with
  | false => simp
  | true => simp [Pipe.backward]

/-- What the server sends is not what the listener does. -/
theorem first_fromListener (hf : (if server then p.forward else some p) = some q) :
    q.fromListener = p.fromListener := by
  cases server with
  | false =>
    cases hf
    rfl
  | true =>
    obtain ⟨r, -, rfl⟩ := Option.map_eq_some_iff.mp hf
    rfl

theorem round_ends {s : Select} {status : Ps} : (p.round s).2 = some status ↔ Ends p s status := by
  cases s with
  | failed => simp [Pipe.round, Ends, eq_comm]
  | ready server listener =>
    cases hf : (if server then p.forward else some p) with
    | none =>
      rw [round_first_none hf]
      simp [Ends, first_eq_none_iff.mp hf, eq_comm]
    | some q =>
      have hserver : ¬ (server = true ∧ sockRead bufSize p.fromServer = none) := by
        rw [← first_eq_none_iff, hf]
        exact Option.some_ne_none q
      rw [Ends, or_iff_right hserver, ← first_fromListener hf, ← second_eq_none_iff]
      cases hb : (if listener then q.backward else some q) with
      | none =>
        rw [round_second_none hf hb]
        simp [eq_comm]
      | some r =>
        rw [round_both hf hb]
        simp

variable {s : Select} {rest : List Select} {status : Ps}

theorem run_cons_ended (h : (p.round s).2 = some status) : p.run (s :: rest) = p.round s := by
  rw [Pipe.run, h, Option.isSome_some, if_pos rfl]

theorem run_cons_open (h : (p.round s).2 = none) : p.run (s :: rest) = (p.round s).1.run rest := by
  rw [Pipe.run, h, Option.isSome_none, if_neg Bool.false_ne_true]

/-- A time in which neither side has anything to read leaves the pipe as it is. -/
theorem run_silent (n : Nat) (selects : List Select) :
    p.run (List.replicate n (.ready false false) ++ selects) = p.run selects := by
  induction n with
  | zero => rfl
  | succ n ih =>
    rw [List.replicate_succ, List.cons_append, run_cons_open rfl]
    exact ih

theorem ended_iff (p : Pipe) (selects : List Select) (status : Ps) :
    (p.run selects).2 = some status ↔
      ∃ before s after, selects = before ++ s :: after ∧ (p.run before).2 = none ∧
        Ends (p.run before).1 s status := by
  induction selects generalizing p with
  | nil => simp [Pipe.run]
  | cons s rest ih =>
    cases hround : (p.round s).2 with
    | some ended =>
      rw [run_cons_ended hround]
      constructor
      · intro h
        exact ⟨[], s, rest, rfl, rfl, round_ends.mp h⟩
      · rintro ⟨before, s', after, heq, hopen, hends⟩
        cases before with
        | nil =>
          cases heq
          exact round_ends.mpr hends
        | cons first before =>
          -- the pipe was not open any more
          cases heq
          rw [run_cons_ended hround, hround] at hopen
          cases hopen
    | none =>
      rw [run_cons_open hround, ih]
      constructor
      · rintro ⟨before, s', after, heq, hopen, hends⟩
        refine ⟨s :: before, s', after, by rw [heq, List.cons_append], ?_, ?_⟩
        · rw [run_cons_open hround]
          exact hopen
        · rw [run_cons_open hround]
          exact hends
      · rintro ⟨before, s', after, heq, hopen, hends⟩
        cases before with
        | nil =>
          cases heq
          rw [show p.run [] = (p, none) from rfl] at hends
          rw [round_ends.mpr hends] at hround
          cases hround
        | cons first before =>
          cases heq
          rw [run_cons_open hround] at hopen hends
          exact ⟨before, s', after, rfl, hopen, hends⟩

/-- The pipe ends in exactly two ways: with success, in the first round in which a side is ready
that has no line more, or with an error, when `select` fails before that. A time without data,
however long, changes nothing. -/
theorem run_ends (p : Pipe) (selects : List Select) :
    (∀ status, (p.run selects).2 = some status ↔
      ∃ before s after, selects = before ++ s :: after ∧ (p.run before).2 = none ∧
        Ends (p.run before).1 s status) ∧
    ∀ n, p.run (List.replicate n (.ready false false) ++ selects) = p.run selects :=
  ⟨ended_iff p selects, fun n => run_silent n selects⟩

/-- A server that says one line and hangs up, and a listener that says `354` before. -/
def samplePipe : Pipe where
  fromServer := Bytes.lit "250\n"
  fromListener := Bytes.lit "354\n"
  toServer := ⟨[], fun _ => 2, 0⟩
  toListener := ⟨[], fun _ => 1, 0⟩
  doingSmtpData := false

theorem samplePipe_accepting : Accepting samplePipe :=
  ⟨fun _ => Int.one_pos, fun _ => (by decide : (0 : Int) < 2)⟩

-- the listener is at its end too, but it is the server that is found there
example : (samplePipe.run [.ready true true, .ready false false]).2 = none ∧
    (samplePipe.run [.ready true true, .ready false false, .ready true false]).2 =
      some .success := by
  decide

end

/-! ## The whole session -/

theorem turnaround_ok {buf : Bytes} (h : turnaround buf = .ok ()) : Bytes.atoi buf = 250 := by
  unfold turnaround at h
  split at h <;> first | assumption | cases h

/-- Every call of the session comes out well. -/
def sampleCalls : Calls where
  ehlo := .success
  atrn := true
  cramMd5 := .success
  reply := .ok (Bytes.lit "250 turnaround")
  setup := true

end Fetchmail.Odmr
