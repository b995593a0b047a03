import Fetchmail.Driver.LoopRule
import Fetchmail.Lib.Bytes

/-!
# The Duplicate Killer

The part of `readheaders` that suppresses all but one copy of a message in a multidrop
mailbox, and what it does over the polls of an account. The digest of the headers is
remembered in the query while the headers are read, when the sink has not yet taken the
message. A copy that is read again after a failed delivery is then refused as a duplicate of
itself, and deleted.

Here `readheaders` is the function up to the label `process_headers`, the duplicate check,
and everything that follows; the first and the last part are open, as is the rest of the
transaction layer.
-/

namespace Fetchmail.Transact.DuplicateKiller

open Fetchmail.Lib
open Fetchmail.Driver

/-! ## The check -/

/-- What is known of a message at the label `process_headers`. -/
structure HeaderInfo where
  retainMail : Bool
  refuseMail : Bool
  /-- `msgblk.headers`; `none` is a null pointer -/
  headers : Option Bytes
  /-- `received_for` -/
  receivedFor : Bool
  /-- `env_offs != -1` -/
  envelope : Bool
  /-- `delivered_to` -/
  deliveredTo : Bool
  deriving DecidableEq, Repr

/-- An address that the copy was sent to is known. -/
def HeaderInfo.addressed (h : HeaderInfo) : Bool := h.receivedFor || h.envelope || h.deliveredTo

/-- What reading the header lines comes to. -/
structure Reading where
  /-- an error on which `readheaders` returns at once -/
  failure : Option Ps
  info : HeaderInfo
  suppressReadbody : Bool
  msglen : Int
  deriving DecidableEq, Repr

/-- What has happened to the messages of the account. -/
inductive Event where
  /-- `readheaders` was called, the digest was made (with `addressed`), and the message was
  refused as a duplicate -/
  | message (digest : Option (Bytes × Bool)) (refused : Bool)
  | closed (forward ok : Bool)
  deriving DecidableEq, Repr

/-- The world, with `ctl->lastdigest`; `log` is for the statements only. -/
structure Account (σ : Type) where
  lastdigest : Bytes
  log : List Event
  world : σ

/-- The settings, and the parts of the transaction layer around the check. -/
structure Env (σ : Type) where
  /-- `MULTIDROP(ctl)` -/
  multidrop : Bool
  md5 : Bytes → Bytes
  readLines : Int → Int → Nat → Bool → σ → Reading × σ
  /-- from the fake headers on: addressing, `open_sink`, the header lines -/
  process : HeaderInfo → σ → Ps × σ
  readbody : Bool → Int → σ → Ps × σ
  closeSink : Bool → σ → Bool × σ

section

variable {σ : Type} (e : Env σ)

/-- Add to the log. -/
def Account.note (k : Account σ) (event : Event) : Account σ := { k with log := k.log ++ [event] }

/-- Something happens in the world. -/
def Account.lift {α : Type} (f : σ → α × σ) (k : Account σ) : α × Account σ :=
  ((f k.world).1, { k with world := (f k.world).2 })

/-- The digest of the message, if one is made. -/
def digestOf (h : HeaderInfo) : Option Bytes :=
  if e.multidrop then h.headers.map e.md5 else none

/-- From the label `process_headers` on. -/
def processHeaders (h : HeaderInfo) (k : Account σ) : Ps × Account σ :=
  if h.retainMail then (.retained, k.note (.message none false))
  else if h.refuseMail then (.refused, k.note (.message none false))
  else
    match digestOf e h with
    | none => (k.note (.message none false)).lift (e.process h)
    | some digest =>
      if !h.addressed && k.lastdigest = digest then
        (.refused, k.note (.message (some (digest, h.addressed)) true))
      else
        ({ k with lastdigest := digest }.note (.message (some (digest, h.addressed)) false)).lift
          (e.process h)

/-- `readheaders` -/
def readheaders (reallen fetchlen : Int) (num : Nat) (pointer : Bool) (k : Account σ) :
    HeaderResult × Account σ :=
  let (r, k) := k.lift (e.readLines reallen fetchlen num pointer)
  match r.failure with
  | some err => (⟨err, r.suppressReadbody, r.msglen⟩, k.note (.message none false))
  | none =>
    let (err, k) := processHeaders e r.info k
    (⟨err, r.suppressReadbody, r.msglen⟩, k)

/-- The transaction layer of the driver. -/
def transact : Transact (Account σ) where
  readheaders := readheaders e
  readbody := fun forward len k => k.lift (e.readbody forward len)
  closeSink := fun forward k =>
    let (ok, k) := k.lift (e.closeSink forward)
    (ok, k.note (.closed forward ok))

/-- The methods of a protocol have nothing to do with the check. -/
def method (m : Method σ) : Method (Account σ) where
  isOld := m.isOld.map fun f num => Account.lift (f num)
  getpartialsizes := m.getpartialsizes.map fun f first last sizes =>
    Account.lift (f first last sizes)
  fetchHeaders := fun num => Account.lift (m.fetchHeaders num)
  fetchBody := m.fetchBody.map fun f num => Account.lift (f num)
  trail := m.trail.map fun f => Account.lift f
  deleteMsg := m.deleteMsg.map fun f num => Account.lift (f num)
  markSeen := m.markSeen.map fun f num => Account.lift (f num)

/-! ## Polls -/

/-- One poll: what has changed since the last one, and the arguments of `fetch_messages`. -/
structure Poll (σ : Type) where
  meanwhile : σ → σ
  ctl : Ctl
  maxfetch : Int
  count : Nat
  loop : Loop

/-- The polls of an account, one after the other. -/
def runPolls (m : Method σ) : List (Poll σ) → Act (Account σ) Call Unit
  | [] => return ()
  | p :: polls => do
    Act.modify fun k => { k with world := p.meanwhile k.world }
    let _ ← fetchMessages p.ctl (method m) (transact e) p.maxfetch p.count p.loop
    runPolls m polls

/-! ## What the log tells -/

/-- The digest of the last message of which one was made. -/
def lastDigest (init : Bytes) (log : List Event) : Bytes :=
  log.foldl (fun last event =>
    match event with
    | .message (some (digest, _)) _ => digest
    | _ => last) init

/-- The event belongs to the message that was read last. -/
def Event.sameMessage : Event → Prop
  | .message .. => False
  | .closed .. => True

/-- A message with this digest was delivered: `close_sink` returned `TRUE` for it. -/
def Delivered (digest : Bytes) (log : List Event) : Prop :=
  ∃ before addressed refused between after,
    log = before ++ .message (some (digest, addressed)) refused :: between ++
      .closed true true :: after ∧ ∀ event ∈ between, event.sameMessage

/-- **Soundness of the duplicate killer**: what it refuses was delivered before. -/
def Sound (log : List Event) : Prop :=
  Guarded (fun before event => ∀ digest addressed,
    event = .message (some (digest, addressed)) true → Delivered digest before) log

/-- A message whose recipients have to be guessed comes directly after one with the same
headers only when one with these headers was delivered. -/
def RepeatsDelivered (init : Bytes) (log : List Event) : Prop :=
  Guarded (fun before event => ∀ digest refused,
    event = .message (some (digest, false)) refused →
      lastDigest init before = digest → Delivered digest before) log

/-! ## The invariant -/

/-- The verdicts in the log are those of the check on the digest before. -/
structure Consistent (init : Bytes) (k : Account σ) : Prop where
  lastdigest : k.lastdigest = lastDigest init k.log
  verdicts : Guarded (fun before event => ∀ digest addressed refused,
    event = .message (some (digest, addressed)) refused →
      (refused = true ↔ addressed = false ∧ lastDigest init before = digest)) k.log

variable {e} {init : Bytes} {k : Account σ}

theorem Consistent.lift {α : Type} (h : Consistent init k) (f : σ → α × σ) :
    Consistent init (k.lift f).2 := ⟨h.lastdigest, h.verdicts⟩

theorem lastDigest_append (log : List Event) (event : Event) :
    lastDigest init (log ++ [event]) =
      match event with
      | .message (some (digest, _)) _ => digest
      | _ => lastDigest init log := by
  rw [lastDigest, List.foldl_append]
  rfl

/-- An event that is no digest changes nothing. -/
theorem Consistent.note {event : Event} (h : Consistent init k)
    (hevent : ∀ digest refused, event ≠ .message (some digest) refused) :
    Consistent init (k.note event) where
  lastdigest := by
    rw [Account.note, lastDigest_append]
    cases event with
    | closed forward ok => exact h.lastdigest
    | message digest refused =>
      cases digest with
      | none => exact h.lastdigest
      | some digest => exact absurd rfl (hevent digest refused)
  verdicts := by
    rw [Account.note, guarded_append]
    refine ⟨h.verdicts, ?_⟩
    simp only [guarded_cons, guarded_nil, and_true]
    intro digest addressed refused heq
    exact absurd heq (hevent _ _)

/-- The check, with its verdict. -/
theorem Consistent.digested (h : Consistent init k) (digest : Bytes) (addressed refused : Bool)
    (hrefused : refused = true ↔ addressed = false ∧ k.lastdigest = digest) :
    Consistent init
      ({ k with lastdigest := digest }.note (.message (some (digest, addressed)) refused)) where
  lastdigest := by
    rw [Account.note, lastDigest_append]
  verdicts := by
    rw [Account.note, guarded_append]
    refine ⟨h.verdicts, ?_⟩
    simp only [guarded_cons, guarded_nil, and_true, List.append_nil]
    rintro digest' addressed' refused' heq
    cases heq
    rw [← h.lastdigest]
    exact hrefused

theorem Consistent.processHeaders (h : Consistent init k) (info : HeaderInfo) :
    Consistent init (processHeaders e info k).2 := by
  have hnone : Consistent init (k.note (.message none false)) := h.note (by simp)
  unfold DuplicateKiller.processHeaders
  split
  · exact hnone
  split
  · exact hnone
  cases digestOf e info with
  | none => exact hnone.lift _
  | some digest =>
    cases haddressed : info.addressed with
    | true => exact (h.digested digest true false (by simp)).lift _
    | false =>
      by_cases heq : k.lastdigest = digest
      · -- a duplicate
        subst heq
        simpa using h.digested k.lastdigest false true (by simp)
      · simpa [heq] using (h.digested digest false false (by simp [heq])).lift (e.process info)

theorem Consistent.readheaders (h : Consistent init k) (reallen fetchlen : Int) (num : Nat)
    (pointer : Bool) :
    Consistent init (readheaders e reallen fetchlen num pointer k).2 := by
  have hread := h.lift (e.readLines reallen fetchlen num pointer)
  unfold DuplicateKiller.readheaders
  generalize k.lift (e.readLines reallen fetchlen num pointer) = p at hread ⊢
  obtain ⟨r, k₁⟩ := p
  cases hfailure : r.failure with
  | some err =>
    have hnote : Consistent init (k₁.note (.message none false)) := hread.note (by simp)
    simpa [hfailure] using hnote
  | none => simpa [hfailure] using hread.processHeaders r.info

/-- The invariant holds all through a pass. -/
theorem invariant_consistent (m : Method σ) :
    Invariant (method m) (transact e) (Consistent init) where
  isOld := by
    intro f hf num k h
    obtain ⟨g, -, rfl⟩ := Option.map_eq_some_iff.mp hf
    exact h.lift _
  getpartialsizes := by
    intro f hf first last sizes k h
    obtain ⟨g, -, rfl⟩ := Option.map_eq_some_iff.mp hf
    exact h.lift _
  fetchHeaders := fun num k h => h.lift _
  fetchBody := by
    intro f hf num k h
    obtain ⟨g, -, rfl⟩ := Option.map_eq_some_iff.mp hf
    exact h.lift _
  trail := by
    intro f hf k h
    obtain ⟨g, -, rfl⟩ := Option.map_eq_some_iff.mp hf
    exact h.lift _
  deleteMsg := by
    intro f hf num k h
    obtain ⟨g, -, rfl⟩ := Option.map_eq_some_iff.mp hf
    exact h.lift _
  markSeen := by
    intro f hf num k h
    obtain ⟨g, -, rfl⟩ := Option.map_eq_some_iff.mp hf
    exact h.lift _
  readheaders := fun len size num b k h => h.readheaders len size num b
  readbody := fun forward len k h => h.lift _
  -- only the sink is noted; every other call leaves the killer alone
  closeSink := fun forward k h => (h.lift _).note (by simp)

/-- ... and over all polls. -/
theorem runPolls_consistent (m : Method σ) (polls : List (Poll σ)) (h : Consistent init k) :
    (runPolls e m polls).wp (fun _ k' _ => Consistent init k') k := by
  induction polls generalizing k with
  | nil => exact h
  | cons p polls ih =>
    unfold runPolls
    simp only [Act.wp_bind, Act.wp_modify]
    have hstart : Consistent init { k with world := p.meanwhile k.world } :=
      ⟨h.lastdigest, h.verdicts⟩
    refine Act.wp_mono (fetchMessages_invariant (invariant_consistent m) _ _ _ hstart)
      fun _ k₁ _ h₁ => ?_
    exact ih h₁

/-- **The duplicate killer is sound in exactly the runs in which no message with the headers
of the one before has to be refused for want of a delivery.** -/
theorem runPolls_sound_iff (e : Env σ) (m : Method σ) (polls : List (Poll σ)) (init : Bytes)
    (world : σ) :
    (runPolls e m polls).wp (fun _ k _ => Sound k.log ↔ RepeatsDelivered init k.log)
      ⟨init, [], world⟩ := by
  have hinit : Consistent init (⟨init, [], world⟩ : Account σ) := ⟨rfl, guarded_nil⟩
  refine Act.wp_mono (runPolls_consistent m polls hinit) fun _ k _ hk => ?_
  constructor
  · intro hsound before event after hlog digest refused heq hlast
    have hrefused := hk.verdicts before event after hlog digest false refused heq
    obtain rfl : refused = true := hrefused.mpr ⟨rfl, hlast⟩
    exact hsound before event after hlog digest false heq
  · intro hrepeats before event after hlog digest addressed heq
    obtain ⟨rfl, hlast⟩ := (hk.verdicts before event after hlog digest addressed true heq).mp rfl
    exact hrepeats before event after hlog digest true heq hlast

end

/-! ## A message that is lost -/

/-- The headers of the message. -/
def lostHeaders : Bytes := Bytes.lit "Subject: hi\n"

/-- An account of which every message is this one, and a listener that is down at first; the
world counts the attempts to address a message. -/
def lostEnv : Env Nat where
  multidrop := true
  md5 := fun _ => [11, 146, 5, 198, 207, 84, 36, 93, 247, 119, 77, 49, 156, 91, 145, 32]
  readLines := fun _ _ _ _ n =>
    (⟨none, ⟨false, false, some lostHeaders, false, false, false⟩, false, 12⟩, n)
  process := fun _ n => (if n = 0 then .transient else .success, n + 1)
  readbody := fun _ _ n => (.success, n)
  closeSink := fun _ n => (true, n)

/-- A protocol that fetches whole messages. -/
def lostMethod : Method Nat where
  isOld := none
  getpartialsizes := none
  fetchHeaders := fun _ n => ((.success, 100), n)
  fetchBody := none
  trail := none
  deleteMsg := some fun _ n => (.success, n)
  markSeen := none

/-- A poll that finds the message. -/
def lostPoll : Poll Nat where
  meanwhile := id
  ctl := ⟨.pop3, false, false, false, 0, false, 0, 0, false, true⟩
  maxfetch := 0
  count := 1
  loop := ⟨1, 0, none, 0, 0, 0, 0, 0⟩

/-- After a failed delivery the message is read again, refused as a duplicate, and deleted. -/
theorem lost_not_sound :
    (runPolls lostEnv lostMethod [lostPoll, lostPoll]).wp
      (fun _ k tr => ¬ Sound k.log ∧ .deleteMsg 1 .success ∈ tr ∧
        ∀ ok, .closed true ok ∉ k.log) ⟨List.replicate 16 0, [], 0⟩ := by
  have hlog : ((runPolls lostEnv lostMethod [lostPoll, lostPoll]).run
      ⟨List.replicate 16 0, [], 0⟩).state.log =
      [.message (some (lostEnv.md5 lostHeaders, false)) false, .closed false true,
        .message (some (lostEnv.md5 lostHeaders, false)) true, .closed false true] := by decide
  refine ⟨?_, by decide, ?_⟩
  · rw [hlog]
    intro hsound
    obtain ⟨before, addressed, refused, between, after, heq, -⟩ :=
      hsound [.message (some (lostEnv.md5 lostHeaders, false)) false, .closed false true] _ _
        rfl _ _ rfl
    have hmem : Event.closed true true ∈
        before ++ .message (some (lostEnv.md5 lostHeaders, addressed)) refused :: between ++
          .closed true true :: after := by simp
    rw [← heq] at hmem
    simp at hmem
  · rw [hlog]
    simp

end Fetchmail.Transact.DuplicateKiller
