import Fetchmail.Lib.Steps
import Fetchmail.Sink.Dialogue

/-!
# The Batch Limit

`batchlimit` bounds how many messages one connection to the listener carries. `smtp_setup`
counts a message in `batchcount` before it looks whether a connection is open, and
`smtp_close` sets the count to zero. So a host that is hung up on during the hunt, because it
did not take `EHLO`, takes the message at hand out of the count; if a connection comes about
after that, it carries one message too many.
-/

namespace Fetchmail.Sink

open Fetchmail.Lib
open Fetchmail.Driver

/-! ## The hunt for a listener -/

/-- What a host of the hunt list does on the two connections that may be made to it: there is
none, or the greeting and the command are fine or not. With ODMR nothing is said on the first,
which counts as fine. -/
structure HuntHost where
  ehlo : Option Bool
  helo : Option Bool
  deriving DecidableEq, Repr

/-- One turn of the loop in `smtp_setup`: whether a connection is up, and `batchcount`, which
every `smtp_close` sets to zero. -/
def HuntHost.probe (h : HuntHost) (batchcount : Nat) : Bool × Nat :=
  match h.ehlo, h.helo with
  | none, _ => (false, batchcount)
  | some true, _ => (true, batchcount)
  -- the socket may not be good any more: hang up, and ask another time with `HELO`
  | some false, none => (false, 0)
  | some false, some true => (true, 0)
  | some false, some false => (false, 0)

/-- Run down the hunt list. -/
def huntHosts : List HuntHost → (batchcount : Nat) → Bool × Nat
  | [], batchcount => (false, batchcount)
  | h :: hs, batchcount =>
    let r := h.probe batchcount
    if r.1 then r else huntHosts hs r.2

/-- The first host that a connection can be made to takes `EHLO`. -/
def EhloTaken (hosts : List HuntHost) : Prop :=
  (hosts.find? fun h => h.ehlo.isSome).map HuntHost.ehlo = some (some true)

/-- What the hunt finds does not depend on the count, which is kept or set to zero. -/
theorem huntHosts_count (hosts : List HuntHost) (batchcount : Nat) :
    huntHosts hosts batchcount =
      ((huntHosts hosts 1).1, if (huntHosts hosts 1).2 = 0 then 0 else batchcount) := by
  have hzero : ∀ hosts, huntHosts hosts 0 = ((huntHosts hosts 1).1, 0) := by
    intro hosts
    induction hosts with
    | nil => rfl
    | cons h hs ih =>
      obtain ⟨ehlo, helo⟩ := h
      rcases ehlo with _ | _ | _ <;> rcases helo with _ | _ | _ <;>
        simp [huntHosts, HuntHost.probe, ih]
  induction hosts with
  | nil => simp [huntHosts]
  | cons h hs ih =>
    obtain ⟨ehlo, helo⟩ := h
    have hz := hzero hs
    rcases ehlo with _ | _ | _ <;> rcases helo with _ | _ | _ <;>
      simp [huntHosts, HuntHost.probe, hz, ← ih]

/-- If the first host that is reached takes `EHLO`, nobody is hung up on. -/
theorem huntHosts_kept {hosts : List HuntHost} (h : EhloTaken hosts) :
    (huntHosts hosts 1).2 ≠ 0 := by
  induction hosts with
  | nil => simp [huntHosts]
  | cons host hs ih =>
    obtain ⟨ehlo, helo⟩ := host
    unfold EhloTaken at h ih
    rcases ehlo with _ | _ | _
    · exact ih h
    · simp at h
    · simp [huntHosts, HuntHost.probe]

/-! ## What a connection has carried -/

/-- Count the transactions on a connection. -/
def carry (n : Nat) : Wire → Nat
  | .opened => 0
  | .exchange .mailFrom _ _ => n + 1
  | _ => n

/-- How many transactions have begun since the last connection was made. -/
def carried (wire : List Wire) : Nat := wire.foldl carry 0

/-- At no time has a connection carried more than the limit. -/
def WithinLimit (limit : Int) (wire : List Wire) : Prop :=
  ∀ sofar, sofar <+: wire → (carried sofar : Int) ≤ limit

/-- Neither a new connection nor a new transaction. -/
def Wire.goesOn (e : Wire) : Prop := ∀ n, carry n e = n

theorem carried_snoc (wire : List Wire) (e : Wire) :
    carried (wire ++ [e]) = carry (carried wire) e := by
  rw [carried, List.foldl_append]
  rfl

theorem withinLimit_snoc {limit : Int} {wire : List Wire} {e : Wire} (h : WithinLimit limit wire)
    (he : (carried (wire ++ [e]) : Int) ≤ limit) : WithinLimit limit (wire ++ [e]) := by
  intro sofar hsofar
  rcases List.prefix_concat_iff.mp hsofar with rfl | hprefix
  · exact he
  · exact h sofar hprefix

/-- One more entry that only goes on. -/
theorem withinLimit_goesOn {limit : Int} {wire : List Wire} {e : Wire} (he : e.goesOn)
    (h : WithinLimit limit wire) : WithinLimit limit (wire ++ [e]) := by
  apply withinLimit_snoc h
  rw [carried_snoc, he]
  exact h wire (List.prefix_refl _)

section

variable {ω : Type} {k : SinkCtl} {x : External ω} {w w' w'' : Listener ω}

/-! ## What the dialogue does to the count -/

/-- No transaction begins and no connection is made; the count stays, or the connection is
closed. -/
structure Onward (w w' : Listener ω) : Prop where
  carried : Sink.carried w'.wire = Sink.carried w.wire
  within : ∀ limit, WithinLimit limit w.wire → WithinLimit limit w'.wire
  count : (w'.isOpen = w.isOpen ∧ w'.batchcount = w.batchcount) ∨
    (w'.isOpen = false ∧ w'.batchcount = 0)

theorem onward_refl (w : Listener ω) : Onward w w := ⟨rfl, fun _ h => h, .inl ⟨rfl, rfl⟩⟩

theorem Onward.trans (h : Onward w w') (h' : Onward w' w'') : Onward w w'' where
  carried := h'.carried.trans h.carried
  within limit hw := h'.within limit (h.within limit hw)
  count := by
    rcases h'.count with ⟨hopen', hcount'⟩ | hclosed'
    · rcases h.count with ⟨hopen, hcount⟩ | ⟨hopen, hcount⟩
      · exact .inl ⟨hopen'.trans hopen, hcount'.trans hcount⟩
      · exact .inr ⟨hopen'.trans hopen, hcount'.trans hcount⟩
    · exact .inr hclosed'

/-- Nothing of the connection changes. -/
theorem onward_of_eq (hwire : w'.wire = w.wire) (hopen : w'.isOpen = w.isOpen)
    (hcount : w'.batchcount = w.batchcount) : Onward w w' where
  carried := by rw [hwire]
  within limit h := by rwa [hwire]
  count := .inl ⟨hopen, hcount⟩

theorem onward_snoc {e : Wire} (he : e.goesOn) (hwire : w'.wire = w.wire ++ [e])
    (hcount : (w'.isOpen = w.isOpen ∧ w'.batchcount = w.batchcount) ∨
      (w'.isOpen = false ∧ w'.batchcount = 0)) : Onward w w' where
  carried := by rw [hwire, carried_snoc, he]
  within limit h := by
    rw [hwire]
    exact withinLimit_goesOn he h
  count := hcount

/-- A part of the dialogue within one transaction. -/
abbrev StepsOnward {α : Type} (a : SmtpM ω α) : Prop := Act.Steps Onward a

theorem onward_pure {α : Type} (a : α) : StepsOnward (pure a : SmtpM ω α) :=
  Act.steps_pure onward_refl a

theorem onward_gets {α : Type} (f : Listener ω → α) : StepsOnward (Act.gets f : SmtpM ω α) :=
  Act.steps_gets onward_refl f

theorem StepsOnward.bind {α β : Type} {a : SmtpM ω α} {f : α → SmtpM ω β} (ha : StepsOnward a)
    (hf : ∀ v, StepsOnward (f v)) : StepsOnward (a >>= f) :=
  Act.Steps.bind (R := Onward) (fun h h' => h.trans h') ha hf

theorem smtpOk_onward {stage : Stage} (hstage : stage ≠ .mailFrom) :
    StepsOnward (smtpOk stage : SmtpM ω SmtpStatus) := by
  -- only `MAIL FROM` begins a transaction
  have he : ∀ status text, (Wire.exchange stage status text).goesOn := by
    intro status text n
    cases stage <;> first | rfl | exact absurd rfl hstage
  apply StepsOnward.bind (onward_gets _)
  rintro ⟨status, text, replies⟩
  dsimp only
  apply StepsOnward.bind
  · exact Act.steps_modify fun w => onward_snoc (he status text) rfl (.inl ⟨rfl, rfl⟩)
  · intro _
    apply Act.Steps.ite
    · exact StepsOnward.bind (Act.steps_emit onward_refl _) fun _ => onward_pure _
    · exact onward_pure _

theorem smtpClose_onward (sayquit : Bool) : StepsOnward (smtpClose sayquit : SmtpM ω Unit) := by
  intro w
  -- the count is set to zero in either case
  have hclose : ∀ w : Listener ω, Onward w
      { w with isOpen := false, replies := [], wire := w.wire ++ [.closed], batchcount := 0 } :=
    fun w => onward_snoc (fun _ => rfl) rfl (.inr ⟨rfl, rfl⟩)
  by_cases hopen : w.isOpen = true
  · cases sayquit with
    | false =>
      simpa [smtpClose, hopen] using hclose w
    | true =>
      have hquit := @smtpOk_onward ω .quit (by decide) w
      have hall := hquit.trans (hclose _)
      simpa [smtpClose, hopen] using hall
  · rw [Bool.not_eq_true] at hopen
    have hstay : Onward w { w with batchcount := 0 } :=
      ⟨rfl, fun _ h => h, .inr ⟨hopen, rfl⟩⟩
    simpa [smtpClose, hopen] using hstay

theorem smtpRset_onward : StepsOnward (smtpRset : SmtpM ω Unit) := by
  apply StepsOnward.bind (smtpOk_onward (by decide))
  intro status
  exact Act.Steps.ite (smtpClose_onward _) (onward_pure _)

/-! ### Bounces -/

theorem bounceDialogue_onward (f : Bytes × ω → Bool × Bytes × ω) :
    StepsOnward (bounceDialogue f) :=
  Act.steps_lift fun _ => onward_of_eq rfl rfl rfl

theorem sendBouncemail_onward (userclass : Xmit) (message : Bytes) (errors : List Bytes) :
    StepsOnward (sendBouncemail k x userclass message errors) := by
  unfold sendBouncemail
  apply StepsOnward.bind (onward_gets _)
  intro msg
  apply Act.Steps.ite (onward_pure _)
  apply StepsOnward.bind (bounceDialogue_onward _)
  intro accepted
  apply Act.Steps.ite (onward_pure _)
  apply StepsOnward.bind (onward_gets _)
  intro destaddr
  apply StepsOnward.bind
  · exact Act.steps_modify fun _ => onward_of_eq rfl rfl rfl
  · exact fun _ => bounceDialogue_onward _

theorem bounceIf_onward (wanted : Bool) (message response : Bytes) :
    StepsOnward (bounceIf k x wanted message response) := by
  unfold bounceIf
  apply Act.Steps.ite _ (onward_pure _)
  exact StepsOnward.bind (sendBouncemail_onward _ _ _) fun _ => onward_pure _

theorem handleSmtpReport_onward : StepsOnward (handleSmtpReport k x) := by
  unfold handleSmtpReport
  apply StepsOnward.bind (onward_gets _)
  intro response
  apply Act.Steps.ite (StepsOnward.bind (bounceIf_onward _ _ _) fun _ => onward_pure _)
  apply Act.Steps.ite (StepsOnward.bind (bounceIf_onward _ _ _) fun _ => onward_pure _)
  apply Act.Steps.ite (onward_pure _)
  apply Act.Steps.ite (onward_pure _)
  apply Act.Steps.ite (StepsOnward.bind (bounceIf_onward _ _ _) fun _ => onward_pure _)
  exact onward_pure _

/-! ### The rest of a transaction -/

theorem rcptTo_onward (r : Recipient) (t : Tally) :
    StepsOnward (rcptTo k r t : SmtpM ω (Option (Recipient × Tally))) := by
  unfold rcptTo
  apply Act.Steps.ite (onward_pure _)
  apply StepsOnward.bind (smtpOk_onward (by decide))
  intro status
  cases status with
  | unrecoverable => exact onward_pure _
  | ok => exact onward_pure _
  | error =>
    apply StepsOnward.bind (onward_gets _)
    intro response
    split <;> exact onward_pure _

theorem rcptLoop_onward (rs : List Recipient) (t : Tally) :
    StepsOnward (rcptLoop k rs t : SmtpM ω (Bool × Tally × List Recipient)) := by
  -- recipient by recipient
  induction rs generalizing t with
  | nil => exact onward_pure _
  | cons r rs ih =>
    apply StepsOnward.bind (rcptTo_onward r t)
    intro o
    cases o with
    | none => exact onward_pure _
    | some p => exact StepsOnward.bind (ih p.2) fun _ => onward_pure _

theorem rcptPostmaster_onward : StepsOnward (rcptPostmaster k : SmtpM ω (Option Ps)) := by
  unfold rcptPostmaster
  apply Act.Steps.ite (StepsOnward.bind smtpRset_onward fun _ => onward_pure _)
  apply StepsOnward.bind (smtpOk_onward (by decide))
  intro status
  cases status with
  | unrecoverable => exact StepsOnward.bind (smtpClose_onward _) fun _ => onward_pure _
  | error => exact StepsOnward.bind smtpRset_onward fun _ => onward_pure _
  | ok => exact onward_pure _

theorem openData_onward (good : Nat) : StepsOnward (openData k x good) := by
  apply StepsOnward.bind (smtpOk_onward (by decide))
  intro status
  cases status with
  | unrecoverable => exact StepsOnward.bind (smtpClose_onward _) fun _ => onward_pure _
  | error =>
    apply StepsOnward.bind handleSmtpReport_onward
    exact fun _ => StepsOnward.bind smtpRset_onward fun _ => onward_pure _
  | ok =>
    apply StepsOnward.bind _ fun _ => onward_pure _
    exact Act.steps_modify fun _ => onward_of_eq rfl rfl rfl

theorem openMessage_onward (good : Nat) : StepsOnward (openMessage k x good) := by
  unfold openMessage
  apply Act.Steps.ite _ (openData_onward good)
  apply StepsOnward.bind rcptPostmaster_onward
  intro o
  cases o with
  | none => exact openData_onward good
  | some err => exact onward_pure _

theorem bounceRejected_onward (fromResponses : List Bytes) :
    StepsOnward (bounceRejected k x fromResponses) := by
  unfold bounceRejected
  apply Act.Steps.ite _ (onward_pure _)
  exact StepsOnward.bind (sendBouncemail_onward _ _ _) fun _ => onward_pure _

theorem openRecipients_onward : StepsOnward (openRecipients k x) := by
  apply StepsOnward.bind (onward_gets _)
  intro msg
  apply StepsOnward.bind (rcptLoop_onward _ _)
  rintro ⟨lasted, t, recipients⟩
  dsimp only
  apply StepsOnward.bind
  · exact Act.steps_modify fun _ => onward_of_eq rfl rfl rfl
  intro _
  apply Act.Steps.ite (StepsOnward.bind (smtpClose_onward _) fun _ => onward_pure _)
  apply Act.Steps.ite (StepsOnward.bind smtpRset_onward fun _ => onward_pure _)
  apply StepsOnward.bind (bounceRejected_onward _)
  exact fun _ => StepsOnward.bind (openMessage_onward _) fun _ => onward_pure _

/-! ### The end of a message -/

theorem lmtpReplies_onward (n : Nat) (errors : List Bytes) :
    StepsOnward (lmtpReplies n errors : SmtpM ω (Option (List Bytes))) := by
  induction n generalizing errors with
  | zero => exact onward_pure _
  | succ n ih =>
    apply StepsOnward.bind (smtpOk_onward (by decide))
    intro status
    cases status with
    | unrecoverable => exact onward_pure _
    | ok => exact ih _
    | error => exact StepsOnward.bind (onward_gets _) fun _ => ih _

theorem lmtpEom_onward : StepsOnward (lmtpEom k x) := by
  apply StepsOnward.bind (onward_gets _)
  intro responses
  apply Act.Steps.ite
  · exact StepsOnward.bind (smtpOk_onward (by decide)) fun _ => onward_pure _
  apply StepsOnward.bind (lmtpReplies_onward _ _)
  rintro (_ | _ | ⟨error, errors⟩)
  · exact StepsOnward.bind (smtpClose_onward _) fun _ => onward_pure _
  · exact onward_pure _
  · apply StepsOnward.bind (sendBouncemail_onward _ _ _)
    exact fun _ => StepsOnward.bind (Act.steps_emit onward_refl _) fun _ => onward_pure _

theorem smtpEom_onward : StepsOnward (smtpEom : SmtpM ω SmtpStatus) := by
  apply StepsOnward.bind (onward_gets _)
  intro mode
  cases mode with
  | smtp => exact smtpOk_onward (by decide)
  | lmtp =>
    apply StepsOnward.bind _ fun _ => onward_pure _
    exact Act.steps_modify fun _ => onward_snoc (fun _ => rfl) rfl (.inl ⟨rfl, rfl⟩)

theorem closeSink_onward (forward : Bool) : StepsOnward (closeSink k x forward) := by
  apply Act.Steps.ite (onward_pure _)
  apply StepsOnward.bind smtpEom_onward
  intro status
  cases status with
  | unrecoverable => exact StepsOnward.bind (smtpClose_onward _) fun _ => onward_pure _
  | error =>
    apply StepsOnward.bind handleSmtpReport_onward
    exact fun _ => StepsOnward.bind smtpRset_onward fun _ => onward_pure _
  | ok =>
    apply StepsOnward.bind (onward_gets _)
    intro mode
    cases mode with
    | smtp => exact onward_pure _
    | lmtp => exact lmtpEom_onward

/-! ## The count bounds what a connection has carried -/

/-- What holds between messages. -/
structure Batched (k : SinkCtl) (w : Listener ω) : Prop where
  within : WithinLimit k.batchlimit w.wire
  count_le : (w.batchcount : Int) ≤ k.batchlimit
  counted : w.isOpen = true → carried w.wire ≤ w.batchcount

/-- The message at hand is in the count. -/
def Due (w : Listener ω) : Prop := w.isOpen = true → carried w.wire + 1 ≤ w.batchcount

theorem Batched.onward (hpos : 0 < k.batchlimit) (h : Batched k w) (hon : Onward w w') :
    Batched k w' where
  within := hon.within _ h.within
  count_le := by
    -- the count stays, or it is zero with the connection closed
    rcases hon.count with ⟨-, hcount⟩ | ⟨-, hcount⟩
    · exact hcount ▸ h.count_le
    · rw [hcount]
      exact Int.le_of_lt hpos
  counted hopen := by
    rcases hon.count with ⟨hsame, hcount⟩ | ⟨hclosed, -⟩
    · rw [hon.carried, hcount]
      exact h.counted (hsame ▸ hopen)
    · rw [hclosed] at hopen
      cases hopen

theorem closeStale_onward : StepsOnward (closeStale x) := by
  unfold closeStale
  apply StepsOnward.bind (Act.steps_lift fun _ => onward_of_eq rfl rfl rfl)
  exact fun _ => Act.Steps.ite (smtpClose_onward _) (onward_pure _)

theorem smtpClose_closes (sayquit : Bool) :
    (smtpClose sayquit : SmtpM ω Unit).wp (fun _ w' _ => w'.isOpen = false ∧ w'.batchcount = 0)
      w := by
  unfold Act.wp
  cases sayquit <;> cases hopen : w.isOpen <;> simp [smtpClose, hopen]

/-- The message is counted, after the connection has been closed if it is full. -/
theorem closeBatch_due (hpos : 0 < k.batchlimit) (h : Batched k w) :
    (closeBatch k : SmtpM ω Unit).wp (fun _ w' _ =>
      Batched k w' ∧ Due w' ∧ 1 ≤ w'.batchcount) w := by
  unfold closeBatch
  simp only [if_pos hpos, Act.wp_bind, Act.wp_gets, Act.wp_ite, Act.wp_modify]
  constructor
  -- the connection is full, and is closed
  · intro _
    refine Act.wp_mono (Act.wp_and (smtpClose_closes true)
      (Q := _) (R := fun _ w' _ => Onward w w') (smtpClose_onward true w)) fun _ w₁ _ h₁ => ?_
    obtain ⟨⟨hopen, hcount⟩, hon⟩ := h₁
    have hnot : w₁.isOpen ≠ true := by simp [hopen]
    refine ⟨⟨hon.within _ h.within, ?_, fun h => absurd h hnot⟩, fun h => absurd h hnot, ?_⟩
    · simp only [hcount]
      omega
    · exact Nat.le_add_left _ _
  -- there is room for one more
  · intro hnot
    refine ⟨⟨h.within, ?_, ?_⟩, ?_, Nat.le_add_left _ _⟩
    · have hle := h.count_le
      push_cast
      omega
    · exact fun hopen => Nat.le_succ_of_le (h.counted hopen)
    · exact fun hopen => Nat.succ_le_succ (h.counted hopen)

/-- The external functions, with a hunt that runs down a list of hosts. -/
def External.through (x : External ω) (hosts : ω → List HuntHost) : External ω :=
  { x with
    hunt := fun rest =>
      let (h, rest') := x.hunt rest
      let r := huntHosts (hosts rest) 1
      ({ h with found := r.1, hungUp := r.2 = 0 }, rest') }

variable {hosts : ω → List HuntHost}

/-- The hunt leaves the count that `smtp_setup` would have. -/
theorem raiseListener_count (w : Listener ω) :
    let w' := ((raiseListener (x.through hosts)).run w).state
    (w'.isOpen, w'.batchcount) = huntHosts (hosts w.rest) w.batchcount := by
  rw [huntHosts_count]
  simp [raiseListener, External.through]

/-- Where the hunt would start. -/
def beforeHunt (k : SinkCtl) (x : External ω) (w : Listener ω) : Listener ω :=
  ((do closeStale x; closeBatch k : SmtpM ω Unit).run w).state

/-- If a listener is looked for and found, then the first host that was reached took `EHLO`. -/
def HuntKeeps (k : SinkCtl) (x : External ω) (hosts : ω → List HuntHost) (w : Listener ω) :
    Prop :=
  let before := beforeHunt k (x.through hosts) w
  before.isOpen = false → (huntHosts (hosts before.rest) 1).1 = true →
    EhloTaken (hosts before.rest)

/-- That is so with every message of a run. -/
def Kept (k : SinkCtl) (x : External ω) (hosts : ω → List HuntHost) :
    List Move → Listener ω → Prop
  | [], _ => True
  | m :: ms, w =>
    (match m with
      | .deliver msg _ => HuntKeeps k x hosts { w with msg := msg }
      | .leave _ => True) ∧
    Kept k x hosts ms ((m.make k (x.through hosts)).run w).state

theorem smtpSetup_batched (hpos : 0 < k.batchlimit) (h : Batched k w)
    (hkeeps : HuntKeeps k x hosts w) :
    (smtpSetup k (x.through hosts)).wp (fun c w' _ =>
      Batched k w' ∧ Due w' ∧ c = w'.isOpen) w := by
  obtain ⟨hbefore, hdue, hone⟩ : Batched k (beforeHunt k (x.through hosts) w) ∧
      Due (beforeHunt k (x.through hosts) w) ∧
      1 ≤ (beforeHunt k (x.through hosts) w).batchcount :=
    closeBatch_due hpos (h.onward hpos (closeStale_onward w))
  unfold HuntKeeps at hkeeps
  unfold smtpSetup
  simp only [Act.wp_bind]
  refine Act.wp_mono (Q := fun _ w' _ => w' = ((closeStale (x.through hosts)).run w).state) rfl
    fun _ w₀ _ h₀ => ?_
  refine Act.wp_mono (Q := fun _ w' _ => w' = beforeHunt k (x.through hosts) w)
    (h₀ ▸ rfl) fun _ w₁ _ h₁ => ?_
  subst h₁
  generalize beforeHunt k (x.through hosts) w = before at hbefore hdue hone hkeeps
  simp only [Act.wp_bind, Act.wp_gets, Act.wp_ite, and_true]
  refine ⟨fun hclosed => ?_, fun _ => ⟨hbefore, hdue⟩⟩
  have hkeeps := hkeeps (by simpa using hclosed)
  -- the hunt starts with the message counted
  have hcount := @raiseListener_count ω x hosts before
  obtain ⟨hopen, hbatch⟩ := Prod.mk.inj hcount
  rw [huntHosts_count] at hopen hbatch
  have hwire : ((raiseListener (x.through hosts)).run before).state.wire =
      if (huntHosts (hosts before.rest) 1).1 then before.wire ++ [.opened] else before.wire := rfl
  unfold Act.wp
  generalize ((raiseListener (x.through hosts)).run before).state = w₂ at hopen hbatch hwire
  have hzero : carried (before.wire ++ [.opened]) = 0 := carried_snoc _ _
  have hlow : (w₂.batchcount : Int) ≤ k.batchlimit := by
    have hle := hbefore.count_le
    rw [hbatch]
    split
    · exact Int.le_of_lt hpos
    · exact hle
  cases hfound : (huntHosts (hosts before.rest) 1).1 with
  -- no listener, and nothing is sent
  | false =>
    rw [hfound] at hopen hwire
    have hnot : w₂.isOpen ≠ true := by simp [hopen]
    refine ⟨⟨?_, hlow, fun h => absurd h hnot⟩, fun h => absurd h hnot⟩
    rw [hwire]
    exact hbefore.within
  | true =>
    -- nobody was hung up on, so the message is still counted
    rw [hfound, if_pos rfl] at hwire
    rw [if_neg (huntHosts_kept (hkeeps hfound))] at hbatch
    refine ⟨⟨?_, hlow, fun _ => ?_⟩, fun _ => ?_⟩
    · rw [hwire]
      apply withinLimit_snoc hbefore.within
      rw [hzero]
      exact Int.le_of_lt hpos
    · rw [hwire, hzero]
      exact Nat.zero_le _
    · rw [hwire, hzero, hbatch]
      exact hone

/-- `MAIL FROM` is the transaction that was counted. -/
theorem openSmtpSink_batched (hpos : 0 < k.batchlimit) (h : Batched k w) (hdue : Due w)
    (hopen : w.isOpen = true) :
    (openSmtpSink k x).wp (fun _ w' _ => Batched k w') w := by
  unfold openSmtpSink
  rw [Act.wp_bind]
  refine Act.wp_mono (smtpOk_hears .mailFrom) fun status w₁ tr₁ h₁ => ?_
  obtain ⟨-, rfl, -⟩ := h₁
  have hmail : Batched k (w.hear .mailFrom 1) := by
    have hwire : carried (w.hear .mailFrom 1).wire = carried w.wire + 1 := by
      simp only [Listener.hear, readReplies_one, List.map_cons, List.map_nil]
      exact carried_snoc _ _
    have hle := hdue hopen
    refine ⟨?_, h.count_le, fun _ => hwire ▸ hle⟩
    have hlimit := h.count_le
    simp only [Listener.hear, readReplies_one, List.map_cons, List.map_nil] at hwire ⊢
    apply withinLimit_snoc h.within
    rw [hwire]
    omega
  generalize w.hear .mailFrom 1 = w₁ at hmail
  -- whatever comes behind `MAIL FROM` begins no other transaction
  have hrest : ∀ {α : Type} {a : SmtpM ω α}, StepsOnward a →
      a.wp (fun _ w' _ => Batched k w') w₁ :=
    fun ha => ha.wp hmail fun _ hon hb => hb.onward hpos hon
  cases status with
  | unrecoverable => exact hrest (StepsOnward.bind (smtpClose_onward _) fun _ => onward_pure _)
  | error =>
    apply hrest
    apply StepsOnward.bind handleSmtpReport_onward
    exact fun _ => StepsOnward.bind smtpRset_onward fun _ => onward_pure _
  | ok => exact hrest openRecipients_onward

theorem openSink_batched (hpos : 0 < k.batchlimit) (h : Batched k w)
    (hkeeps : HuntKeeps k x hosts w) :
    (openSink k (x.through hosts)).wp (fun _ w' _ => Batched k w') w := by
  unfold openSink
  simp only [Act.wp_bind, Act.wp_ite, Act.wp_pure]
  refine Act.wp_mono (smtpSetup_batched hpos h hkeeps) fun c w₁ _ h₁ => ?_
  obtain ⟨hbatched, hdue, hc⟩ := h₁
  constructor
  · intro hopen
    exact openSmtpSink_batched hpos hbatched hdue (hc ▸ hopen)
  · exact fun _ => hbatched

/-! ## Runs -/

/-- **Step.** -/
theorem Move.make_batched (hpos : 0 < k.batchlimit) (h : Batched k w) {m : Move} {ms : List Move}
    (hkept : Kept k x hosts (m :: ms) w) :
    (m.make k (x.through hosts)).wp (fun _ w' _ => Batched k w') w := by
  have hrest : ∀ {α : Type} {a : SmtpM ω α} {w : Listener ω}, Batched k w → StepsOnward a →
      a.wp (fun _ w' _ => Batched k w') w :=
    fun hw ha => ha.wp hw fun _ hon hb => hb.onward hpos hon
  cases m with
  | leave sayquit => exact hrest h (smtpClose_onward sayquit)
  | deliver msg aborted =>
    simp only [Move.make, Act.wp_bind, Act.wp_modify]
    have hmsg : Batched k { w with msg := msg } := ⟨h.within, h.count_le, h.counted⟩
    refine Act.wp_mono (openSink_batched hpos hmsg hkept.1) fun o w₁ _ h₁ => ?_
    apply hrest h₁
    apply Act.Steps.ite
    · apply Act.Steps.ite (smtpClose_onward _)
      exact StepsOnward.bind (closeSink_onward _) fun _ => onward_pure _
    · exact StepsOnward.bind (closeSink_onward _) fun _ => onward_pure _

/-- **Run.** -/
theorem makeAll_batched (hpos : 0 < k.batchlimit) (h : Batched k w) {ms : List Move}
    (hkept : Kept k x hosts ms w) :
    (makeAll k (x.through hosts) ms).wp (fun _ w' _ => Batched k w') w := by
  -- from message to message
  induction ms generalizing w with
  | nil => exact h
  | cons m ms ih =>
    simp only [makeAll, Act.wp_bind]
    exact ih (m.make_batched hpos h hkept) hkept.2

/-- If with every message of a run the hunt, where there is one and it finds a listener, gets
by without hanging up on a host, then no connection carries more messages than the limit. -/
theorem batch_limit_kept (k : SinkCtl) (x : External ω) (hosts : ω → List HuntHost)
    (w : Listener ω) (ms : List Move) (hpos : 0 < k.batchlimit) (hclosed : w.isOpen = false)
    (hcount : w.batchcount = 0) (hwire : w.wire = []) (hkept : Kept k x hosts ms w) :
    WithinLimit k.batchlimit ((makeAll k (x.through hosts) ms).run w).state.wire := by
  have hstart : Batched k w := by
    refine ⟨?_, ?_, fun hopen => ?_⟩
    · intro sofar hsofar
      rw [hwire, List.prefix_nil] at hsofar
      rw [hsofar]
      exact Int.le_of_lt hpos
    · rw [hcount]
      exact Int.le_of_lt hpos
    · rw [hclosed] at hopen
      cases hopen
  have hend : Batched k ((makeAll k (x.through hosts) ms).run w).state :=
    makeAll_batched hpos hstart hkept
  exact hend.within

end

/-! ## A listener that knows no `EHLO` -/

/-- One message at a time. -/
def singlyCtl : SinkCtl := { quietCtl with batchlimit := 1 }

/-- Everything is fine with the listener. -/
def obligingExternal : External Unit :=
  { quietExternal with
    hunt := fun w => (⟨false, .smtp, [], List.replicate 20 (Bytes.lit "250 ok
"), [], false⟩, w) }

/-- No connection yet. -/
def unconnected : Listener Unit :=
  { listenerSaying .smtp [] with isOpen := false }

/-- `EHLO` is refused, `HELO` is taken: the second message goes over the connection of the
first. -/
theorem batch_limit_exceeded :
    ¬ WithinLimit singlyCtl.batchlimit
      ((makeAll singlyCtl (obligingExternal.through fun _ => [⟨some false, some true⟩])
        [.deliver unconnected.msg false, .deliver unconnected.msg false]).run
          unconnected).state.wire := by
  intro h
  exact absurd (h _ (List.prefix_refl _)) (by decide +kernel)

/-- With `EHLO` taken each message gets its own. -/
theorem batch_limit_kept_ehlo :
    WithinLimit singlyCtl.batchlimit
      ((makeAll singlyCtl (obligingExternal.through fun _ => [⟨some true, none⟩])
        [.deliver unconnected.msg false, .deliver unconnected.msg false]).run
          unconnected).state.wire :=
  batch_limit_kept singlyCtl obligingExternal (fun _ => [⟨some true, none⟩]) unconnected _
    (by decide) rfl rfl rfl ⟨fun _ _ => rfl, fun _ _ => rfl, trivial⟩

end Fetchmail.Sink
