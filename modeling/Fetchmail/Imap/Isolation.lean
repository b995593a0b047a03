import Fetchmail.Imap.TlsSafety
import Fetchmail.Transact.Noninterference

/-!
# Sessions and Their Predecessors

What a session of IMAP is told by the static variables that earlier sessions of the process have
left behind, from the greeting to the selection of the first mailbox.
-/

namespace Fetchmail.Imap

open Fetchmail.Lib Fetchmail.Transact Fetchmail.Auth

/-! ## Selecting a mailbox -/

/-- What `imap_getrange` reads of `struct query`, besides `check_only`. -/
structure RangeCtl where
  fetchall : Bool
  keep : Bool
  folder : Bytes
  deriving Repr

section

variable {ω : Type}

/-- `internal_expunge` -/
def internalExpunge (checkOnly : Bool) : Session ω Ps := do
  assign fun v => { v with actualDeletions := 0 }
  let ok ← transact checkOnly .expunge
  if ok ≠ .success then return ok
  else if ← statics fun v => decide (0 < v.deletions ∧ v.deletions ≠ v.actualDeletions) then
    assign fun v => { v with deletions := 0 }
    return .error
  else
    assign fun v => { v with expunged := v.expunged + v.deletions, deletions := 0 }
    return .success

/-- `imap_getrange` in its first pass, up to the expunge: the return code, and `count`. -/
def selectMailbox (checkOnly : Bool) (range : RangeCtl) : Session ω (Ps × Nat) := do
  assign fun v => { v with oldcount := 0, count := 0 }
  let ok ← transact checkOnly (if checkOnly then .examine range.folder else .select range.folder)
  -- a read-only folder can be used by fetchall keep only
  let ok := if ok = .lockbusy ∧ range.fetchall ∧ range.keep then .success else ok
  if ok ≠ .success then return (ok, 0)
  else if !checkOnly && !range.keep && (← statics fun v => decide (0 < v.count)) then
    let ok ← internalExpunge checkOnly
    if ok ≠ .success then return (ok, 0) else return (.success, ← statics Statics.count)
  else return (.success, ← statics Statics.count)

/-- A session, from the greeting to the selection of the first mailbox. -/
def beginSession (b : Build) (ctl : AuthCtl) (range : RangeCtl) (handshake : Handshake) :
    Session ω (Ps × Nat) := do
  let (err, _) ← openSession b ctl handshake
  if err ≠ .success then return (err, 0)
  else
    setStage .getrange
    selectMailbox ctl.checkOnly range

/-! ## What the code reads -/

variable {γ δ : Type} {p : Statics → γ} {q : Statics → δ}

theorem blind_assign {f : Statics → Statics} (hf : ∀ v₁ v₂, p v₁ = p v₂ → q (f v₁) = q (f v₂)) :
    Blind p q (assign f : Session ω Unit) :=
  blind_modify (by intro d; rfl) (fun d s h => hf d.statics s h) (by intro d s; rfl)

theorem blind_setStage {stage : Stage} (hstage : stage ≠ .idle) :
    Blind p p (setStage stage : Session ω Unit) := by
  intro d₁ d₂ h
  refine ⟨rfl, rfl, hstage, h.view, ?_⟩
  rw [h.same]
  rfl

/-- Static variables that `p` shows are the same on both sides. -/
theorem blind_statics {α : Type} {f : Statics → α} (hf : ∀ v₁ v₂, p v₁ = p v₂ → f v₁ = f v₂) :
    Blind p p (statics f : Session ω α) := by
  intro d₁ d₂ h
  exact ⟨congrArg Except.ok (hf _ _ h.view), rfl, h⟩

/-- The responses of a server keep what the two sides have in common. -/
structure Stable (p : Statics → γ) : Prop where
  capability : ∀ rest v₁ v₂, p v₁ = p v₂ →
    p { v₁ with capabilities := rest } = p { v₂ with capabilities := rest }
  preauth : ∀ v₁ v₂, p v₁ = p v₂ → p { v₁ with preauth := true } = p { v₂ with preauth := true }
  exist : ∀ u v₁ v₂, p v₁ = p v₂ → p (v₁.exist u) = p (v₂.exist u)
  expunge : ∀ v₁ v₂, p v₁ = p v₂ → p v₁.expunge = p v₂.expunge

/-- Outside of `IDLE` nothing is to be ended. -/
theorem blind_endIdle : Blind p p (endIdle : Session ω Unit) := by
  have hnothing : ∀ d : Dialogue Statics ω Command, d.stage ≠ .idle →
      (endIdle : Session ω Unit).exec d = ⟨.ok (), d, []⟩ := by
    intro d hd
    unfold endIdle
    rw [Talk.exec_bind, Talk.exec_gets]
    simp [hd]
  intro d₁ d₂ h
  have hstage : d₂.stage ≠ .idle := by
    rw [h.same]
    exact h.stage
  rw [hnothing d₁ h.stage, hnothing d₂ hstage]
  exact ⟨rfl, rfl, h⟩

theorem Stable.imapUntaggedResponse (hp : Stable p) (checkOnly : Bool) (buf : Bytes) :
    Blind p p (imapUntaggedResponse checkOnly buf : Session ω Ps) := by
  apply Blind.gets _ fun _ _ _ => rfl
  intro stage
  cases classify checkOnly stage buf with
  | capability rest => exact (blind_assign (hp.capability rest)).seq fun _ => blind_pure _
  | preauth => exact (blind_assign hp.preauth).seq fun _ => blind_pure _
  | «exists» u =>
    exact (blind_assign (hp.exist u)).seq fun _ => blind_endIdle.seq fun _ => blind_pure _
  | expunge u =>
    apply Blind.ite _ (blind_pure _)
    exact (blind_assign hp.expunge).seq fun _ => blind_pure _
  | bye => exact blind_pure _
  | bogusCount => exact blind_pure _
  | readOnly => exact blind_pure _
  | other => exact blind_pure _

theorem Stable.responseLoop (hp : Stable p) (checkOnly argbuf : Bool)
    {again : Session ω (Ps × Bytes)} (hagain : Blind p p again) (lines : List Recv) :
    Blind p p (responseLoop checkOnly argbuf again lines) := by
  induction lines with
  | nil => exact blind_pure _
  | cons r rest ih =>
    apply Blind.gets _ fun _ _ _ => rfl
    intro stage
    apply (blind_accept r rest).seq
    intro received
    cases received with
    | error err => exact blind_pure _
    | ok text =>
      apply (Blind.ite (hp.imapUntaggedResponse checkOnly _) (blind_pure _)).seq
      intro ok
      -- of the whole connection only `stage` and `tag` are looked at
      apply Blind.gets _ fun _ _ _ => rfl
      intro d
      cases returnEarly argbuf d.stage d.tag (text.map Bytes.toUpper) r.late ok with
      | some result => exact blind_pure _
      | none =>
        apply Blind.ite (blind_pure _)
        exact Blind.ite hagain ih

theorem Stable.imapOk (hp : Stable p) (checkOnly : Bool) :
    Blind p p (imapOk checkOnly : Session ω Ps) := by
  refine Blind.seq (Blind.gets (fun lines => ?_) fun _ _ _ => rfl) fun _ => blind_pure _
  apply hp.responseLoop
  apply Blind.gets _ fun _ _ _ => rfl
  exact fun lines => hp.responseLoop _ _ (blind_pure _) _

theorem Stable.transact (hp : Stable p) (checkOnly : Bool) (c : Command) :
    Blind p p (transact checkOnly c : Session ω Ps) :=
  blind_genTransact c (hp.imapOk checkOnly)

/-! ## What earlier sessions have a say in -/

/-- What is left pending when a session begins. -/
def Statics.pending (v : Statics) : Bool × Nat := (v.preauth, v.deletions)

/-- The same, and the capabilities of the server. -/
def Statics.offered (v : Statics) : (Bool × Nat) × Bytes := (v.pending, v.capabilities)

/-- The same, and the counts of messages. -/
def Statics.counted (v : Statics) : (Bool × Nat) × Nat × Nat := (v.pending, v.count, v.oldcount)

/-- The same, and the count of messages that an expunge has removed. -/
def Statics.expunging (v : Statics) : ((Bool × Nat) × Nat × Nat) × Nat :=
  (v.counted, v.actualDeletions)

theorem stable_pending : Stable Statics.pending where
  capability := fun _ _ _ h => h
  preauth := fun _ _ h => congrArg (fun x => (true, x.2)) h
  exist := fun _ _ _ h => h
  expunge := fun _ _ h => h

theorem stable_offered : Stable Statics.offered where
  capability := fun rest _ _ h => congrArg (fun x => (x.1, rest)) h
  preauth := fun _ _ h => congrArg (fun x => ((true, x.1.2), x.2)) h
  exist := fun _ _ _ h => h
  expunge := fun _ _ h => h

theorem stable_counted : Stable Statics.counted where
  capability := fun _ _ _ h => h
  preauth := fun _ _ h => congrArg (fun x => ((true, x.1.2), x.2)) h
  exist := fun u _ _ h => congrArg (fun x => (x.1, u, x.2.2)) h
  expunge := fun _ _ h => congrArg (fun x => (x.1, x.2.1 - 1, x.2.2 - 1)) h

theorem stable_expunging : Stable Statics.expunging where
  capability := fun _ _ _ h => h
  preauth := fun _ _ h => congrArg (fun x => (((true, x.1.1.2), x.1.2), x.2)) h
  exist := fun u _ _ h => congrArg (fun x => ((x.1.1, u, x.1.2.2), x.2)) h
  expunge := fun _ _ h => congrArg (fun x => ((x.1.1, x.1.2.1 - 1, x.1.2.2 - 1), x.2 + 1)) h

theorem pending_of_offered {v₁ v₂ : Statics} (h : v₁.offered = v₂.offered) :
    v₁.pending = v₂.pending := congrArg Prod.fst h

theorem pending_of_counted {v₁ v₂ : Statics} (h : v₁.counted = v₂.counted) :
    v₁.pending = v₂.pending := congrArg Prod.fst h

theorem counted_of_expunging {v₁ v₂ : Statics} (h : v₁.expunging = v₂.expunging) :
    v₁.counted = v₂.counted := congrArg Prod.fst h

theorem blind_capable (name : String) :
    Blind Statics.offered Statics.offered (capable name : Session ω Bool) :=
  blind_statics fun _ _ h => congrArg (fun x => x.2.contains (Bytes.lit name)) h

/-- The probe forgets the capabilities of an earlier server. -/
theorem blind_capaProbe (ctl : AuthCtl) :
    Blind Statics.pending Statics.offered (capaProbe ctl : Session ω Ps) := by
  have hclear : Blind Statics.pending Statics.offered
      (assign fun v => { v with capabilities := [] } : Session ω Unit) :=
    blind_assign fun _ _ h => congrArg (fun x => (x, [])) h
  refine hclear.bind (fun _ => ?_) fun _ _ h => h
  apply (stable_offered.transact _ _).seq
  intro ok
  refine (blind_statics fun _ _ h => congrArg (fun x => x.2) h).seq fun capabilities => ?_
  cases probedVersion capabilities ok with
  | none => exact blind_pure _
  | some version =>
    refine Blind.seq (blind_assign fun _ _ h => h) fun _ => blind_pure _

theorem blind_withoutTls (ctl : AuthCtl) :
    Blind Statics.offered Statics.offered (withoutTls ctl : Session ω _) := by
  apply Blind.ite (blind_pure _)
  refine (stable_offered.transact _ _).seq fun ok => ?_
  exact Blind.ite (blind_pure _) (blind_pure _)

theorem blind_upgradeToTls (ctl : AuthCtl) (handshake : Handshake) :
    Blind Statics.offered Statics.offered (upgradeToTls ctl handshake : Session ω _) := by
  apply Blind.ite (blind_pure _)
  refine (blind_capable _).seq fun offered => Blind.ite (blind_pure _) ?_
  refine (stable_offered.transact _ _).seq fun ok => Blind.ite (blind_withoutTls ctl) ?_
  refine (blind_sslOpen handshake _).seq fun opened => ?_
  cases opened with
  | none => exact blind_withoutTls ctl
  | some remotename =>
    have hprobe : Blind Statics.offered Statics.offered
        (capaProbe { ctl with remotename := remotename } : Session ω Ps) :=
      (blind_capaProbe _).strengthen fun _ _ h => pending_of_offered h
    exact hprobe.seq fun ok => blind_pure _

theorem blind_authorize (b : Build) (ctl : AuthCtl) (handshake : Handshake) :
    Blind Statics.offered Statics.offered (authorize b ctl handshake : Session ω _) := by
  refine (blind_upgradeToTls ctl handshake).seq fun r => ?_
  cases r with
  | error result => exact blind_pure _
  | ok ctl =>
    have hyahoo : Blind Statics.offered Statics.offered (yahooId ctl : Session ω Unit) := by
      refine (blind_statics fun _ _ h => congrArg (fun x => x.2) h).seq fun capabilities => ?_
      apply Blind.ite _ (blind_pure _)
      exact (stable_offered.transact _ _).seq fun _ => blind_pure _
    have hexchange : Exchange Command.sasl
        (fun {α} (x : Session ω α) => Blind Statics.offered Statics.offered x) :=
      ⟨blind_pure, Blind.seq, blind_genRecv, fun _ => blind_sockWrite _, fun _ => blind_genSend _,
        Blind.suppressingTags⟩
    have hmechanisms := holds_tryExternal hexchange b ctl (stable_offered.imapOk _) blind_capable
      fun _ _ => blind_genSend _
    exact hyahoo.seq fun _ => (hmechanisms _).seq fun _ => blind_pure _

theorem blind_imapGetauth (b : Build) (ctl : AuthCtl) (handshake : Handshake) :
    Blind Statics.pending Statics.pending (imapGetauth b ctl handshake : Session ω _) := by
  have hperiod : Blind Statics.pending Statics.pending
      (assign fun v => { v with expungePeriod := ctl.expungePeriod } : Session ω Unit) :=
    blind_assign fun _ _ h => h
  refine hperiod.seq fun _ => ?_
  refine (blind_capaProbe ctl).bind (fun ok => ?_) fun _ _ h => pending_of_offered h
  apply Blind.weaken _ fun _ _ h => pending_of_offered h
  apply Blind.ite (blind_pure _)
  refine (blind_statics fun _ _ h => congrArg (fun x => x.1.1) h).seq fun preauth => ?_
  apply Blind.ite _ (blind_authorize b ctl handshake)
  exact (blind_assign fun _ _ h => congrArg (fun x => ((false, x.1.2), x.2)) h).seq
    fun _ => blind_pure _

theorem blind_openSession (b : Build) (ctl : AuthCtl) (handshake : Handshake) :
    Blind Statics.pending Statics.pending (openSession b ctl handshake : Session ω _) := by
  apply (stable_pending.imapOk _).seq
  intro err
  apply Blind.ite (blind_pure _)
  exact (blind_setStage (by decide)).seq fun _ => blind_imapGetauth b ctl handshake

/-- The expunge compares with the deletions that are pending. -/
theorem blind_internalExpunge (checkOnly : Bool) :
    Blind Statics.counted Statics.counted (internalExpunge checkOnly : Session ω Ps) := by
  have hreset : Blind Statics.counted Statics.expunging
      (assign fun v => { v with actualDeletions := 0 } : Session ω Unit) :=
    blind_assign fun _ _ h => congrArg (fun x => (x, 0)) h
  refine hreset.bind (fun _ => ?_) fun _ _ h => counted_of_expunging h
  apply Blind.weaken _ fun _ _ h => counted_of_expunging h
  apply (stable_expunging.transact _ _).seq
  intro ok
  apply Blind.ite (blind_pure _)
  have hmismatch := fun v₁ v₂ (h : Statics.expunging v₁ = Statics.expunging v₂) =>
    congrArg (fun x => decide (0 < x.1.1.2 ∧ x.1.1.2 ≠ x.2)) h
  have hclear := fun v₁ v₂ (h : Statics.expunging v₁ = Statics.expunging v₂) =>
    congrArg (fun x => (((x.1.1.1, 0), x.1.2), x.2)) h
  refine (blind_statics hmismatch).seq fun mismatch => Blind.ite ?_ ?_
  · exact (blind_assign hclear).seq fun _ => blind_pure _
  · exact (blind_assign hclear).seq fun _ => blind_pure _

theorem blind_selectMailbox (checkOnly : Bool) (range : RangeCtl) :
    Blind Statics.pending Statics.pending (selectMailbox checkOnly range : Session ω _) := by
  have hreset : Blind Statics.pending Statics.counted
      (assign fun v => { v with oldcount := 0, count := 0 } : Session ω Unit) :=
    blind_assign fun _ _ h => congrArg (fun x => (x, 0, 0)) h
  refine hreset.bind (fun _ => ?_) fun _ _ h => pending_of_counted h
  apply Blind.weaken _ fun _ _ h => pending_of_counted h
  have hcount : Blind Statics.counted Statics.counted (statics Statics.count : Session ω Nat) :=
    blind_statics fun _ _ h => congrArg (fun x => x.2.1) h
  apply (stable_counted.transact _ _).seq
  intro ok
  apply Blind.ite (blind_pure _)
  refine (blind_statics fun _ _ h => congrArg (fun x => decide (0 < x.2.1)) h).seq fun some => ?_
  apply Blind.ite
  · refine (blind_internalExpunge _).seq fun ok => Blind.ite (blind_pure _) ?_
    exact hcount.seq fun _ => blind_pure _
  · exact hcount.seq fun _ => blind_pure _

/-- A session looks at `preauth` and `deletions` only, among what it finds. -/
theorem blind_beginSession (b : Build) (ctl : AuthCtl) (range : RangeCtl) (handshake : Handshake) :
    Blind Statics.pending Statics.pending (beginSession b ctl range handshake : Session ω _) := by
  apply (blind_openSession b ctl handshake).seq
  intro r
  apply Blind.ite (blind_pure _)
  exact (blind_setStage (by decide)).seq fun _ => blind_selectMailbox _ _

end

/-! ## Isolation -/

/-- A new connection to a server, in a process that has this left of earlier sessions. -/
def succeeding {ω : Type} (stage : Stage) (v : Statics) (lines : List Recv) (peer : ω)
    (answer : Bytes → Command → ω → List Recv × ω) : Dialogue Statics ω Command where
  stage := stage
  statics := v
  tagged := true
  suppressTags := false
  tagnum := 0
  tag := []
  lines := lines
  peer := peer
  answer := answer
  tls := false

/-- **Isolation**: a session does what it would do as the first one of its process, with every
server. -/
def Isolated (stage : Stage) (v : Statics) : Prop :=
  ∀ (ω : Type) (b : Build) (ctl : AuthCtl) (range : RangeCtl) (handshake : Handshake)
    (lines : List Recv) (peer : ω) (answer : Bytes → Command → ω → List Recv × ω),
    let here := (beginSession b ctl range handshake).exec (succeeding stage v lines peer answer)
    let first := (beginSession b ctl range handshake).exec
      (succeeding .getauth Statics.init lines peer answer)
    here.val = first.val ∧ here.trace = first.trace

/-- Mail is fetched and deleted. -/
def fetchRange : RangeCtl := ⟨false, false, Bytes.lit "INBOX"⟩

/-- A mailbox behind a greeting that preauthenticates. -/
def mailboxLines : List Bytes :=
  [Bytes.lit "* PREAUTH ready", Bytes.lit "* CAPABILITY IMAP4rev1", Bytes.lit "A0001 OK",
    Bytes.lit "* 3 EXISTS", Bytes.lit "A0002 OK", Bytes.lit "A0003 OK"]

/-- Nothing is left that a session would look at. -/
structure Settled (stage : Stage) (v : Statics) : Prop where
  stage : stage = .getauth
  preauth : v.preauth = false
  deletions : v.deletions = 0

instance (stage : Stage) (v : Statics) : Decidable (Settled stage v) :=
  decidable_of_iff (stage = .getauth ∧ v.preauth = false ∧ v.deletions = 0)
    ⟨fun h => ⟨h.1, h.2.1, h.2.2⟩, fun h => ⟨h.stage, h.preauth, h.deletions⟩⟩

/-- A session that finds nothing it would look at. -/
theorem isolated_of_settled (stage : Stage) (v : Statics) (h : Settled stage v) :
    Isolated stage v := by
  intro ω b ctl range handshake lines peer answer
  have htwins : Twins Statics.pending (succeeding stage v lines peer answer)
      (succeeding .getauth Statics.init lines peer answer) := by
    constructor
    · show stage ≠ .idle
      rw [h.stage]
      decide
    · show (v.preauth, v.deletions) = (false, 0)
      rw [h.preauth, h.deletions]
    · rw [h.stage]
      rfl
  obtain ⟨hval, htrace, -⟩ := blind_beginSession b ctl range handshake _ _ htwins
  exact ⟨hval, htrace⟩

/-! ## Runs -/

/-- A session of the process: its server and settings, and what the part behind the selection of
the first mailbox, or the way out of the session, makes of the variables. -/
structure Visit where
  ω : Type
  b : Build
  ctl : AuthCtl
  range : RangeCtl
  handshake : Handshake
  lines : List Recv
  peer : ω
  answer : Bytes → Command → ω → List Recv × ω
  rest : Stage × Statics → Stage × Statics

/-- What a session leaves behind. -/
def Visit.leaves (visit : Visit) (found : Stage × Statics) : Stage × Statics :=
  let d := ((beginSession visit.b visit.ctl visit.range visit.handshake).exec
    (succeeding found.1 found.2 visit.lines visit.peer visit.answer)).state
  visit.rest (d.stage, d.statics)

/-- What the sessions of a process leave behind, one after the other. -/
def leftBy (visits : List Visit) : Stage × Statics :=
  visits.foldl (fun found visit => visit.leaves found) (.getauth, Statics.init)

/-- **Sessions are isolated** from one another in every run whose sessions leave `stage`, `preauth`
and `deletions` as the process found them; whatever else they leave does not count. -/
theorem sessions_isolated (visits : List Visit)
    (h : ∀ before, before <+: visits → before ≠ [] →
      Settled (leftBy before).1 (leftBy before).2) :
    ∀ before, before <+: visits → Isolated (leftBy before).1 (leftBy before).2 := by
  intro before hbefore
  apply isolated_of_settled
  cases before with
  | nil => decide
  | cons visit rest => exact h _ hbefore (List.cons_ne_nil _ _)

/-- A session with a server that has these lines to say. -/
def visitOf (lines : List Bytes) : Visit where
  ω := Unit
  b := plainBuild
  ctl := certckCtl
  range := fetchRange
  handshake := .fails
  lines := lines.map fun text => .line text false
  peer := ()
  answer := fun _ _ _ => ([], ())
  rest := id

/-- A session that is not authorized leaves nothing behind. -/
theorem sessions_isolated_refused :
    Isolated (leftBy [visitOf honestLines]).1 (leftBy [visitOf honestLines]).2 := by
  apply sessions_isolated [visitOf honestLines] _ _ (List.prefix_refl _)
  intro before hbefore hne
  have hall : before = [visitOf honestLines] := by
    obtain ⟨rest, hrest⟩ := hbefore
    cases before with
    | nil => exact absurd rfl hne
    | cons visit before =>
      rw [List.cons_append, List.cons.injEq, List.append_eq_nil_iff] at hrest
      rw [hrest.1, hrest.2.1]
  rw [hall]
  decide +kernel

/-- A session that was preauthenticated, and whose server hung up before `imap_getauth` was
done. -/
def abandoned : Visit := visitOf (mailboxLines.take 1)

/-- A session that stopped when the mailbox was selected. -/
def stopped : Visit := visitOf mailboxLines

/-- After the first one, a session passes for preauthenticated without a word of its server; after
the second one, a greeting that preauthenticates is overlooked. With a deletion that is left
pending the mailbox is not selected. -/
theorem abandoned_not_isolated :
    ¬ Isolated (leftBy [abandoned]).1 (leftBy [abandoned]).2 ∧
      ¬ Isolated (leftBy [stopped]).1 (leftBy [stopped]).2 ∧
      ¬ Isolated .getauth { Statics.init with deletions := 1 } := by
  refine ⟨fun h => ?_, fun h => ?_, fun h => ?_⟩
  · have htrace := (h Unit plainBuild certckCtl fetchRange .fails
      (honestLines.map fun text => .line text false) () fun _ _ _ => ([], ())).2
    revert htrace
    decide +kernel
  · have htrace := (h Unit plainBuild certckCtl fetchRange .fails
      (mailboxLines.map fun text => .line text false) () fun _ _ _ => ([], ())).2
    revert htrace
    decide +kernel
  · have hval := (h Unit plainBuild certckCtl fetchRange .fails
      (mailboxLines.map fun text => .line text false) () fun _ _ _ => ([], ())).1
    revert hval
    decide +kernel

end Fetchmail.Imap
