import Fetchmail.Lib.Decimal
import Mathlib.Data.List.Induction

/-!
# The Lock File

`lock.c`, and how `main` starts. A process looks at the lock file, removes it when it seems to be
stale, and creates it anew where there is none; looking, removing and creating are separate steps,
between which other processes take theirs. Processes may exit, die or restart at any time, and
their numbers are used again.

At most one process holds the lock in every run in which no process removes the file of a live
one, and in particular in every run in which starts do not overlap. Both ask that a daemon that
has restarted itself stays the process it was: `daemonize` forks it unless its parent is `init`,
and the parent's exit takes away the file of the child.
-/

namespace Fetchmail.Lock

open Fetchmail.Lib

/-! ## The text of the file -/

/-- What `fm_lock_or_die` writes: `"%ld\n"`, and `"%d\n"` for the interval of a daemon. -/
def lockText (pid pollInterval : Nat) : Bytes :=
  Bytes.decimal pid ++ Bytes.lf :: (if pollInterval = 0 then []
    else Bytes.decimal pollInterval ++ [Bytes.lf])

/-- `%ld` of `fscanf`. -/
def scanLong (s : Bytes) : Bytes.Scan :=
  let s := s.dropWhile Bytes.isspace
  if s = [] then .eof
  else
    let signed := Bytes.takeSign s
    let ds := signed.2.takeWhile Bytes.isdigit
    if ds = [] then .mismatch
    else
      let n : Int := if signed.1 then -(Bytes.digitsVal 0 ds) else Bytes.digitsVal 0 ds
      .int (max (-2 ^ 63) (min (2 ^ 63 - 1) n)) (signed.2.dropWhile Bytes.isdigit)

/-- `fscanf(lockfp, "%ld %d", &pid, &st)`: the process, and `args == 2`; nothing if `args` is
zero or `EOF`. -/
def readLock (text : Bytes) : Option (Int × Bool) :=
  match scanLong text with
  | .int pid rest =>
    match Bytes.scanInt rest with
    | .int _ _ => some (pid, true)
    | _ => some (pid, false)
  | _ => none

/-- A `long` as an `int` or a `pid_t`. -/
def toInt (n : Int) : Int := n.bmod (2 ^ 32)

/-- `fm_lock_state`, over the text of the lock file and whether `kill(pid, 0)` finds a process:
what it returns, and whether it takes the file to be stale. -/
def fmLockState (text : Option Bytes) (alive : Int → Bool) : Int × Bool :=
  match text with
  | none => (0, false)
  | some text =>
    match readLock text with
    | none => (0, true)
    | some (pid, bkgd) =>
      if alive (toInt pid) then (toInt (if bkgd then -pid else pid), false) else (0, true)

/-! ## The start of a process -/

/-- What the start of `main` depends on besides the lock. -/
structure Flags where
  quitmode : Bool
  quitonly : Bool
  checkOnly : Bool
  implicitmode : Bool
  /-- `kill(pid, SIGTERM)` succeeds -/
  killed : Bool
  deriving DecidableEq, Repr

/-- How the start goes on. -/
inductive Next where
  | goOn
  /-- `fm_lock_assert` -/
  | hold
  | leave
  deriving DecidableEq, Repr

/-- From `pid = fm_lock_state()` to the branch for a background process with another number. -/
def resolve (f : Flags) (self : Nat) (state : Int) : Next :=
  let bkgd : Bool := state < 0
  let pid := if bkgd then -state else state
  if f.quitmode && pid ≠ 0 && pid ≠ self then
    -- the other process is told to go, and clears its own lock
    if f.killed && !f.quitonly then .goOn else .leave
  else if f.quitmode && f.quitonly then .leave
  else if pid = 0 then .goOn
  else if f.checkOnly || !f.implicitmode || !bkgd then .leave
  else if pid = self then .hold
  else .leave

/-! ## Processes -/

/-- Where a process is. -/
inductive Phase where
  | idle
  | started
  /-- it has found the file stale -/
  | stale
  /-- it has found no other process -/
  | clear
  /-- it has created the file -/
  | created
  /-- it has written its number -/
  | written
  /-- it has found its own number after a restart, and may have to detach yet -/
  | asserted
  /-- its child goes on in its place -/
  | parting
  | holding
  | gone
  deriving DecidableEq, Repr

/-- The phases of a start. -/
def Phase.starting : Phase → Bool
  | .started | .stale | .clear | .created | .written => true
  | .idle | .asserted | .parting | .holding | .gone => false

/-- `lock_acquired` -/
def Phase.acquired : Phase → Bool
  | .asserted | .parting | .holding => true
  | .idle | .started | .stale | .clear | .created | .written | .gone => false

/-- A process that `kill` finds. -/
def Phase.live (ph : Phase) : Bool := ph.starting || ph.acquired

/-- The lock file: who has it open for writing, and its text. -/
structure File where
  owner : Option Nat
  text : Bytes
  deriving DecidableEq, Repr

/-- All processes, by their numbers, and the lock file. -/
structure Sys where
  file : Option File
  phase : Nat → Phase

namespace Sys

/-- A process enters a phase. -/
def enter (s : Sys) (p : Nat) (ph : Phase) : Sys :=
  { s with phase := fun q => if q = p then ph else s.phase q }

/-- `kill(pid, 0)`: a live process of ours, or one of someone else. -/
def alive (s : Sys) (others : Int → Bool) (pid : Int) : Bool :=
  (0 ≤ pid && (s.phase pid.toNat).live) || others pid

/-- What a process does when it knows the state of the lock. -/
def proceed (s : Sys) (f : Flags) (p : Nat) (state : Int) : Sys :=
  match resolve f p state with
  | .goOn => s.enter p .clear
  | .hold => s.enter p .asserted
  | .leave => s.enter p .gone

/-- A process writes to the file that it has created; if that is no longer the lock file, nothing
is seen of it. -/
def append (s : Sys) (p : Nat) (text : Bytes) : Sys :=
  { s with file := s.file.map fun f =>
      if f.owner = some p then { f with text := f.text ++ text } else f }

end Sys

/-- The steps of the processes. -/
inductive Act where
  | start (p : Nat)
  /-- `fm_lock_state` up to the decision, with the other processes of the machine -/
  | check (p : Nat) (f : Flags) (others : Int → Bool)
  /-- `unlink` in `fm_lock_state`, and what follows -/
  | remove (p : Nat) (f : Flags)
  /-- `daemonize`: the child goes on -/
  | fork (p child : Nat)
  /-- no `daemonize` after `fm_lock_assert`, or one that does not fork: the process detaches from
  nothing (`nodetach`), or its parent is process 1 -/
  | settle (p : Nat)
  /-- `daemonize` after `fm_lock_assert`: the child goes on, with `lock_acquired` -/
  | detach (p child : Nat)
  /-- `open(lockfile, O_WRONLY|O_CREAT|O_EXCL)` -/
  | create (p : Nat)
  /-- the number -/
  | write (p : Nat)
  /-- the interval; the lock has been acquired -/
  | finish (p pollInterval : Nat)
  /-- the restart on a changed rc-file -/
  | reexec (p : Nat)
  /-- `exit`, with `unlockit` -/
  | leave (p : Nat)
  | crash (p : Nat)

/-- A process number that the system gives. -/
def validPid (p : Nat) : Bool := 0 < p && p < 2 ^ 31

/-- A number is free. -/
def Phase.free (ph : Phase) : Bool := ph = .idle || ph = .gone

/-- One step, where it can be taken. -/
def step (s : Sys) : Act → Option Sys
  | .start p => if (s.phase p).free && validPid p then some (s.enter p .started) else none
  | .check p f others =>
    if s.phase p = .started then
      let state := fmLockState (s.file.map File.text) (s.alive others)
      if state.2 then some (s.enter p .stale) else some (s.proceed f p state.1)
    else none
  | .remove p f =>
    if s.phase p = .stale then some ({ s with file := none : Sys }.proceed f p 0) else none
  | .fork p child =>
    if s.phase p = .clear && (s.phase child).free && validPid child then
      some ((s.enter p .gone).enter child .clear)
    else none
  | .settle p => if s.phase p = .asserted then some (s.enter p .holding) else none
  | .detach p child =>
    if s.phase p = .asserted && (s.phase child).free && validPid child then
      some ((s.enter p .parting).enter child .holding)
    else none
  | .create p =>
    if s.phase p = .clear then
      if s.file.isNone then some ({ s with file := some ⟨some p, []⟩ : Sys }.enter p .created)
      else some (s.enter p .gone)
    else none
  | .write p =>
    if s.phase p = .created then
      some ((s.append p (Bytes.decimal p ++ [Bytes.lf])).enter p .written)
    else none
  | .finish p pollInterval =>
    if s.phase p = .written then
      some ((s.append p (if pollInterval = 0 then []
        else Bytes.decimal pollInterval ++ [Bytes.lf])).enter p .holding)
    else none
  | .reexec p => if s.phase p = .holding then some (s.enter p .started) else none
  | .leave p =>
    if (s.phase p).acquired then some ({ s with file := none : Sys }.enter p .gone)
    else if (s.phase p).live then some (s.enter p .gone) else none
  | .crash p => if (s.phase p).live then some (s.enter p .gone) else none

/-- Some steps, one after the other. -/
def run (s : Sys) : List Act → Option Sys
  | [] => some s
  | a :: acts => (step s a).bind fun s => run s acts

/-! ## What is written is read -/

theorem decimal_parts (n : Nat) {b : UInt8} (hb : Bytes.isdigit b = false) (rest : Bytes) :
    (Bytes.decimal n ++ b :: rest).dropWhile Bytes.isspace = Bytes.decimal n ++ b :: rest ∧
    Bytes.takeSign (Bytes.decimal n ++ b :: rest) = (false, Bytes.decimal n ++ b :: rest) ∧
    (Bytes.decimal n ++ b :: rest).takeWhile Bytes.isdigit = Bytes.decimal n ∧
    (Bytes.decimal n ++ b :: rest).dropWhile Bytes.isdigit = b :: rest := by
  obtain ⟨d, ds, hds⟩ := List.exists_cons_of_ne_nil (Bytes.decimal_ne_nil n)
  have hd : Bytes.isdigit d = true :=
    Bytes.isdigit_of_mem_decimal (by rw [hds]; exact List.mem_cons_self)
  have hall : ∀ x ∈ Bytes.decimal n, Bytes.isdigit x = true :=
    fun x hx => Bytes.isdigit_of_mem_decimal hx
  refine ⟨?_, ?_, ?_, ?_⟩
  · rw [hds, List.cons_append,
      List.dropWhile_cons_of_neg (by simp [Bytes.isspace_of_isdigit hd])]
  · rw [hds, List.cons_append, Bytes.takeSign_of_isdigit hd]
  · rw [List.takeWhile_append_of_pos hall, List.takeWhile_cons_of_neg (by simp [hb]),
      List.append_nil]
  · rw [List.dropWhile_append_of_pos hall, List.dropWhile_cons_of_neg (by simp [hb])]

theorem scanLong_decimal {n : Nat} (hn : n < 2 ^ 63) (rest : Bytes) :
    scanLong (Bytes.decimal n ++ Bytes.lf :: rest) = .int n (Bytes.lf :: rest) := by
  obtain ⟨hblank, hsign, htake, hdrop⟩ := decimal_parts n (b := Bytes.lf) rfl rest
  unfold scanLong
  simp only [hblank, hsign, htake, hdrop, Bytes.decimal_ne_nil, Bytes.digitsVal_decimal, if_false,
    Bool.false_eq_true, List.append_eq_nil_iff, false_and]
  congr 1
  omega

theorem scanInt_decimal {n : Nat} (hn : n < 2 ^ 31) (rest : Bytes) :
    Bytes.scanInt (Bytes.lf :: (Bytes.decimal n ++ Bytes.lf :: rest)) =
      .int n (Bytes.lf :: rest) := by
  obtain ⟨hblank, hsign, htake, hdrop⟩ := decimal_parts n (b := Bytes.lf) rfl rest
  have hlf : (Bytes.lf :: (Bytes.decimal n ++ Bytes.lf :: rest)).dropWhile Bytes.isspace =
      Bytes.decimal n ++ Bytes.lf :: rest := by
    rw [List.dropWhile_cons_of_pos rfl, hblank]
  unfold Bytes.scanInt
  simp only [hlf, hsign, htake, hdrop, Bytes.decimal_ne_nil, Bytes.digitsVal_decimal, if_false,
    Bool.false_eq_true, List.append_eq_nil_iff, false_and]
  congr 1
  have hclamp : max (-2 ^ 63) (min (2 ^ 63 - 1) (n : Int)) = n := by omega
  rw [hclamp]
  exact Int.bmod_eq_of_le (by omega) (by omega)

/-- The number of the writer stands in the file, whatever follows it. -/
theorem readLock_decimal {p : Nat} (hp : p < 2 ^ 63) (rest : Bytes) :
    ∃ bkgd, readLock (Bytes.decimal p ++ Bytes.lf :: rest) = some ((p : Int), bkgd) := by
  rw [readLock, scanLong_decimal hp]
  cases hscan : Bytes.scanInt (Bytes.lf :: rest) with
  | eof => exact ⟨false, by simp only [hscan]⟩
  | mismatch => exact ⟨false, by simp only [hscan]⟩
  | int n rest => exact ⟨true, by simp only [hscan]⟩

/-- A process number, or its negative, is an `int`. -/
theorem toInt_eq {n : Int} (hlow : -2 ^ 31 < n) (hhigh : n < 2 ^ 31) : toInt n = n :=
  Int.bmod_eq_of_le (by omega) (by omega)

/-- Another process is told who holds the lock, and by the sign whether it is a daemon. -/
theorem fmLockState_lockText {pid pollInterval : Nat} (hpid : pid < 2 ^ 31)
    (hinterval : pollInterval < 2 ^ 31) (alive : Int → Bool) :
    fmLockState (some (lockText pid pollInterval)) alive =
      if alive pid then (if pollInterval = 0 then (pid : Int) else -pid, false) else (0, true) := by
  have hread : readLock (lockText pid pollInterval) =
      some ((pid : Int), decide (pollInterval ≠ 0)) := by
    rw [lockText, readLock, scanLong_decimal (by omega)]
    by_cases h0 : pollInterval = 0
    · subst h0
      rfl
    · rw [if_neg h0]
      simp only [scanInt_decimal hinterval, h0, ne_eq, not_false_eq_true, decide_true]
  have hpos : toInt pid = pid := toInt_eq (by omega) (by omega)
  have hneg : toInt (-pid) = -pid := toInt_eq (by omega) (by omega)
  rw [fmLockState]
  simp only [hread, hpos]
  by_cases h0 : pollInterval = 0 <;> simp [h0, hpos, hneg]

theorem fmLockState_lockText_sample :
    fmLockState (some (lockText 4711 300)) (fun _ => true) =
      if true = true then (if 300 = 0 then ((4711 : Nat) : Int) else -(4711 : Nat), false)
      else (0, true) :=
  fmLockState_lockText (by decide) (by decide) fun _ => true

/-! ## Who owns the file -/

/-- The file is not that of a live process: none has just created it, and the number in it is that
of no live one. -/
structure Stale (s : Sys) (f : File) : Prop where
  abandoned : ∀ q, f.owner = some q → s.phase q ≠ .created
  dead : ∀ pid bkgd, readLock f.text = some (pid, bkgd) →
    ∀ q, (s.phase q).live = true → (q : Int) ≠ pid

/-- What the phase of a process says about the file: one that has created it still finds it, and
the number stays in it. -/
def Fits (file : Option File) (p : Nat) : Phase → Prop
  | .created => file = some ⟨some p, []⟩
  | .written => file = some ⟨some p, Bytes.decimal p ++ [Bytes.lf]⟩
  | .asserted | .parting | .holding =>
    ∃ f, file = some f ∧ ∃ bkgd, readLock f.text = some ((p : Int), bkgd)
  | .idle | .started | .stale | .clear | .gone => True

/-- A number in the file is that of some process. -/
def Plain (file : Option File) : Prop :=
  ∀ f, file = some f → ∀ pid bkgd, readLock f.text = some (pid, bkgd) → 0 ≤ pid ∧ pid < 2 ^ 31

/-- What every step keeps that does not remove the file of a live process. -/
structure Inv (s : Sys) : Prop where
  fits : ∀ p, Fits s.file p (s.phase p)
  plain : Plain s.file
  valid : ∀ p, (s.phase p).live = true → validPid p = true

/-- The step does not remove the file of a live process. -/
def Careful (s : Sys) : Act → Prop
  | .remove _ _ => ∀ f, s.file = some f → Stale s f
  | _ => True

/-- The step does not hand the lock on to a child. -/
def Act.attached : Act → Bool
  | .detach _ _ => false
  | _ => true

/-- The file is some process' own. -/
def Phase.owning (ph : Phase) : Bool := ph = .created || ph = .written || ph.acquired

section

variable {s s' : Sys} {p q : Nat} {ph : Phase} {file : Option File}

theorem enter_phase (s : Sys) (p q : Nat) (ph : Phase) :
    (s.enter p ph).phase q = if q = p then ph else s.phase q := rfl

theorem fits_of_not_owning (h : ph.owning = false) : Fits file p ph := by
  cases ph with
  | created | written | asserted | parting | holding => cases h
  | idle | started | stale | clear | gone => trivial

theorem owning_of_acquired (h : ph.acquired = true) : ph.owning = true := by
  simp only [Phase.owning, h, Bool.or_true]

theorem plain_none : Plain none := by
  intro f hf
  cases hf

theorem readLock_nil (x : Int × Bool) : readLock [] ≠ some x := by
  intro h
  cases h

theorem validPid_lt (hp : validPid p = true) : p < 2 ^ 31 := by
  simp only [validPid, Bool.and_eq_true, decide_eq_true_eq] at hp
  exact hp.2

theorem readLock_own (hp : validPid p = true) (rest : Bytes) :
    ∃ bkgd, readLock (Bytes.decimal p ++ Bytes.lf :: rest) = some ((p : Int), bkgd) := by
  apply readLock_decimal
  have hbound := validPid_lt hp
  omega

theorem plain_own (hp : validPid p = true) (rest : Bytes) :
    Plain (some ⟨some p, Bytes.decimal p ++ Bytes.lf :: rest⟩) := by
  intro f hf pid bkgd hread
  obtain ⟨b, hown⟩ := readLock_own hp rest
  have hbound := validPid_lt hp
  cases hf
  rw [hown] at hread
  cases hread
  omega

/-- The file of an owner: it is new, or the owner's number stands in it. -/
theorem Inv.owned (h : Inv s) (hq : (s.phase q).owning = true) :
    s.file = some ⟨some q, []⟩ ∧ s.phase q = .created ∨
      ∃ f, s.file = some f ∧ ∃ bkgd, readLock f.text = some ((q : Int), bkgd) := by
  have hfits := h.fits q
  have hvalid := h.valid q
  cases hph : s.phase q with
  | created =>
    rw [hph] at hfits
    exact Or.inl ⟨hfits, rfl⟩
  | written =>
    rw [hph] at hfits hvalid
    exact Or.inr ⟨_, hfits, readLock_own (hvalid rfl) []⟩
  | asserted | parting | holding =>
    rw [hph] at hfits
    exact Or.inr hfits
  | idle | started | stale | clear | gone =>
    rw [hph] at hq
    cases hq

/-- There is one owner at most. -/
theorem Inv.owner_unique (h : Inv s) (hp : (s.phase p).owning = true)
    (hq : (s.phase q).owning = true) : p = q := by
  rcases h.owned hp with ⟨h₁, -⟩ | ⟨f, h₁, b, hread₁⟩ <;>
    rcases h.owned hq with ⟨h₂, -⟩ | ⟨f', h₂, b', hread₂⟩ <;>
    rw [h₁] at h₂ <;> cases h₂
  · rfl
  · exact absurd hread₂ (readLock_nil _)
  · exact absurd hread₁ (readLock_nil _)
  · rw [hread₁] at hread₂
    exact Int.ofNat.inj (Prod.mk.inj (Option.some.inj hread₂)).1

/-- Over a stale file, or none, there is no owner. -/
theorem Inv.ownerless (h : Inv s) (hstale : ∀ f, s.file = some f → Stale s f) (q : Nat) :
    (s.phase q).owning = false := by
  rw [Bool.eq_false_iff]
  intro hq
  have hlive : (s.phase q).live = true := by
    cases hph : s.phase q with
    | created | written | asserted | parting | holding => rfl
    | idle | started | stale | clear | gone => rw [hph] at hq; cases hq
  rcases h.owned hq with ⟨hf, hph⟩ | ⟨f, hf, b, hread⟩
  · exact (hstale _ hf).abandoned q rfl hph
  · exact (hstale f hf).dead _ b hread q hlive rfl

/-- A process goes to a phase that the file fits. -/
theorem Inv.enter (h : Inv s) (hfits : Fits s.file p ph)
    (hvalid : ph.live = true → validPid p = true) : Inv (s.enter p ph) where
  fits q := by
    rw [enter_phase]
    split
    · next heq =>
      subst heq
      exact hfits
    · exact h.fits q
  plain := h.plain
  valid q hq := by
    rw [enter_phase] at hq
    split at hq
    · next heq =>
      subst heq
      exact hvalid hq
    · exact h.valid q hq

/-- A process changes the file, when no other one owns it. -/
theorem Inv.change (h : Inv s) (hothers : ∀ q, q ≠ p → (s.phase q).owning = false)
    (hfits : Fits file p ph) (hplain : Plain file) (hvalid : ph.live = true → validPid p = true) :
    Inv ({ s with file := file : Sys }.enter p ph) where
  fits q := by
    rw [enter_phase]
    split
    · next heq =>
      subst heq
      exact hfits
    · next hne => exact fits_of_not_owning (hothers q hne)
  plain := hplain
  valid q hq := by
    rw [enter_phase] at hq
    split at hq
    · next heq =>
      subst heq
      exact hvalid hq
    · exact h.valid q hq

/-! ## The steps -/

/-- The lock is asserted only over a process' own number, as a daemon's. -/
theorem resolve_hold {f : Flags} {self : Nat} {state : Int} (h : resolve f self state = .hold) :
    state < 0 ∧ -state = self := by
  unfold resolve at h
  by_cases hneg : state < 0
  · simp only [hneg, decide_true, if_true] at h
    split_ifs at h
    exact ⟨hneg, by assumption⟩
  · simp only [hneg, decide_false, Bool.not_false, Bool.or_true, if_true] at h
    split_ifs at h

theorem resolve_zero (f : Flags) (self : Nat) : resolve f self 0 ≠ .hold := by
  intro h
  exact absurd (resolve_hold h).1 (by omega)

/-- Where a process asserts the lock, its number stands in the file. -/
theorem asserted {f : Flags} {alive : Int → Bool} (hplain : Plain file)
    (hfresh : (fmLockState (file.map File.text) alive).2 = false)
    (h : resolve f p (fmLockState (file.map File.text) alive).1 = .hold) :
    ∃ g, file = some g ∧ ∃ bkgd, readLock g.text = some ((p : Int), bkgd) := by
  cases file with
  | none => exact absurd h (resolve_zero f p)
  | some g =>
    rw [Option.map_some] at hfresh h
    -- a file without a number is stale, and a stale lock is not held
    cases hread : readLock g.text with
    | none =>
      simp only [fmLockState, hread] at hfresh
      cases hfresh
    | some x =>
      obtain ⟨pid, bkgd⟩ := x
      obtain ⟨hpos, hbound⟩ := hplain g rfl pid bkgd hread
      have hpid : toInt pid = pid := toInt_eq (by omega) hbound
      have hneg : toInt (-pid) = -pid := toInt_eq (by omega) (by omega)
      simp only [fmLockState, hread, hpid] at hfresh h
      -- a live background lock is asserted only by the process with its number, one of the
      -- foreground by nobody
      by_cases ha : alive pid = true
      · rw [if_pos ha] at h
        have hstate := resolve_hold h
        cases bkgd with
        | false =>
          have hsign : pid < 0 := by simpa [hpid] using hstate.1
          omega
        | true =>
          have hown : pid = p := by simpa [hneg] using hstate.2
          exact ⟨g, rfl, true, by rw [hread, hown]⟩
      · rw [if_neg ha] at hfresh
        cases hfresh

theorem Inv.proceed (h : Inv s) (hlive : (s.phase p).live = true) {f : Flags} {state : Int}
    (hhold : resolve f p state = .hold → Fits s.file p .asserted) : Inv (s.proceed f p state) := by
  unfold Sys.proceed
  cases hres : resolve f p state with
  | goOn => exact h.enter trivial fun _ => h.valid p hlive
  | hold => exact h.enter (hhold hres) fun _ => h.valid p hlive
  | leave => exact h.enter trivial fun hgone => by cases hgone

/-- What the owner of a file appends is seen. -/
theorem append_own {s : Sys} {text more : Bytes} (h : s.file = some ⟨some p, text⟩) :
    s.append p more = { s with file := some ⟨some p, text ++ more⟩ } := by
  simp [Sys.append, h]

/-- The other processes own nothing beside an owner. -/
theorem Inv.others (h : Inv s) (hp : (s.phase p).owning = true) (q : Nat) (hne : q ≠ p) :
    (s.phase q).owning = false := by
  rw [Bool.eq_false_iff]
  exact fun hq => hne (h.owner_unique hq hp)

/-- A step that does not remove the file of a live process, nor hands it on, keeps the
invariant. -/
theorem Inv.step (h : Inv s) {a : Act} (hc : Careful s a) (hattached : a.attached = true)
    (hs : step s a = some s') : Inv s' := by
  cases a with
  | start p =>
    simp only [Lock.step, Bool.and_eq_true, Option.ite_none_right_eq_some, Option.some.injEq] at hs
    obtain ⟨⟨-, hvalid⟩, rfl⟩ := hs
    exact h.enter trivial fun _ => hvalid
  | check p f others =>
    simp only [Lock.step, Option.ite_none_right_eq_some] at hs
    obtain ⟨hph, hs⟩ := hs
    have hlive : (s.phase p).live = true := by rw [hph]; rfl
    split at hs
    · cases hs
      exact h.enter trivial fun _ => h.valid p hlive
    · next hfresh =>
      cases hs
      exact h.proceed hlive fun hhold =>
        asserted h.plain (by simpa using hfresh) hhold
  | remove p f =>
    simp only [Lock.step, Option.ite_none_right_eq_some, Option.some.injEq] at hs
    obtain ⟨hph, rfl⟩ := hs
    have hnone : Inv { s with file := none : Sys } :=
      ⟨fun q => fits_of_not_owning (h.ownerless hc q), plain_none, h.valid⟩
    exact hnone.proceed (by change (s.phase p).live = true; rw [hph]; rfl)
      fun hhold => absurd hhold (resolve_zero f p)
  | fork p child =>
    simp only [Lock.step, Bool.and_eq_true, Option.ite_none_right_eq_some, Option.some.injEq] at hs
    obtain ⟨⟨-, hvalid⟩, rfl⟩ := hs
    have hgone : Inv (s.enter p .gone) := h.enter trivial fun hgone => by cases hgone
    exact hgone.enter trivial fun _ => hvalid
  | settle p =>
    simp only [Lock.step, Option.ite_none_right_eq_some, Option.some.injEq] at hs
    obtain ⟨hph, rfl⟩ := hs
    have hfile := h.fits p
    rw [hph] at hfile
    exact h.enter hfile fun _ => h.valid p (by rw [hph]; rfl)
  | detach p child => cases hattached
  | create p =>
    simp only [Lock.step, Option.ite_none_right_eq_some] at hs
    obtain ⟨hph, hs⟩ := hs
    have hvalid : validPid p = true := h.valid p (by rw [hph]; rfl)
    split at hs
    · next hfile =>
      cases hs
      -- where there is no file, nobody owns one
      have hnone : s.file = none := by simpa using hfile
      refine h.change (fun q _ => h.ownerless (by simp [hnone]) q) rfl ?_ fun _ => hvalid
      intro f hf pid bkgd hread
      cases hf
      exact absurd hread (readLock_nil _)
    · cases hs
      exact h.enter trivial fun hgone => by cases hgone
  | write p =>
    simp only [Lock.step, Option.ite_none_right_eq_some, Option.some.injEq] at hs
    obtain ⟨hph, rfl⟩ := hs
    have hvalid : validPid p = true := h.valid p (by rw [hph]; rfl)
    have hfile := h.fits p
    rw [hph] at hfile
    rw [append_own hfile, List.nil_append]
    exact h.change (h.others (by rw [hph]; rfl)) rfl (plain_own hvalid []) fun _ => hvalid
  | finish p pollInterval =>
    simp only [Lock.step, Option.ite_none_right_eq_some, Option.some.injEq] at hs
    obtain ⟨hph, rfl⟩ := hs
    have hvalid : validPid p = true := h.valid p (by rw [hph]; rfl)
    have hfile := h.fits p
    rw [hph] at hfile
    rw [append_own hfile, List.append_assoc]
    refine h.change (h.others (by rw [hph]; rfl)) ⟨_, rfl, ?_⟩ ?_ fun _ => hvalid
    · exact readLock_own hvalid _
    · exact plain_own hvalid _
  | reexec p =>
    simp only [Lock.step, Option.ite_none_right_eq_some, Option.some.injEq] at hs
    obtain ⟨hph, rfl⟩ := hs
    exact h.enter trivial fun _ => h.valid p (by rw [hph]; rfl)
  | leave p =>
    simp only [Lock.step] at hs
    split at hs
    · next hacquired =>
      cases hs
      exact h.change (h.others (owning_of_acquired hacquired)) trivial plain_none
        fun hgone => by cases hgone
    · simp only [Option.ite_none_right_eq_some, Option.some.injEq] at hs
      obtain ⟨-, rfl⟩ := hs
      exact h.enter trivial fun hgone => by cases hgone
  | crash p =>
    simp only [Lock.step, Option.ite_none_right_eq_some, Option.some.injEq] at hs
    obtain ⟨-, rfl⟩ := hs
    exact h.enter trivial fun hgone => by cases hgone

/-! ## Runs -/

/-- The processes that hold the lock are not two. -/
def Exclusive (s : Sys) : Prop :=
  ∀ p q, (s.phase p).acquired = true → (s.phase q).acquired = true → p = q

theorem Inv.exclusive (h : Inv s) : Exclusive s := by
  intro p q hp hq
  exact h.owner_unique (owning_of_acquired hp) (owning_of_acquired hq)

/-- Before any process runs, with a lock file that may have been left behind. -/
def init (file : Option File) : Sys := ⟨file, fun _ => .idle⟩

theorem inv_init (hplain : Plain file) : Inv (init file) where
  fits _ := trivial
  plain := hplain
  valid p hp := by cases hp

/-- A condition is met at every step of a run, in the state in which it is taken. -/
def Along (P : Sys → Act → Prop) : Sys → List Act → Prop
  | _, [] => True
  | s, a :: acts => P s a ∧ ∀ s', step s a = some s' → Along P s' acts

/-- A condition is met in every state of a run. -/
def Throughout (P : Sys → Prop) : Sys → List Act → Prop
  | s, [] => P s
  | s, a :: acts => P s ∧ ∀ s', step s a = some s' → Throughout P s' acts

/-- No process hands the lock on to a child: one that restarts does not detach, or is a child of
process 1. -/
def Attached (acts : List Act) : Prop := ∀ a ∈ acts, a.attached = true

theorem Along.cons {P : Sys → Act → Prop} {a : Act} {acts : List Act} (hP : P s a)
    (hs : step s a = some s') (h : Along P s' acts) : Along P s (a :: acts) := by
  refine ⟨hP, fun s₁ hs₁ => ?_⟩
  rw [hs] at hs₁
  cases hs₁
  exact h

theorem Throughout.here {P : Sys → Prop} {acts : List Act} (h : Throughout P s acts) : P s := by
  cases acts with
  | nil => exact h
  | cons a acts => exact h.1

theorem Inv.run (h : Inv s) {acts : List Act} (hcareful : Along Careful s acts)
    (hattached : Attached acts) (hrun : run s acts = some s') : Inv s' := by
  induction acts generalizing s with
  | nil =>
    cases hrun
    exact h
  | cons a acts ih =>
    rw [Lock.run] at hrun
    obtain ⟨s₁, hstep, hrest⟩ := Option.bind_eq_some_iff.mp hrun
    have hinv : Inv s₁ := h.step hcareful.1 (hattached a List.mem_cons_self) hstep
    apply ih hinv (hcareful.2 s₁ hstep) _ hrest
    exact fun b hb => hattached b (List.mem_cons_of_mem a hb)

/-- Whatever the order of the steps, and wherever processes exit, die or restart: two processes
hold the lock at once only after a process has removed the file of a live one, or a restarted one
has handed the lock on to a child. -/
theorem exclusive_of_careful (hplain : Plain file) {acts : List Act}
    (hcareful : Along Careful (init file) acts) (hattached : Attached acts)
    (hrun : run (init file) acts = some s) : Exclusive s :=
  ((inv_init hplain).run hcareful hattached hrun).exclusive

/-- A plain start. -/
def plainStart : Flags := ⟨false, false, false, true, false⟩

/-- `kill` finds no one else. -/
def noOthers : Int → Bool := fun _ => false

/-- The file of a daemon that has died. -/
def leftBehind : File := ⟨none, lockText 5 300⟩

theorem plain_leftBehind : Plain (some leftBehind) := by
  intro f hf pid bkgd hread
  have hfive : readLock leftBehind.text = some (5, true) := by decide
  cases hf
  rw [hfive] at hread
  cases hread
  decide

/-- Two processes start over the file of a dead one. The first removes it, the second finds none
but is too late to create it; the first restarts, and a third one finds it at work. -/
def sampleRun : List Act :=
  [.start 7, .start 8, .check 7 plainStart noOthers, .remove 7 plainStart,
    .check 8 plainStart noOthers, .create 7, .create 8, .write 7, .finish 7 300, .reexec 7,
    .check 7 plainStart noOthers, .settle 7, .start 9, .check 9 plainStart noOthers]

-- where the first one looks, the number in the file is that of no live process
theorem stale_leftBehind {s : Sys} (hfile : s.file = some leftBehind)
    (hdead : (s.phase 5).live = false) : ∀ f, s.file = some f → Stale s f := by
  intro f hf
  rw [hfile] at hf
  cases hf
  refine ⟨?_, ?_⟩
  · intro q hq
    cases hq
  intro pid bkgd hread q hlive hq
  have hfive : readLock leftBehind.text = some (5, true) := by decide
  rw [hfive] at hread
  cases hread
  have heq : q = 5 := by omega
  rw [heq, hdead] at hlive
  cases hlive

theorem exclusive_of_careful_sample :
    ∃ s, run (init (some leftBehind)) sampleRun = some s ∧ s.phase 7 = .holding ∧
      s.phase 8 = .gone ∧ s.phase 9 = .gone ∧ Exclusive s := by
  have hattached : Attached sampleRun := by simp [Attached, sampleRun, Act.attached]
  refine ⟨_, rfl, by decide, by decide, by decide,
    exclusive_of_careful plain_leftBehind ?_ hattached rfl⟩
  apply Along.cons trivial rfl
  apply Along.cons trivial rfl
  apply Along.cons trivial rfl
  apply Along.cons (stale_leftBehind rfl rfl) rfl
  repeat apply Along.cons trivial rfl
  trivial

-- a process that looks at a file between its creation and the first write takes it to be stale,
-- and then both hold the lock
example : (run (init none) [.start 7, .check 7 plainStart noOthers, .create 7, .start 8,
    .check 8 plainStart noOthers, .remove 8 plainStart, .create 8, .write 8, .finish 8 0,
    .write 7, .finish 7 0]).map (fun s => (s.phase 7, s.phase 8)) = some (.holding, .holding) := by
  decide

-- a daemon that restarts and detaches once more exits with `lock_acquired` set: the file of its
-- child is gone, and the next start gets the lock as well
example : (run (init none) [.start 7, .check 7 plainStart noOthers, .create 7, .write 7,
    .finish 7 300, .reexec 7, .check 7 plainStart noOthers, .detach 7 8, .leave 7, .start 9,
    .check 9 plainStart noOthers, .create 9, .write 9, .finish 9 0]).map
      (fun s => (s.phase 8, s.phase 9)) = some (.holding, .holding) := by
  decide

/-! ## Starts that do not overlap -/

/-- One process at most is on its way to the lock. -/
def OneStarting (s : Sys) : Prop :=
  ∀ p q, (s.phase p).starting = true → (s.phase q).starting = true → p = q

/-- A process that is about to remove the file is right about it. -/
def Informed (s : Sys) : Prop := ∀ p, s.phase p = .stale → ∀ f, s.file = some f → Stale s f

/-- What was stale when it was looked at. -/
theorem stale_of_check {f : File} {others : Int → Bool} (hinv : Inv s) (hone : OneStarting s)
    (hph : s.phase p = .started) (hfile : s.file = some f)
    (hstate : (fmLockState (s.file.map File.text) (s.alive others)).2 = true) :
    Stale (s.enter p .stale) f := by
  have hcreated : ∀ q, (s.enter p .stale).phase q ≠ .created := by
    intro q hq
    rw [enter_phase] at hq
    split at hq
    · cases hq
    · next hne => exact hne (hone q p (by rw [hq]; rfl) (by rw [hph]; rfl))
  refine ⟨fun q _ => hcreated q, ?_⟩
  intro pid bkgd hread q hlive hpid
  have hq : (s.phase q).live = true := by
    rw [enter_phase] at hlive
    split at hlive
    · next heq => rw [heq, hph]; rfl
    · exact hlive
  have hbound := validPid_lt (hinv.valid q hq)
  have hint : toInt pid = pid := toInt_eq (by omega) (by omega)
  have halive : s.alive others pid = true := by
    subst hpid
    simp [Sys.alive, hq]
  rw [hfile, Option.map_some] at hstate
  simp only [fmLockState, hread, hint] at hstate
  rw [if_pos halive] at hstate
  cases hstate

/-- What a process that goes elsewhere leaves as it is. -/
theorem phase_of_enter {r : Nat} (hne : ph ≠ .stale) (hr : (s.enter p ph).phase r = .stale) :
    r ≠ p ∧ s.phase r = .stale := by
  rw [enter_phase] at hr
  split at hr
  · exact absurd hr hne
  · next h => exact ⟨h, hr⟩

theorem phase_of_proceed {r : Nat} {f : Flags} {state : Int}
    (hr : (s.proceed f p state).phase r = .stale) : r ≠ p ∧ s.phase r = .stale := by
  unfold Sys.proceed at hr
  cases hres : resolve f p state <;> rw [hres] at hr <;> exact phase_of_enter (by decide) hr

theorem starting_of_live (hlive : (s.phase p).live = true)
    (hnot : (s.phase p).acquired = false) : (s.phase p).starting = true := by
  simpa [Phase.live, hnot] using hlive

/-- A file that is stale stays so while no process becomes alive or creates it. -/
theorem Stale.enter {f : File} (h : Stale s f) (hcreated : ph ≠ .created)
    (hlive : ph.live = true → (s.phase p).live = true) : Stale (s.enter p ph) f where
  abandoned q hq hph := by
    rw [enter_phase] at hph
    split at hph
    · exact hcreated hph
    · exact h.abandoned q hq hph
  dead pid bkgd hread q hq := by
    rw [enter_phase] at hq
    split at hq
    · next heq => exact h.dead pid bkgd hread q (by rw [heq]; exact hlive hq)
    · exact h.dead pid bkgd hread q hq

/-- While a process is about to remove the file, no other one takes a step that would make it
wrong about it. -/
theorem Informed.step (hinv : Inv s) (hone : OneStarting s) (hone' : OneStarting s')
    (h : Informed s) {a : Act} (hattached : a.attached = true) (hs : step s a = some s') :
    Informed s' := by
  -- a second process on its way is excluded
  have hclash : ∀ {r p}, r ≠ p ∧ s.phase r = .stale → (s.phase p).starting = true → False :=
    fun hr hp => hr.1 (hone _ _ (by rw [hr.2]; rfl) hp)
  intro r hr f hf
  cases a with
  | start p =>
    simp only [Lock.step, Option.ite_none_right_eq_some, Option.some.injEq] at hs
    obtain ⟨-, rfl⟩ := hs
    have hne := phase_of_enter (by decide) hr
    exact absurd (hone' r p (by rw [hr]; rfl) (by simp [enter_phase, Phase.starting])) hne.1
  | check p fl others =>
    simp only [Lock.step, Option.ite_none_right_eq_some] at hs
    obtain ⟨hph, hs⟩ := hs
    have hstart : (s.phase p).starting = true := by rw [hph]; rfl
    split at hs
    · next hstate =>
      cases hs
      by_cases heq : r = p
      · exact stale_of_check hinv hone hph hf hstate
      · rw [enter_phase, if_neg heq] at hr
        exact (hclash ⟨heq, hr⟩ hstart).elim
    · cases hs
      exact (hclash (phase_of_proceed hr) hstart).elim
  | remove p fl =>
    simp only [Lock.step, Option.ite_none_right_eq_some, Option.some.injEq] at hs
    obtain ⟨hph, rfl⟩ := hs
    obtain ⟨hne, hstale⟩ := phase_of_proceed hr
    exact (hclash ⟨hne, hstale⟩ (by rw [hph]; rfl)).elim
  | fork p child =>
    simp only [Lock.step, Bool.and_eq_true, decide_eq_true_eq, Option.ite_none_right_eq_some,
      Option.some.injEq] at hs
    obtain ⟨⟨⟨hph, -⟩, -⟩, rfl⟩ := hs
    have hgone := (phase_of_enter (by decide) hr).2
    exact (hclash (phase_of_enter (by decide) hgone) (by rw [hph]; rfl)).elim
  | settle p =>
    simp only [Lock.step, Option.ite_none_right_eq_some, Option.some.injEq] at hs
    obtain ⟨hph, rfl⟩ := hs
    exact (h r (phase_of_enter (by decide) hr).2 f hf).enter (by decide) fun _ => by rw [hph]; rfl
  | detach p child => cases hattached
  | create p =>
    simp only [Lock.step, Option.ite_none_right_eq_some] at hs
    obtain ⟨hph, hs⟩ := hs
    have hstart : (s.phase p).starting = true := by rw [hph]; rfl
    split at hs <;> cases hs <;> exact (hclash (phase_of_enter (by decide) hr) hstart).elim
  | write p =>
    simp only [Lock.step, Option.ite_none_right_eq_some, Option.some.injEq] at hs
    obtain ⟨hph, rfl⟩ := hs
    exact (hclash (phase_of_enter (by decide) hr) (by rw [hph]; rfl)).elim
  | finish p pollInterval =>
    simp only [Lock.step, Option.ite_none_right_eq_some, Option.some.injEq] at hs
    obtain ⟨hph, rfl⟩ := hs
    exact (hclash (phase_of_enter (by decide) hr) (by rw [hph]; rfl)).elim
  | reexec p =>
    simp only [Lock.step, Option.ite_none_right_eq_some, Option.some.injEq] at hs
    obtain ⟨-, rfl⟩ := hs
    have hne := phase_of_enter (by decide) hr
    exact absurd (hone' r p (by rw [hr]; rfl) (by simp [enter_phase, Phase.starting])) hne.1
  | leave p =>
    simp only [Lock.step] at hs
    split at hs
    · cases hs
      cases hf
    · next hnot =>
      simp only [Option.ite_none_right_eq_some, Option.some.injEq] at hs
      obtain ⟨hlive, rfl⟩ := hs
      have hstart := starting_of_live hlive (by simpa using hnot)
      exact (hclash (phase_of_enter (by decide) hr) hstart).elim
  | crash p =>
    simp only [Lock.step, Option.ite_none_right_eq_some, Option.some.injEq] at hs
    obtain ⟨hlive, rfl⟩ := hs
    -- the death of a process does not make a stale file live
    exact (h r (phase_of_enter (by decide) hr).2 f hf).enter (by decide) fun _ => hlive

/-- A process that removes the file knew that it was stale. -/
theorem Informed.careful (h : Informed s) {a : Act} (hs : Lock.step s a = some s') : Careful s a := by
  cases a with
  | remove p f =>
    simp only [Lock.step, Option.ite_none_right_eq_some] at hs
    exact h p hs.1
  | start | check | fork | settle | detach | create | write | finish | reexec | leave | crash =>
    trivial

theorem Inv.run_oneStarting (hinv : Inv s) (h : Informed s) {acts : List Act}
    (hone : Throughout OneStarting s acts) (hattached : Attached acts)
    (hrun : Lock.run s acts = some s') : Inv s' := by
  induction acts generalizing s with
  | nil =>
    cases hrun
    exact hinv
  | cons a acts ih =>
    rw [Lock.run] at hrun
    obtain ⟨s₁, hstep, hrest⟩ := Option.bind_eq_some_iff.mp hrun
    have ha : a.attached = true := hattached a List.mem_cons_self
    have hone₁ := hone.2 s₁ hstep
    have hinv₁ : Inv s₁ := hinv.step (h.careful hstep) ha hstep
    have h₁ : Informed s₁ := h.step hinv hone.1 hone₁.here ha hstep
    exact ih hinv₁ h₁ hone₁ (fun b hb => hattached b (List.mem_cons_of_mem a hb)) hrest

/-- As long as starts do not overlap, and no restarted process hands the lock on to a child, one
process at most holds the lock, whatever else the processes do and wherever they exit, die or
restart. -/
theorem exclusive_of_oneStarting (hplain : Plain file) {acts : List Act}
    (hone : Throughout OneStarting (init file) acts) (hattached : Attached acts)
    (hrun : run (init file) acts = some s) : Exclusive s := by
  have hinformed : Informed (init file) := by
    intro p hp
    cases hp
  exact ((inv_init hplain).run_oneStarting hinformed hone hattached hrun).exclusive

/-- No other process is on its way to the lock. -/
def Quiet (s : Sys) (p : Nat) : Prop := ∀ q, q ≠ p → (s.phase q).starting = false

/-- The step is one of a process alone. -/
def Act.of (p : Nat) : Act → Bool
  | .fork _ _ | .detach _ _ => false
  | .start q | .check q _ _ | .remove q _ | .settle q | .create q | .write q | .finish q _
  | .reexec q | .leave q | .crash q => q = p

/-- The steps of one process leave the others where they are. -/
theorem phase_of_step {a : Act} (ha : a.of p = true) (hs : step s a = some s') (hq : q ≠ p) :
    s'.phase q = s.phase q := by
  have henter : ∀ (s : Sys) ph, (s.enter p ph).phase q = s.phase q :=
    fun s ph => by rw [enter_phase, if_neg hq]
  have hproceed : ∀ (s : Sys) f state, (s.proceed f p state).phase q = s.phase q := by
    intro s f state
    unfold Sys.proceed
    cases resolve f p state <;> exact henter s _
  -- each step writes the phase of its own process only; two of them stand for two processes
  cases a with
  | fork r child | detach r child => cases ha
  | start r | settle r | reexec r | crash r | write r | finish r pollInterval =>
    obtain rfl : r = p := by simpa [Act.of] using ha
    simp only [step, Option.ite_none_right_eq_some, Option.some.injEq] at hs
    obtain ⟨-, rfl⟩ := hs
    exact henter _ _
  | check r f others =>
    obtain rfl : r = p := by simpa [Act.of] using ha
    simp only [step, Option.ite_none_right_eq_some] at hs
    obtain ⟨-, hs⟩ := hs
    split at hs <;> cases hs
    · exact henter _ _
    · exact hproceed _ _ _
  | remove r f =>
    obtain rfl : r = p := by simpa [Act.of] using ha
    simp only [step, Option.ite_none_right_eq_some, Option.some.injEq] at hs
    obtain ⟨-, rfl⟩ := hs
    exact hproceed _ _ _
  | create r =>
    obtain rfl : r = p := by simpa [Act.of] using ha
    simp only [step, Option.ite_none_right_eq_some] at hs
    obtain ⟨-, hs⟩ := hs
    split at hs <;> cases hs <;> exact henter _ _
  | leave r =>
    obtain rfl : r = p := by simpa [Act.of] using ha
    simp only [step] at hs
    split at hs
    · cases hs
      exact henter _ _
    · simp only [Option.ite_none_right_eq_some, Option.some.injEq] at hs
      obtain ⟨-, rfl⟩ := hs
      exact henter _ _

theorem Quiet.oneStarting (h : Quiet s p) : OneStarting s := by
  have hp : ∀ q, (s.phase q).starting = true → q = p := by
    intro q hq
    by_contra hne
    rw [h q hne] at hq
    cases hq
  intro q r hq hr
  rw [hp q hq, hp r hr]

/-- When the process has come to the end of its start, another one may take its place. -/
theorem Quiet.other (h : Quiet s p) (hp : (s.phase p).starting = false) (q : Nat) :
    Quiet s q := by
  intro r _
  by_cases heq : r = p
  · rw [heq, hp]
  · exact h r heq

theorem Quiet.step (h : Quiet s p) {a : Act} (ha : a.of p = true) (hs : Lock.step s a = some s') :
    Quiet s' p := by
  intro q hq
  rw [phase_of_step ha hs hq]
  exact h q hq

theorem Quiet.run (h : Quiet s p) {acts : List Act} (hacts : ∀ a ∈ acts, a.of p = true)
    (hrun : Lock.run s acts = some s') : Quiet s' p := by
  induction acts generalizing s with
  | nil =>
    cases hrun
    exact h
  | cons a acts ih =>
    rw [Lock.run] at hrun
    obtain ⟨s₁, hstep, hrest⟩ := Option.bind_eq_some_iff.mp hrun
    exact ih (h.step (hacts a List.mem_cons_self) hstep)
      (fun b hb => hacts b (List.mem_cons_of_mem a hb)) hrest

/-- Starts do not overlap while one process alone takes steps and no other is on its way. -/
theorem Quiet.throughout (h : Quiet s p) {acts : List Act}
    (hacts : ∀ a ∈ acts, a.of p = true) : Throughout OneStarting s acts := by
  induction acts generalizing s with
  | nil => exact h.oneStarting
  | cons a acts ih =>
    refine ⟨h.oneStarting, fun s₁ hstep => ?_⟩
    apply ih (h.step (hacts a List.mem_cons_self) hstep)
    exact fun b hb => hacts b (List.mem_cons_of_mem a hb)

theorem Throughout.append {P : Sys → Prop} {acts more : List Act} (h : Throughout P s acts)
    (hmore : ∀ s', run s acts = some s' → Throughout P s' more) :
    Throughout P s (acts ++ more) := by
  induction acts generalizing s with
  | nil => exact hmore s rfl
  | cons a acts ih =>
    refine ⟨h.1, fun s₁ hstep => ?_⟩
    apply ih (h.2 s₁ hstep)
    intro s' hrun
    exact hmore s' (by rw [run, hstep]; exact hrun)

/-- A process starts over the file of a dead one, and restarts. -/
def firstDaemon : List Act :=
  [.start 7, .check 7 plainStart noOthers, .remove 7 plainStart, .create 7, .write 7,
    .finish 7 300, .reexec 7, .check 7 plainStart noOthers, .settle 7]

/-- One that finds it at work. -/
def tooLate : List Act := [.start 8, .check 8 plainStart noOthers]

/-- After its death, one that takes the lock. -/
def successor : List Act :=
  [.start 9, .check 9 plainStart noOthers, .remove 9 plainStart, .create 9, .write 9, .finish 9 0]

theorem exclusive_of_oneStarting_sample :
    ∃ s, run (init (some leftBehind)) (firstDaemon ++ (tooLate ++ (.crash 7 :: successor))) =
      some s ∧ s.phase 7 = .gone ∧ s.phase 8 = .gone ∧ s.phase 9 = .holding ∧ Exclusive s := by
  have hattached : Attached (firstDaemon ++ (tooLate ++ (.crash 7 :: successor))) := by
    simp [Attached, firstDaemon, tooLate, successor, Act.attached]
  refine ⟨_, rfl, by decide, by decide, by decide,
    exclusive_of_oneStarting plain_leftBehind ?_ hattached rfl⟩
  have hfirst : ∀ a ∈ firstDaemon, a.of 7 = true := by simp [firstDaemon, Act.of]
  have hlate : ∀ a ∈ tooLate, a.of 8 = true := by simp [tooLate, Act.of]
  have hdeath : ∀ a ∈ [Act.crash 7], a.of 7 = true := by simp [Act.of]
  have hlast : ∀ a ∈ successor, a.of 9 = true := by simp [successor, Act.of]
  -- before each start no other process is between reading the file and writing it
  have hinit : Quiet (init (some leftBehind)) 7 := fun _ _ => rfl
  apply Throughout.append (hinit.throughout hfirst)
  intro s₁ h₁
  have hquiet₁ := hinit.run hfirst h₁
  cases h₁
  replace hquiet₁ := hquiet₁.other rfl 8
  apply Throughout.append (hquiet₁.throughout hlate)
  intro s₂ h₂
  have hquiet₂ := hquiet₁.run hlate h₂
  cases h₂
  replace hquiet₂ := hquiet₂.other rfl 7
  have hdying : Throughout _ _ [.crash 7] := hquiet₂.throughout hdeath
  apply hdying.append
  intro s₃ h₃
  have hquiet₃ := hquiet₂.run hdeath h₃
  cases h₃
  exact (hquiet₃.other rfl 9).throughout hlast

end

end Fetchmail.Lock
