import Fetchmail.Basic
import Mathlib.Data.List.Induction

/-!
# The Poll Loop

The loop of `main` in `fetchmail.c`: which accounts a poll cycle queries, what it does when the
cycle is over, and the exit status. What `interface_approve` and `query_host` come to, and
whether a signal ends the pause after a cycle, is up to the world. The restart on a changed
rc-file, which replaces the process, and what is reported are left out. The counts, which are
`int` in the source, are taken to stay below `2^31`.
-/

namespace Fetchmail.PollLoop

/-- What the loop reads and writes of a `struct query`. -/
structure Account where
  active : Bool
  /-- `server.skip` -/
  skip : Bool
  /-- `server.interval` -/
  interval : Nat
  /-- `server.poll_count`, an `int`: it is taken to stay below `2^31` -/
  pollCount : Nat
  wedged : Bool
  fastuidl : Int
  fastuidlcount : Int
  deriving DecidableEq, Repr

/-- The global settings that the loop reads. -/
structure Globals where
  /-- `run.poll_interval` -/
  pollInterval : Nat
  implicitmode : Bool
  deriving DecidableEq, Repr

/-- What the world answers when it is an account's turn. -/
structure Turn where
  /-- `interface_approve` -/
  approved : Bool
  /-- `query_host` -/
  status : Ps
  /-- `query_host` has given the account up after too many timeouts -/
  wedges : Bool
  deriving DecidableEq, Repr

/-- A poll cycle: the answers for each account, and whether a signal ends the pause. -/
structure Cycle where
  turn : Nat → Turn
  awoken : Bool

/-- `querystatus` and `successes` -/
structure Tally where
  querystatus : Ps
  successes : Nat
  deriving DecidableEq, Repr

namespace Account

/-- The account belongs to what is polled. -/
def eligible (g : Globals) (ctl : Account) : Bool := ctl.active && !(g.implicitmode && ctl.skip)

/-- The skip interval is looked at. -/
def counted (g : Globals) (ctl : Account) : Bool := g.pollInterval ≠ 0 && ctl.interval ≠ 0

/-- It is the account's poll: `poll_count % interval` is zero, or there is no interval. -/
def due (g : Globals) (ctl : Account) : Bool :=
  !ctl.counted g || ctl.pollCount % ctl.interval = 0

/-- `poll_count++`, where the interval is looked at. -/
def count (g : Globals) (ctl : Account) : Account :=
  { ctl with pollCount := if ctl.counted g then ctl.pollCount + 1 else ctl.pollCount }

/-- The account has been queried. -/
def queried (t : Turn) (ctl : Account) : Account :=
  { ctl with
    wedged := t.wedges
    fastuidlcount := if numNonzero ctl.fastuidl then (ctl.fastuidlcount + 1) % ctl.fastuidl
      else ctl.fastuidlcount }

/-- The body of the loop over `querylist`: the account, and the status if it was queried. -/
def poll (g : Globals) (t : Turn) (ctl : Account) : Account × Option Ps :=
  if ctl.eligible g then
    if ctl.wedged then (ctl, none)
    -- the interval comes first, so that it counts all polls
    else if ctl.due g then
      if t.approved then ((ctl.count g).queried t, some t.status) else (ctl.count g, none)
    else (ctl.count g, none)
  else (ctl, none)

end Account

/-- The status of a query is noted. -/
def Tally.note (tally : Tally) : Option Ps → Tally
  | none => tally
  | some status =>
    ⟨status, if status = .success then tally.successes + 1 else tally.successes⟩

/-- The loop over `querylist`. -/
def pollList (g : Globals) : List Account → (Nat → Turn) → Tally → List Account × Tally
  | [], _, tally => ([], tally)
  | ctl :: rest, turn, tally =>
    let polled := ctl.poll g (turn 0)
    let others := pollList g rest (fun k => turn (k + 1)) (tally.note polled.2)
    (polled.1 :: others.1, others.2)

/-- The variables of the loop. -/
structure Main where
  querylist : List Account
  tally : Tally
  deriving DecidableEq, Repr

/-- `successes = 0; querystatus = 0;` -/
def Main.start (querylist : List Account) : Main := ⟨querylist, ⟨.success, 0⟩⟩

/-- The status at normal termination. -/
def Tally.exitStatus (tally : Tally) : Ps :=
  if tally.successes ≠ 0 then .success
  else if tally.querystatus ≠ .success then tally.querystatus
  else .nomail

/-- One pass of the `do` loop: the variables after it, and the exit status if it is the last. -/
def Main.cycle (g : Globals) (s : Main) (c : Cycle) : Main × Option Ps :=
  let polled := pollList g s.querylist c.turn s.tally
  let s : Main := ⟨polled.1, polled.2⟩
  if g.pollInterval = 0 then (s, some s.tally.exitStatus)
  else if s.querylist.all fun ctl => !ctl.eligible g || ctl.wedged then (s, some .authfail)
  -- a wakeup signal gives all servers another chance
  else if c.awoken then
    ({ s with querylist := s.querylist.map fun ctl => { ctl with wedged := false } }, none)
  else (s, none)

/-- The `do` loop over cycles that the world gives. -/
def Main.run (g : Globals) (s : Main) : List Cycle → Main × Option Ps
  | [] => (s, none)
  | c :: cs =>
    let after := s.cycle g c
    if after.2.isSome then after else after.1.run g cs

/-! ## One account among the others -/

section

variable {g : Globals} {k : Nat}

theorem pollList_getElem? (l : List Account) (turn : Nat → Turn) (tally : Tally) (k : Nat) :
    (pollList g l turn tally).1[k]? = l[k]?.map fun ctl => (ctl.poll g (turn k)).1 := by
  induction l generalizing turn tally k with
  | nil => rfl
  | cons ctl rest ih =>
    cases k with
    | zero => rfl
    | succ k => exact ih _ _ k

/-- The account when a cycle is over. -/
def Account.after (g : Globals) (k : Nat) (ctl : Account) (c : Cycle) : Account :=
  let polled := (ctl.poll g (c.turn k)).1
  if c.awoken then { polled with wedged := false } else polled

/-- The account when some cycles are over. -/
def Account.history (g : Globals) (k : Nat) (ctl : Account) (cs : List Cycle) : Account :=
  cs.foldl (Account.after g k) ctl

theorem cycle_getElem? {s : Main} {c : Cycle} (hnone : (s.cycle g c).2 = none) (k : Nat) :
    (s.cycle g c).1.querylist[k]? = s.querylist[k]?.map fun ctl => ctl.after g k c := by
  have hlist := pollList_getElem? (g := g) s.querylist c.turn s.tally k
  unfold Main.cycle at hnone ⊢
  by_cases hp : g.pollInterval = 0
  · simp [hp] at hnone
  · simp only [if_neg hp] at hnone ⊢
    by_cases hall : (pollList g s.querylist c.turn s.tally).1.all
        (fun ctl => !ctl.eligible g || ctl.wedged) = true
    · simp [hall] at hnone
    · rw [if_neg hall]
      by_cases hw : c.awoken = true
      · simp [hw, hlist, Account.after]
        rfl
      · simp [hw, hlist, Account.after]

/-- Over a run that goes on, each account goes its own way. -/
theorem run_getElem? {s s' : Main} {cs : List Cycle} (hrun : s.run g cs = (s', none)) (k : Nat) :
    s'.querylist[k]? = s.querylist[k]?.map fun ctl => ctl.history g k cs := by
  induction cs generalizing s with
  | nil =>
    cases hrun
    simp [Account.history]
  | cons c cs ih =>
    rw [Main.run] at hrun
    by_cases hend : (s.cycle g c).2.isSome = true
    · simp only [hend, if_true] at hrun
      simp [hrun] at hend
    · simp only [hend, Bool.false_eq_true, if_false] at hrun
      have hnone : (s.cycle g c).2 = none := by simpa using hend
      rw [ih hrun, cycle_getElem? hnone, Option.map_map]
      rfl

/-! ## What a cycle does to an account -/

theorem Account.poll_fst_cases (t : Turn) (ctl : Account) :
    (ctl.poll g t).1 = ctl ∨ (ctl.poll g t).1 = ctl.count g ∨
      (ctl.poll g t).1 = (ctl.count g).queried t := by
  unfold Account.poll
  split_ifs <;> simp

@[simp]
theorem Account.after_eligible (ctl : Account) (c : Cycle) :
    (ctl.after g k c).eligible g = ctl.eligible g := by
  unfold Account.after
  rcases ctl.poll_fst_cases (g := g) (c.turn k) with h | h | h <;> rw [h] <;> split <;> rfl

@[simp]
theorem Account.after_interval (ctl : Account) (c : Cycle) :
    (ctl.after g k c).interval = ctl.interval := by
  unfold Account.after
  rcases ctl.poll_fst_cases (g := g) (c.turn k) with h | h | h <;> rw [h] <;> split <;> rfl

/-- Every poll counts for which the account has not been given up. -/
theorem Account.after_pollCount {ctl : Account} (hel : ctl.eligible g = true)
    (hc : ctl.counted g = true) (c : Cycle) :
    (ctl.after g k c).pollCount = if ctl.wedged then ctl.pollCount else ctl.pollCount + 1 := by
  have hcount : (ctl.count g).pollCount = ctl.pollCount + 1 := by simp [Account.count, hc]
  unfold Account.after Account.poll
  rw [if_pos hel]
  by_cases hw : ctl.wedged = true
  · simp only [hw, if_true]
    split <;> rfl
  · simp only [hw, Bool.false_eq_true, if_false]
    split_ifs <;> exact hcount

/-- At its turn an account is given up by a query, or had been before. -/
theorem Account.poll_wedged (t : Turn) (ctl : Account) :
    (ctl.poll g t).1.wedged = true ↔
      ctl.wedged = true ∨ ((ctl.poll g t).2.isSome = true ∧ t.wedges = true) := by
  have hcount : (ctl.count g).wedged = ctl.wedged := rfl
  unfold Account.poll
  by_cases hw : ctl.wedged = true
  · split_ifs <;> simp [hw]
  · split_ifs <;> simp [hw, hcount, Account.queried]

/-- What makes an account one that has been given up: no signal has come, and it was given up
before or in this cycle. -/
theorem Account.after_wedged (ctl : Account) (c : Cycle) :
    (ctl.after g k c).wedged = true ↔ c.awoken = false ∧
      (ctl.wedged = true ∨
        ((ctl.poll g (c.turn k)).2.isSome = true ∧ (c.turn k).wedges = true)) := by
  rw [← Account.poll_wedged]
  unfold Account.after
  by_cases ha : c.awoken = true
  · simp [ha]
  · simp [ha]

/-- When an account is queried. -/
theorem Account.poll_snd {ctl : Account} (hel : ctl.eligible g = true) (t : Turn) (status : Ps) :
    (ctl.poll g t).2 = some status ↔
      ctl.wedged = false ∧ t.approved = true ∧ ctl.due g = true ∧ t.status = status := by
  unfold Account.poll
  rw [if_pos hel]
  split_ifs <;> simp_all

@[simp]
theorem Account.history_eligible (ctl : Account) (cs : List Cycle) :
    (ctl.history g k cs).eligible g = ctl.eligible g := by
  induction cs generalizing ctl with
  | nil => rfl
  | cons c cs ih => exact (ih (ctl.after g k c)).trans (ctl.after_eligible c)

@[simp]
theorem Account.history_interval (ctl : Account) (cs : List Cycle) :
    (ctl.history g k cs).interval = ctl.interval := by
  induction cs generalizing ctl with
  | nil => rfl
  | cons c cs ih => exact (ih (ctl.after g k c)).trans (ctl.after_interval c)

/-- The number of cycles to whose turn the account came without having been given up. -/
def Account.unwedgedTurns (g : Globals) (k : Nat) : Account → List Cycle → Nat
  | _, [] => 0
  | ctl, c :: cs =>
    (if ctl.wedged then 0 else 1) + Account.unwedgedTurns g k (ctl.after g k c) cs

theorem Account.history_pollCount {ctl : Account} (hel : ctl.eligible g = true)
    (hp : g.pollInterval ≠ 0) (hi : ctl.interval ≠ 0) (cs : List Cycle) :
    (ctl.history g k cs).pollCount = ctl.pollCount + ctl.unwedgedTurns g k cs := by
  induction cs generalizing ctl with
  | nil => rfl
  | cons c cs ih =>
    have hc : ctl.counted g = true := by simp [Account.counted, hp, hi]
    have hel' : (ctl.after g k c).eligible g = true := by rwa [Account.after_eligible]
    have hi' : (ctl.after g k c).interval ≠ 0 := by rwa [Account.after_interval]
    have hrest := ih hel' hi'
    rw [Account.after_pollCount hel hc] at hrest
    rw [Account.unwedgedTurns]
    refine hrest.trans ?_
    split <;> omega

/-- An account has been given up when a query of it did so, or it was so from the start, and no
signal has come since. -/
theorem Account.history_wedged (ctl : Account) (cs : List Cycle) :
    (ctl.history g k cs).wedged = true ↔
      (ctl.wedged = true ∧ ∀ d ∈ cs, d.awoken = false) ∨
      ∃ pre c post, cs = pre ++ c :: post ∧
        ((ctl.history g k pre).poll g (c.turn k)).2.isSome = true ∧
        (c.turn k).wedges = true ∧ ∀ d ∈ c :: post, d.awoken = false := by
  induction cs generalizing ctl with
  | nil => simp [Account.history]
  | cons c cs ih =>
    have hcons : ∀ ds, ctl.history g k (c :: ds) = (ctl.after g k c).history g k ds := fun _ => rfl
    rw [hcons, ih, Account.after_wedged]
    constructor
    · rintro (⟨⟨ha, hgiven | hquery⟩, hquiet⟩ | ⟨pre, d, post, rfl, hquery⟩)
      · exact Or.inl ⟨hgiven, List.forall_mem_cons.mpr ⟨ha, hquiet⟩⟩
      · exact Or.inr ⟨[], c, cs, rfl, hquery.1, hquery.2, List.forall_mem_cons.mpr ⟨ha, hquiet⟩⟩
      · exact Or.inr ⟨c :: pre, d, post, rfl, hquery⟩
    · rintro (⟨hgiven, hquiet⟩ | ⟨pre, d, post, heq, hquery, hwedges, hquiet⟩)
      · rw [List.forall_mem_cons] at hquiet
        exact Or.inl ⟨⟨hquiet.1, Or.inl hgiven⟩, hquiet.2⟩
      · cases pre with
        | nil =>
          -- the first cycle of the run gave the account up
          obtain ⟨rfl, rfl⟩ := List.cons.inj heq
          rw [List.forall_mem_cons] at hquiet
          exact Or.inl ⟨⟨hquiet.1, Or.inr ⟨hquery, hwedges⟩⟩, hquiet.2⟩
        | cons e pre =>
          obtain ⟨rfl, rfl⟩ := List.cons.inj heq
          exact Or.inr ⟨pre, d, post, rfl, hquery, hwedges, hquiet⟩

/-- Daemon mode: an account is queried in the cycles for whose turn it has not been given up since
the last wakeup signal, that the interface approves, and that come up when the interval counts
the cycles for which it had not been given up. -/
theorem queried_iff {s s' : Main} {cs : List Cycle} {ctl : Account} (hp : g.pollInterval ≠ 0)
    (hrun : s.run g cs = (s', none)) (hctl : s.querylist[k]? = some ctl)
    (hel : ctl.eligible g = true) (hw : ctl.wedged = false) (c : Cycle) (status : Ps) :
    ∃ ctl', s'.querylist[k]? = some ctl' ∧
      ((ctl'.poll g (c.turn k)).2 = some status ↔
        (c.turn k).approved = true ∧ (c.turn k).status = status ∧
        (ctl.interval = 0 ∨ (ctl.pollCount + ctl.unwedgedTurns g k cs) % ctl.interval = 0) ∧
        ¬∃ pre d post, cs = pre ++ d :: post ∧
          ((ctl.history g k pre).poll g (d.turn k)).2.isSome = true ∧
          (d.turn k).wedges = true ∧ ∀ e ∈ d :: post, e.awoken = false) := by
  refine ⟨ctl.history g k cs, by rw [run_getElem? hrun, hctl]; rfl, ?_⟩
  have hdue : (ctl.history g k cs).due g = true ↔
      ctl.interval = 0 ∨ (ctl.pollCount + ctl.unwedgedTurns g k cs) % ctl.interval = 0 := by
    by_cases hi : ctl.interval = 0
    · simp [Account.due, Account.counted, hi]
    · rw [← Account.history_pollCount hel hp hi]
      simp [Account.due, Account.counted, hi, hp]
  have hgiven := ctl.history_wedged (g := g) (k := k) cs
  rw [hw] at hgiven
  simp only [Bool.false_eq_true, false_and, false_or] at hgiven
  rw [Account.poll_snd (by rwa [Account.history_eligible]), hdue, ← hgiven, Bool.not_eq_true]
  tauto

/-- Settings of a daemon that polls what has no `skip`. -/
def sampleGlobals : Globals := ⟨60, true⟩

/-- An account with an interval of two, one that is skipped, and one to be given up. -/
def sampleList : List Account :=
  [⟨true, false, 2, 0, false, 0, 0⟩, ⟨true, true, 0, 0, false, 0, 0⟩,
    ⟨true, false, 0, 0, false, 0, 0⟩]

/-- A cycle in which a query of the account with this number gives it up. -/
def sampleCycle (given : Nat) : Cycle :=
  ⟨fun k => if k = given then ⟨true, .authfail, true⟩ else ⟨true, .success, false⟩, false⟩

/-- After two cycles, of which one has given up the last account and the other came too early for
the first. -/
theorem queried_iff_sample :
    ∃ ctl', ((Main.start sampleList).run sampleGlobals [sampleCycle 2, sampleCycle 9]).1.querylist[0]? =
        some ctl' ∧
      ((ctl'.poll sampleGlobals ((sampleCycle 9).turn 0)).2 = some .success ↔
        ((sampleCycle 9).turn 0).approved = true ∧ ((sampleCycle 9).turn 0).status = .success ∧
        ((⟨true, false, 2, 0, false, 0, 0⟩ : Account).interval = 0 ∨
          ((⟨true, false, 2, 0, false, 0, 0⟩ : Account).pollCount +
            Account.unwedgedTurns sampleGlobals 0 ⟨true, false, 2, 0, false, 0, 0⟩
              [sampleCycle 2, sampleCycle 9]) %
            (⟨true, false, 2, 0, false, 0, 0⟩ : Account).interval = 0) ∧
        ¬∃ pre d post, [sampleCycle 2, sampleCycle 9] = pre ++ d :: post ∧
          ((Account.history sampleGlobals 0 ⟨true, false, 2, 0, false, 0, 0⟩ pre).poll sampleGlobals
            (d.turn 0)).2.isSome = true ∧
          (d.turn 0).wedges = true ∧ ∀ e ∈ d :: post, e.awoken = false) :=
  queried_iff (by decide) (Prod.ext rfl (by decide)) rfl (by decide) rfl (sampleCycle 9) .success

/-! ## The exit status -/

/-- The statuses of the hosts that a pass queries, in order. -/
def statuses (g : Globals) : List Account → (Nat → Turn) → List Ps
  | [], _ => []
  | ctl :: rest, turn =>
    (ctl.poll g (turn 0)).2.toList ++ statuses g rest fun k => turn (k + 1)

theorem Tally.note_eq (tally : Tally) (status : Option Ps) :
    tally.note status = ⟨status.toList.getLast?.getD tally.querystatus,
      tally.successes + status.toList.count .success⟩ := by
  cases status with
  | none => rfl
  | some status =>
    by_cases h : status = .success
    · subst h
      rfl
    · simp [Tally.note, h]

theorem pollList_tally (l : List Account) (turn : Nat → Turn) (tally : Tally) :
    (pollList g l turn tally).2 = ⟨(statuses g l turn).getLast?.getD tally.querystatus,
      tally.successes + (statuses g l turn).count .success⟩ := by
  induction l generalizing turn tally with
  | nil => rfl
  | cons ctl rest ih =>
    rw [pollList, ih, Tally.note_eq, statuses, List.count_append, List.getLast?_append,
      Nat.add_assoc]
    cases (statuses g rest fun k => turn (k + 1)).getLast? <;> rfl

/-- A query in one of the cycles has given the account up, and no signal has ended a pause since.
(The pause after the last of the cycles is still to come.) -/
def Account.GivenUp (g : Globals) (k : Nat) (ctl : Account) (cs : List Cycle) : Prop :=
  ∃ pre d post, cs = pre ++ d :: post ∧
    ((ctl.history g k pre).poll g (d.turn k)).2.isSome = true ∧ (d.turn k).wedges = true ∧
    ∀ e ∈ (d :: post).dropLast, e.awoken = false

/-- Every account that is polled has been given up so. -/
def AllGivenUp (g : Globals) (l : List Account) (cs : List Cycle) : Prop :=
  ∀ (k : Nat) (ctl : Account), l[k]? = some ctl → ctl.eligible g = true → ctl.GivenUp g k cs

/-- What the loop looks at when a cycle is over and its pause has not begun. -/
theorem Account.givenUp_concat {ctl : Account} (hw : ctl.wedged = false) (cs : List Cycle)
    (c : Cycle) :
    ((ctl.history g k cs).poll g (c.turn k)).1.wedged = true ↔ ctl.GivenUp g k (cs ++ [c]) := by
  rw [Account.poll_wedged, Account.history_wedged, hw]
  simp only [Bool.false_eq_true, false_and, false_or]
  constructor
  · rintro (⟨pre, d, post, rfl, hquery, hwedges, hquiet⟩ | ⟨hquery, hwedges⟩)
    · refine ⟨pre, d, post ++ [c], by simp, hquery, hwedges, ?_⟩
      rwa [← List.cons_append, List.dropLast_concat]
    · exact ⟨cs, c, [], rfl, hquery, hwedges, by simp⟩
  · rintro ⟨pre, d, post, heq, hquery, hwedges, hquiet⟩
    rcases List.eq_nil_or_concat post with rfl | ⟨init, e, rfl⟩
    · -- the last cycle did it
      obtain ⟨rfl, hlast⟩ := List.append_inj' heq rfl
      obtain ⟨rfl, -⟩ := List.cons.inj hlast
      exact Or.inr ⟨hquery, hwedges⟩
    · rw [List.concat_eq_append, ← List.cons_append, ← List.append_assoc] at heq
      obtain ⟨rfl, -⟩ := List.append_inj' heq rfl
      rw [List.concat_eq_append, ← List.cons_append, List.dropLast_concat] at hquiet
      exact Or.inl ⟨pre, d, init, rfl, hquery, hwedges, hquiet⟩

/-- The run goes on where it has come to. -/
theorem run_concat (s : Main) (cs : List Cycle) (c : Cycle) :
    s.run g (cs ++ [c]) =
      if (s.run g cs).2.isSome = true then s.run g cs else (s.run g cs).1.cycle g c := by
  induction cs generalizing s with
  | nil =>
    show (if (s.cycle g c).2.isSome = true then s.cycle g c else ((s.cycle g c).1, none)) = _
    cases h : (s.cycle g c).2 with
    | none =>
      simp only [Option.isSome_none, Bool.false_eq_true, if_false, Main.run]
      rw [← h]
    | some status => simp [Main.run]
  | cons d cs ih =>
    rw [List.cons_append, Main.run, Main.run, ih]
    by_cases hend : (s.cycle g d).2.isSome = true
    · simp [hend]
    · simp [hend]

/-- A cycle of a daemon ends it when all that it polls have been given up. -/
theorem cycle_daemon (hp : g.pollInterval ≠ 0) (s : Main) (c : Cycle) :
    (s.cycle g c).2 = if ∀ ctl ∈ (pollList g s.querylist c.turn s.tally).1,
      ctl.eligible g = true → ctl.wedged = true then some .authfail else none := by
  have hall : ((pollList g s.querylist c.turn s.tally).1.all
      fun ctl => !ctl.eligible g || ctl.wedged) = true ↔
      ∀ ctl ∈ (pollList g s.querylist c.turn s.tally).1,
        ctl.eligible g = true → ctl.wedged = true := by
    rw [List.all_eq_true]
    refine forall₂_congr fun ctl _ => ?_
    cases ctl.eligible g <;> simp
  unfold Main.cycle
  simp only [if_neg hp, hall]
  split
  · rfl
  · split <;> rfl

/-- A polled account is one that was. -/
theorem Account.poll_eligible (t : Turn) (ctl : Account) :
    (ctl.poll g t).1.eligible g = ctl.eligible g := by
  rcases ctl.poll_fst_cases (g := g) t with h | h | h <;> rw [h] <;> rfl

example : ((Main.start sampleList).run sampleGlobals
    [sampleCycle 2, sampleCycle 9, sampleCycle 0]).2 = some .authfail := by decide

end

end Fetchmail.PollLoop
