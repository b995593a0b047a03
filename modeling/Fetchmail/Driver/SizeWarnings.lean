import Mathlib.Data.List.Nodup
import Mathlib.Tactic.Common

/-!
# Warnings about Oversized Messages

`mark_oversized`, `clean_skipped_list` and `send_size_warnings` of `driver.c`. The list
`skipped` of an account has one entry for each size of oversized messages; it survives from
poll to poll, with the number of messages that were marked since the last warning mail and
the number of warning mails since the size was last in one.

A warning is meant to be repeated when the warning interval has elapsed. But the entries
only age when a mail is sent, and new entries start at the age of the oldest; once a mail
has been sent, the sizes in it silence all others and never come of age again. The recurrence
is as configured only where every poll may warn, or where the list is empty before each
poll that finds something.
-/

namespace Fetchmail.Driver

/-! ## The list -/

/-- A member of `skipped`. The code keeps the size as decimal text. -/
structure Skipped where
  /-- `id` -/
  size : Int
  /-- `val.status.num`, the `warning_poll_count` -/
  num : Int
  /-- `val.status.mark`, the number of messages of this size, a signed byte -/
  mark : Int
  deriving DecidableEq, Repr

/-- One message more, in a signed byte. -/
def Skipped.count (e : Skipped) : Skipped := { e with mark := (e.mark + 1).bmod 256 }

/-- Count the first entry of a size; `none` when there is no such entry. -/
def countFirst (size : Int) : List Skipped → Option (List Skipped)
  | [] => none
  | e :: es => if e.size = size then some (e.count :: es) else (countFirst size es).map (e :: ·)

/-- `mark_oversized` -/
def markOversized (skipped : List Skipped) (size : Int) : List Skipped :=
  -- a new entry has the count of the first one, so as to be in the next mail
  let cnt := (skipped.head?.map Skipped.num).getD 0
  (countFirst size skipped).getD (skipped ++ [⟨size, cnt, 1⟩])

/-- `clean_skipped_list` -/
def cleanSkippedList (skipped : List Skipped) : List Skipped :=
  skipped.filter fun e => e.mark ≠ 0

/-! ## The mail -/

/-- What is read of `struct query` and `struct runctl`. -/
structure WarnCtl where
  warnings : Int
  pollInterval : Int
  nodetach : Bool
  deriving Repr

/-- `max_warning_poll_count` -/
def WarnCtl.maxWarningPollCount (c : WarnCtl) : Int :=
  if c.pollInterval = 0 then 0 else c.warnings.tdiv c.pollInterval

/-- An entry that belongs into the mail. -/
def Skipped.due (e : Skipped) : Bool := e.num = 0 && e.mark ≠ 0

/-- What the sending of a mail does to an entry. -/
def Skipped.age (c : WarnCtl) (e : Skipped) : Skipped :=
  { e with mark := 0, num := if c.maxWarningPollCount ≤ e.num + 1 then 0 else e.num + 1 }

/-- `send_size_warnings`: the lines of the mail, if one is sent, each with the number of
messages and their size, and the list after it. -/
def sendSizeWarnings (c : WarnCtl) (mailOpens : Bool) (skipped : List Skipped) :
    Option (List (Int × Int)) × List Skipped :=
  if skipped.any Skipped.due then
    if mailOpens then
      (some ((skipped.filter Skipped.due).map fun e => (e.mark, e.size)),
        skipped.map (Skipped.age c))
    else (none, skipped)
  else (none, skipped)

/-! ## Polls -/

/-- A pass over the mailbox in daemon mode, as far as `skipped` is concerned. -/
inductive Poll where
  /-- there is no message at all -/
  | empty
  /-- the pass breaks off after these sizes have been found -/
  | broken (sizes : List Int)
  /-- the sizes of the oversized messages, and whether `open_warning_by_mail` succeeds -/
  | complete (sizes : List Int) (mailOpens : Bool)

/-- The sizes that a pass finds. -/
def Poll.sizes : Poll → List Int
  | .empty => []
  | .broken sizes => sizes
  | .complete sizes _ => sizes

/-- What `do_session` makes of a pass. -/
def poll (c : WarnCtl) (p : Poll) (skipped : List Skipped) :
    Option (List (Int × Int)) × List Skipped :=
  match p with
  | .empty => (none, skipped)
  | .broken sizes => (none, sizes.foldl markOversized skipped)
  | .complete sizes mailOpens =>
    let skipped := sizes.foldl markOversized skipped
    if skipped ≠ [] ∧ 0 < c.pollInterval ∧ !c.nodetach then
      sendSizeWarnings c mailOpens (cleanSkippedList skipped)
    else (none, skipped)

section

variable (c : WarnCtl) (polls : Nat → Poll)

/-- The list before poll `i`; the daemon starts without one. -/
def skippedBefore : Nat → List Skipped
  | 0 => []
  | i + 1 => (poll c (polls i) (skippedBefore i)).2

/-- The lines of the mail that poll `i` sends. -/
def reportOf (i : Nat) : List (Int × Int) :=
  ((poll c (polls i) (skippedBefore c polls i)).1).getD []

/-- A size is in the mail of poll `i`. -/
def Reported (i : Nat) (size : Int) : Prop := ∃ line ∈ reportOf c polls i, line.2 = size

instance (i : Nat) (size : Int) : Decidable (Reported c polls i size) :=
  inferInstanceAs (Decidable (∃ line ∈ reportOf c polls i, line.2 = size))

/-- After how many polls a warning is due again. -/
def recurrence : Nat := (max 1 c.maxWarningPollCount).toNat

/-- Warnings recur as configured. A size is detected for the first time also where it is
back after a poll that did not find it. -/
structure Recurs : Prop where
  first : ∀ i size, size ∈ (polls i).sizes → (∀ j, j + 1 = i → size ∉ (polls j).sizes) →
    Reported c polls i size
  again : ∀ i size, Reported c polls i size →
    (∀ j ≤ recurrence c, size ∈ (polls (i + j)).sizes) →
      Reported c polls (i + recurrence c) size ∧
        ∀ j, 0 < j → j < recurrence c → ¬ Reported c polls (i + j) size
  count : ∀ i, ∀ line ∈ reportOf c polls i, line.1 = (polls i).sizes.count line.2
  dropped : ∀ i, ∀ e ∈ skippedBefore c polls (i + 1), e.size ∈ (polls i).sizes

/-- A pass does not come to the list: the mailbox is empty, or it breaks off. -/
def Poll.Idle : Poll → Prop
  | .complete _ _ => False
  | _ => True

/-- A pass finds less than 128 messages of a size, and can send the mail that it needs; if it
breaks off, then before it has found anything. -/
def Poll.Regular : Poll → Prop
  | .empty => True
  | .broken sizes => sizes = []
  | .complete sizes mailOpens =>
    (sizes ≠ [] → mailOpens = true) ∧ ∀ size, sizes.count size < 128

/-- The daemon may warn on every poll, or no poll that finds something follows another. -/
structure Regular : Prop where
  daemon : 0 < c.pollInterval ∧ c.nodetach = false
  passes : ∀ i, (polls i).Regular
  /-- where a pass does not come to the list, nothing is left in it -/
  idle : ∀ i, (polls (i + 1)).Idle → (polls i).sizes = []
  spaced : c.maxWarningPollCount ≤ 1 ∨ ∀ i, (polls i).sizes = [] ∨ (polls (i + 1)).sizes = []

end

/-! ## Marking -/

/-- The list while a pass over fresh marks is under way: it has counted the sizes `seen`,
and all its entries are due for the next mail. -/
structure Marked (seen : List Int) (skipped : List Skipped) : Prop where
  nodup : (skipped.map Skipped.size).Nodup
  due : ∀ e ∈ skipped, e.num = 0
  counts : ∀ e ∈ skipped, e.mark = seen.count e.size
  listed : ∀ size ∈ seen, size ∈ skipped.map Skipped.size

theorem countFirst_eq_none {size : Int} {skipped : List Skipped} :
    countFirst size skipped = none ↔ size ∉ skipped.map Skipped.size := by
  induction skipped with
  | nil => simp [countFirst]
  | cons e es ih =>
    by_cases h : e.size = size
    · simp [countFirst, h]
    · simp [countFirst, h, ih, Ne.symm h]

/-- Where the entries have different sizes, the one of the given size is counted. -/
theorem countFirst_eq_some {size : Int} {skipped marked : List Skipped}
    (hnodup : (skipped.map Skipped.size).Nodup) (h : countFirst size skipped = some marked) :
    marked = skipped.map fun e => if e.size = size then e.count else e := by
  induction skipped generalizing marked with
  | nil => simp [countFirst] at h
  | cons e es ih =>
    rw [List.map_cons, List.nodup_cons] at hnodup
    simp only [countFirst] at h
    split at h
    · next heq =>
      cases h
      have hrest : es.map (fun e => if e.size = size then e.count else e) = es := by
        refine (List.map_congr_left fun e' he' => ?_).trans (List.map_id es)
        have hne : e'.size ≠ size := by
          rintro rfl
          exact hnodup.1 (heq ▸ List.mem_map_of_mem he')
        simp [hne]
      simp [heq, hrest]
    · next hne =>
      obtain ⟨marked', hmarked', rfl⟩ := Option.map_eq_some_iff.mp h
      simp [hne, ← ih hnodup.2 hmarked']

/-- Counts below 128 fit into a signed byte. -/
theorem Skipped.mark_count {e : Skipped} {n : Nat} (h : e.mark = n) (hn : n + 1 < 128) :
    e.count.mark = ((n + 1 : Nat) : Int) := by
  have hsmall : (e.mark + 1).bmod 256 = e.mark + 1 := by
    rw [Int.bmod_eq_of_le] <;> omega
  change (e.mark + 1).bmod 256 = _
  rw [hsmall, h]
  omega

/-- **Step.** -/
theorem Marked.markOversized {seen : List Int} {skipped : List Skipped} {size : Int}
    (h : Marked seen skipped) (hcount : (seen ++ [size]).count size < 128) :
    Marked (seen ++ [size]) (markOversized skipped size) := by
  rw [List.count_append, List.count_singleton_self] at hcount
  unfold Driver.markOversized
  cases hfirst : countFirst size skipped with
  -- a new size: its entry is added, and due when the first entry is
  | none =>
    have hnew := countFirst_eq_none.mp hfirst
    have hunseen : seen.count size = 0 := List.count_eq_zero.mpr fun hmem => hnew (h.listed size hmem)
    have hnum : (skipped.head?.map Skipped.num).getD 0 = 0 := by
      cases skipped with
      | nil => rfl
      | cons e es => exact h.due e List.mem_cons_self
    simp only [Option.getD_none, hnum]
    refine ⟨?_, fun e he => ?_, fun e he => ?_, fun s hs => ?_⟩
    · rw [List.map_append, List.nodup_append]
      refine ⟨h.nodup, by simp, fun a ha b hb => ?_⟩
      rintro rfl
      obtain rfl : a = size := by simpa using hb
      exact hnew ha
    · rcases List.mem_append.mp he with he | he
      · exact h.due e he
      · obtain rfl := List.mem_singleton.mp he
        rfl
    · rcases List.mem_append.mp he with hold | hadded
      · have hmem : e.size ∈ skipped.map Skipped.size := List.mem_map_of_mem hold
        have hne : size ≠ e.size := fun heq => hnew (heq ▸ hmem)
        rw [h.counts e hold, List.count_append, List.count_singleton]
        simp [hne]
      · obtain rfl := List.mem_singleton.mp hadded
        simp [List.count_append, hunseen]
    · rcases List.mem_append.mp hs with hs | hs
      · simp only [List.map_append, List.mem_append]
        exact .inl (h.listed s hs)
      · simp_all
  -- a size that is listed: its entry counts one more
  | some marked =>
    have hmarked := countFirst_eq_some h.nodup hfirst
    -- the sizes stay, so nothing is listed twice
    have hsizes : marked.map Skipped.size = skipped.map Skipped.size := by
      rw [hmarked, List.map_map]
      refine List.map_congr_left fun e _ => ?_
      by_cases hsize : e.size = size <;> simp [hsize, Skipped.count]
    simp only [Option.getD_some]
    refine ⟨hsizes ▸ h.nodup, fun e he => ?_, fun e he => ?_, fun s hs => ?_⟩
    · rw [hmarked] at he
      obtain ⟨e', he', rfl⟩ := List.mem_map.mp he
      have hdue := h.due e' he'
      by_cases hsize : e'.size = size <;> simp [hsize, Skipped.count, hdue]
    · rw [hmarked] at he
      obtain ⟨e', he', rfl⟩ := List.mem_map.mp he
      by_cases hsize : e'.size = size
      · have hold := h.counts e' he'
        rw [hsize] at hold
        -- no overflow, as the count fits into the byte
        have hnew := Skipped.mark_count hold hcount
        simp only [hsize, if_true, List.count_append]
        rw [hnew]
        simp [Skipped.count, hsize]
      · simp [hsize, h.counts e' he', List.count_append, Ne.symm hsize]
    · rw [hsizes]
      rcases List.mem_append.mp hs with hs | hs
      · exact h.listed s hs
      · obtain rfl := List.mem_singleton.mp hs
        by_contra hnot
        rw [countFirst_eq_none.mpr hnot] at hfirst
        cases hfirst

/-- **Run.** A pass counts what it finds. -/
theorem Marked.foldl {seen sizes : List Int} {skipped : List Skipped} (h : Marked seen skipped)
    (hcount : ∀ size, (seen ++ sizes).count size < 128) :
    Marked (seen ++ sizes) (sizes.foldl Driver.markOversized skipped) := by
  induction sizes generalizing seen skipped with
  | nil => simpa using h
  | cons size sizes ih =>
    have hcat : seen ++ size :: sizes = (seen ++ [size]) ++ sizes := by simp
    rw [List.foldl_cons, hcat]
    rw [hcat] at hcount
    refine ih (h.markOversized ?_) hcount
    have := hcount size
    rw [List.count_append] at this
    omega

/-! ## Polls that warn in time -/

/-- The list between two polls, the last of which found `sizes`. -/
structure Rested (c : WarnCtl) (sizes : List Int) (skipped : List Skipped) : Prop where
  nodup : (skipped.map Skipped.size).Nodup
  unmarked : ∀ e ∈ skipped, e.mark = 0
  young : c.maxWarningPollCount ≤ 1 → ∀ e ∈ skipped, e.num = 0
  found : ∀ e ∈ skipped, e.size ∈ sizes

theorem rested_nil (c : WarnCtl) (sizes : List Int) : Rested c sizes [] := by
  constructor <;> simp

/-- The mail reports what the poll has found, and nothing else. -/
structure Reports (sizes : List Int) (report : Option (List (Int × Int))) : Prop where
  found : ∀ size, (∃ line ∈ report.getD [], line.2 = size) ↔ size ∈ sizes
  counts : ∀ line ∈ report.getD [], line.1 = sizes.count line.2

/-- Nothing found: what was reported before is forgotten. -/
theorem Rested.poll_nothing {c : WarnCtl} {sizes : List Int} {skipped : List Skipped}
    (h : Rested c sizes skipped) (hdaemon : 0 < c.pollInterval ∧ c.nodetach = false)
    (mailOpens : Bool) : poll c (.complete [] mailOpens) skipped = (none, []) := by
  have hclean : cleanSkippedList skipped = [] := by
    refine List.filter_eq_nil_iff.mpr fun e he => ?_
    simp [h.unmarked e he]
  by_cases hnil : skipped = []
  · simp [poll, hnil]
  · simp [poll, hnil, hdaemon, hclean, sendSizeWarnings]

/-- The entries of sizes that were found, once the list is cleaned. -/
theorem Marked.mem_clean {sizes : List Int} {skipped : List Skipped} (h : Marked sizes skipped)
    {e : Skipped} : e ∈ cleanSkippedList skipped ↔ e ∈ skipped ∧ e.size ∈ sizes := by
  rw [cleanSkippedList, List.mem_filter]
  refine and_congr_right fun he => ?_
  rw [decide_eq_true_eq, h.counts e he, ← List.count_pos_iff]
  omega

/-- All of them are due. -/
theorem Marked.due_clean {sizes : List Int} {skipped : List Skipped} (h : Marked sizes skipped) :
    ∀ e ∈ cleanSkippedList skipped, e.due = true := by
  intro e he
  have hmark : e.mark ≠ 0 := by simpa using (List.mem_filter.mp he).2
  simp [Skipped.due, h.due e (h.mem_clean.mp he).1, hmark]

/-- Something found: it is reported, and all entries start anew. -/
theorem Rested.poll_something {c : WarnCtl} {old sizes : List Int} {skipped : List Skipped}
    (h : Rested c old skipped) (hdaemon : 0 < c.pollInterval ∧ c.nodetach = false)
    (hdue : ∀ e ∈ skipped, e.num = 0) (hne : sizes ≠ []) (hcount : ∀ size, sizes.count size < 128) :
    Reports sizes (poll c (.complete sizes true) skipped).1 ∧
      Rested c sizes (poll c (.complete sizes true) skipped).2 := by
  -- at the beginning of the poll nothing has been seen
  have hstart : Marked [] skipped := ⟨h.nodup, hdue, by simpa using h.unmarked, by simp⟩
  have hmarked : Marked sizes (sizes.foldl markOversized skipped) := by
    simpa using hstart.foldl (by simpa using hcount)
  have hlisted : ∀ size ∈ sizes, ∃ e ∈ cleanSkippedList (sizes.foldl markOversized skipped),
      e.size = size := by
    intro size hsize
    obtain ⟨e, he, rfl⟩ := List.mem_map.mp (hmarked.listed size hsize)
    exact ⟨e, hmarked.mem_clean.mpr ⟨he, hsize⟩, rfl⟩
  obtain ⟨size, hsize⟩ := List.exists_mem_of_ne_nil sizes hne
  obtain ⟨e, he, -⟩ := hlisted size hsize
  have hany : (cleanSkippedList (sizes.foldl markOversized skipped)).any Skipped.due = true :=
    List.any_eq_true.mpr ⟨e, he, hmarked.due_clean e he⟩
  have hmem := (hmarked.mem_clean.mp he).1
  have hsome : sizes.foldl markOversized skipped ≠ [] := List.ne_nil_of_mem hmem
  -- all entries are due, so all are reported
  have hfilter : (cleanSkippedList (sizes.foldl markOversized skipped)).filter Skipped.due =
      cleanSkippedList (sizes.foldl markOversized skipped) :=
    List.filter_eq_self.mpr hmarked.due_clean
  have hpoll : poll c (.complete sizes true) skipped =
      (some ((cleanSkippedList (sizes.foldl markOversized skipped)).map fun e => (e.mark, e.size)),
        (cleanSkippedList (sizes.foldl markOversized skipped)).map (Skipped.age c)) := by
    simp only [poll, hdaemon, sendSizeWarnings, hany, hfilter]
    simpa using hsome
  rw [hpoll]
  refine ⟨⟨fun size => ?_, fun line hline => ?_⟩, ?_, fun e he => ?_, fun hmax e he => ?_,
    fun e he => ?_⟩
  · simp only [Option.getD_some, List.mem_map, exists_exists_and_eq_and]
    constructor
    · rintro ⟨e, he, rfl⟩
      exact (hmarked.mem_clean.mp he).2
    · intro hsize
      exact hlisted size hsize
  · obtain ⟨e, he, rfl⟩ := List.mem_map.mp hline
    exact hmarked.counts e (hmarked.mem_clean.mp he).1
  · have hsizes : ∀ es : List Skipped,
        (es.map (Skipped.age c)).map Skipped.size = es.map Skipped.size := fun es => by
      rw [List.map_map]
      rfl
    rw [hsizes]
    exact List.Nodup.sublist (List.Sublist.map _ List.filter_sublist) hmarked.nodup
  · obtain ⟨e', -, rfl⟩ := List.mem_map.mp he
    rfl
  · obtain ⟨e', he', rfl⟩ := List.mem_map.mp he
    simp [Skipped.age, hmarked.due e' (hmarked.mem_clean.mp he').1, hmax]
  · obtain ⟨e', he', rfl⟩ := List.mem_map.mp he
    exact (hmarked.mem_clean.mp he').2

theorem reports_nil : Reports [] none := by
  constructor <;> simp

/-- Nothing is left of a pass that found nothing. -/
theorem Rested.eq_nil {c : WarnCtl} {skipped : List Skipped} (h : Rested c [] skipped) :
    skipped = [] :=
  List.eq_nil_iff_forall_not_mem.mpr fun e he => List.not_mem_nil (h.found e he)

/-- **Step.** A regular poll over entries that are all due, or that finds nothing. -/
theorem Rested.poll {c : WarnCtl} {old : List Int} {skipped : List Skipped} {p : Poll}
    (h : Rested c old skipped) (hdaemon : 0 < c.pollInterval ∧ c.nodetach = false)
    (hp : p.Regular) (hidle : p.Idle → skipped = [])
    (hdue : p.sizes = [] ∨ ∀ e ∈ skipped, e.num = 0) :
    Reports p.sizes (Driver.poll c p skipped).1 ∧ Rested c p.sizes (Driver.poll c p skipped).2 := by
  cases p with
  | empty =>
    obtain rfl := hidle trivial
    exact ⟨reports_nil, rested_nil c _⟩
  | broken sizes =>
    obtain rfl := hidle trivial
    obtain rfl : sizes = [] := hp
    exact ⟨reports_nil, rested_nil c _⟩
  | complete sizes mailOpens =>
    obtain ⟨hopens, hcount⟩ := hp
    by_cases hnil : sizes = []
    · subst hnil
      rw [h.poll_nothing hdaemon mailOpens]
      exact ⟨⟨by simp [Poll.sizes], by simp⟩, rested_nil c _⟩
    · rw [hopens hnil]
      exact h.poll_something hdaemon (hdue.resolve_left hnil) hnil hcount

/-- **Run.** -/
theorem Regular.rested {c : WarnCtl} {polls : Nat → Poll} (h : Regular c polls) (i : Nat) :
    Reports (polls i).sizes (poll c (polls i) (skippedBefore c polls i)).1 ∧
      Rested c (polls i).sizes (skippedBefore c polls (i + 1)) := by
  induction i with
  | zero => exact (rested_nil c []).poll h.daemon (h.passes 0) (fun _ => rfl) (.inr (by simp))
  | succ i ih =>
    -- the list is empty after a poll that found nothing
    have hempty : (polls i).sizes = [] → skippedBefore c polls (i + 1) = [] := fun hnil =>
      (hnil ▸ ih.2).eq_nil
    refine ih.2.poll h.daemon (h.passes (i + 1)) (fun hidle => hempty (h.idle i hidle)) ?_
    rcases h.spaced with hmax | hspaced
    · exact .inr (ih.2.young hmax)
    · rcases hspaced i with hnil | hnil
      · right
        rw [hempty hnil]
        exact fun e he => absurd he List.not_mem_nil
      · exact .inl hnil

/-- In a run of regular polls that may all warn, or that have a poll without oversized
messages between any two with some, warnings recur as configured. -/
theorem warnings_recur (c : WarnCtl) (polls : Nat → Poll) (h : Regular c polls) :
    Recurs c polls := by
  have hreported : ∀ i size, Reported c polls i size ↔ size ∈ (polls i).sizes :=
    fun i size => (h.rested i).1.found size
  refine ⟨fun i size hsize _ => (hreported i size).mpr hsize, fun i size hsize hstays => ?_,
    fun i => (h.rested i).1.counts, fun i => (h.rested i).2.found⟩
  have hpos : 1 ≤ recurrence c := by
    unfold recurrence
    omega
  rcases h.spaced with hmax | hspaced
  · have hone : recurrence c = 1 := by
      unfold recurrence
      omega
    rw [hone] at hstays ⊢
    exact ⟨(hreported _ _).mpr (hstays 1 (Nat.le_refl 1)), fun j hj hlt => by omega⟩
  · -- the size cannot stay
    have hnow := (hreported i size).mp hsize
    have hnext := hstays 1 hpos
    rcases hspaced i with hnil | hnil
    · simp [hnil] at hnow
    · simp [hnil] at hnext

/-- A message of 5000 octets that is there at every poll. -/
def oneOversized (_ : Nat) : Poll := .complete [5000] true

/-- It is to be warned about at every other poll. -/
def everyOther : WarnCtl := ⟨600, 300, false⟩

theorem oneOversized_starves : ¬ Recurs everyOther oneOversized := by
  intro h
  have hfirst : Reported everyOther oneOversized 0 5000 := by decide
  have hagain := (h.again 0 5000 hfirst fun _ _ => by simp [oneOversized, Poll.sizes]).1
  exact absurd hagain (by decide)

/-- At every poll. -/
def everyPoll : WarnCtl := ⟨300, 300, false⟩

/-- A mailbox that is empty at first, and then has three oversized messages of two sizes at every
other poll, and one more size in between. -/
def changingSizes (i : Nat) : Poll :=
  if i = 0 then .empty
  else if i % 2 = 1 then .complete [5000, 700, 5000] true
  else .complete [5000, 900] true

theorem warnings_recur_everyPoll : Recurs everyPoll changingSizes := by
  have hcount : ∀ (size : Int) (sizes : List Int), sizes.length ≤ 3 → sizes.count size < 128 := by
    intro size sizes hlength
    have hle := @List.count_le_length _ _ size sizes
    omega
  refine warnings_recur everyPoll changingSizes ⟨by decide, fun i => ?_, fun i hidle => ?_, .inl (by decide)⟩
  · unfold changingSizes
    split
    · trivial
    · split
      · exact ⟨fun _ => rfl, fun size => hcount size _ (by decide)⟩
      · exact ⟨fun _ => rfl, fun size => hcount size _ (by decide)⟩
  -- only the first pass finds the mailbox empty
  · unfold changingSizes at hidle
    rw [if_neg (Nat.succ_ne_zero i)] at hidle
    split at hidle <;> exact hidle.elim

end Fetchmail.Driver
