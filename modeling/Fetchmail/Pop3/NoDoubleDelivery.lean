import Fetchmail.Pop3.Polls

/-!
# No Double Delivery

The invariant of `Polls` holds in all runs, so a message that was marked or deleted once is an
old one for good, and a list that is complete shows all others as new.
-/

namespace Fetchmail.Pop3

open Fetchmail.Lib Fetchmail.Transact Fetchmail.Uid

variable {box performed used : List Bytes} {s : Statics} {listing : List (Nat × Bytes)}

/-! ## The end of a poll -/

/-- What is left between polls. -/
structure AtEase (box performed used : List Bytes) (db : Db) : Prop where
  old : ∀ id ∈ box, db.Old id ↔ id ∈ performed
  used : ∀ id, db.Old id → id ∈ used
  rest : db.AtRest

theorem Tied.atEase {db : Db} (h : Tied box performed used db) (hrest : Resets db) :
    AtEase box performed used db.resetUidDbNums where
  old := fun id hid => by simpa only [Db.Old, Db.markOf_resetUidDbNums] using h.old id hid
  used := fun id hid => h.used id (by simpa only [Db.Old, Db.markOf_resetUidDbNums] using hid)
  rest := hrest

/-- The new database takes the place of the old one. -/
theorem Copied.atEase {db : Db} (h : Copied box performed listing db)
    (hperm : listing.Perm (listingOf box)) (hids : ∀ id ∈ box, id ≠ [])
    (hused : ∀ id ∈ box, id ∈ used) (hrest : Resets db) :
    AtEase box performed used db.resetUidDbNums := by
  -- the record of a UID is that of its line in the list
  have hline : ∀ id p, db.findUidById id = some p → id ∈ box ∧ ∃ n, listing[p]? = some (n, id) := by
    intro id p hp
    obtain ⟨r, hr, rfl⟩ := Db.findUidById_spec hp
    have hget := congrArg (fun l => l[p]?) h.ids
    simp only [List.getElem?_map, hr, Option.map_some] at hget
    obtain ⟨⟨n, id⟩, hp', heq⟩ := Option.map_eq_some_iff.mp hget.symm
    have hid : id = r.id := heq
    subst hid
    have hmem := mem_listingOf.mp (hperm.mem_iff.mp (List.mem_of_getElem? hp'))
    exact ⟨hmem.2.2 ▸ uidAt_mem hmem.1 hmem.2.1, n, hp'⟩
  have hfound : ∀ id ∈ box, ∃ p, db.findUidById id = some p := by
    intro id hid
    cases hfind : db.findUidById id with
    | some p => exact ⟨p, rfl⟩
    | none =>
      have hno := (Db.findUidById_eq_none (hids id hid)).mp hfind
      have hmem : id ∈ listing.map Prod.snd := by
        rw [(hperm.map Prod.snd).mem_iff, map_snd_listingOf]
        exact hid
      rw [← h.ids] at hmem
      obtain ⟨r, hr, heq⟩ := List.mem_map.mp hmem
      exact absurd heq (hno r hr)
  refine ⟨fun id hid => ?_, fun id hid => ?_, hrest⟩
  · obtain ⟨p, hp⟩ := hfound id hid
    obtain ⟨-, n, hn⟩ := hline id p hp
    simp only [Db.Old, Db.markOf_resetUidDbNums]
    exact (Db.old_of_find hp).trans (h.status p n id hn)
  · simp only [Db.Old, Db.markOf_resetUidDbNums] at hid
    obtain ⟨m, hm, -⟩ := hid
    obtain ⟨p, hp, -⟩ := Option.map_eq_some_iff.mp hm
    exact hused id (hline id p hp).1

/-- A fast poll ends. -/
theorem FastInv.endPoll {asked : Option Nat} (h : FastInv box performed used asked s)
    (success : Bool) : AtEase box performed used (s.endPoll success).oldsaved := by
  have hnone : s.newsaved.uidDbNRecords = 0 := by simp [Db.uidDbNRecords, h.newRecords]
  have hsame : (s.endPoll success).oldsaved = s.oldsaved.resetUidDbNums := by
    cases success <;>
      simp [Statics.endPoll, Statics.uidSwapLists, Statics.uidDiscardNewList, Statics.uidResetNum,
        hnone]
  rw [hsame]
  exact h.tied.atEase h.numbered.atRest_resetUidDbNums

/-- A poll that has read the list ends. -/
theorem FullInv.endPoll (h : FullInv box performed used listing s) (hids : ∀ id ∈ box, id ≠ [])
    (hused : ∀ id ∈ box, id ∈ used) (success : Bool) :
    AtEase box performed used (s.endPoll success).oldsaved := by
  have hold : AtEase box performed used s.oldsaved.resetUidDbNums := h.tied.atEase h.oldResets
  cases success with
  | false =>
    have hsame : (s.endPoll false).oldsaved = s.oldsaved.resetUidDbNums := by
      simp only [Statics.endPoll, Statics.uidDiscardNewList, Statics.uidResetNum, Bool.false_eq_true,
        if_false]
      split <;> rfl
    rw [hsame]
    exact hold
  | true =>
    -- without a new list the old one stays, with its marks
    by_cases hnew : s.newsaved.uidDbNRecords = 0
    · have hsame : (s.endPoll true).oldsaved = s.oldsaved.resetUidDbNums := by
        simp [Statics.endPoll, Statics.uidSwapLists, Statics.uidResetNum, hnew]
      rw [hsame]
      exact hold
    · have hsame : (s.endPoll true).oldsaved = s.newsaved.resetUidDbNums := by
        simp [Statics.endPoll, Statics.uidSwapLists, Statics.uidResetNum, hnew]
      rw [hsame]
      exact h.copied.atEase h.perm hids hused h.newResets

/-! ## All runs -/

variable {ω : Type} {w w' : World}

/-- The invariant, from what is particular to the phase. -/
theorem Inv.of_poll {poll : Poll} (hnodup : w.box.Nodup) (hids : ∀ id ∈ w.box, id ≠ [])
    (hbox : ∀ id ∈ w.box, id ∈ w.used) (hperf : ∀ id ∈ w.performed, id ∈ w.used)
    (hpoll : w.poll = some poll) (hasked : ∀ n, poll.asked = some n → 1 ≤ n ∧ n ≤ w.box.length)
    (hfast : poll.fast = true →
      FastInv w.box w.performed w.used poll.asked w.statics ∧ poll.flush = false)
    (hfull : poll.fast = false → ∃ listing, FullInv w.box w.performed w.used listing w.statics) :
    Inv w where
  nodup := hnodup
  ids := hids
  boxUsed := hbox
  performedUsed := hperf
  asked := fun p hp => by rw [hpoll] at hp; cases hp; exact hasked
  between := fun hnone => by rw [hpoll] at hnone; cases hnone
  fast := fun p hp => by rw [hpoll] at hp; cases hp; exact hfast
  full := fun p hp => by rw [hpoll] at hp; cases hp; exact hfull

/-- Marking and deleting a message, one case for each mode. -/
theorem Inv.perform (h : Inv w) {poll : Poll} {n : Nat} (hpoll : w.poll = some poll)
    (hasked : poll.asked = some n) {s : Statics}
    (hs : s = w.statics.markUidSeen n ∨ s = (w.statics.markUidSeen n).markDeleted n) :
    Inv { w with statics := s, performed := uidAt w.box n :: w.performed } := by
  obtain ⟨hn, hn'⟩ := h.asked poll hpoll n hasked
  have hused : uidAt w.box n ∈ w.used := h.boxUsed _ (uidAt_mem hn hn')
  refine Inv.of_poll h.nodup h.ids h.boxUsed ?_ hpoll (h.asked poll hpoll) (fun hfast => ?_)
    fun hfull => ?_
  · intro id hid
    rcases List.mem_cons.mp hid with rfl | hid
    · exact hused
    · exact h.performedUsed id hid
  -- the binary search: the message is marked in the old database
  · obtain ⟨hinv, hflush⟩ := h.fast poll hpoll hfast
    have hseen := hinv.markUidSeen hn hn' hasked hused
    refine ⟨?_, hflush⟩
    rcases hs with rfl | rfl
    · exact hseen
    · exact hseen.markDeleted hn hn' hused
  -- the list: it is marked in both
  · obtain ⟨listing, hinv⟩ := h.full poll hpoll hfull
    have hseen := hinv.markUidSeen h.nodup hn hn' hused
    refine ⟨listing, ?_⟩
    rcases hs with rfl | rfl
    · exact hseen
    · exact hseen.markDeleted h.nodup hn hn'

/-- The mailbox changes between polls. -/
theorem Inv.change (h : Inv w) {box fresh : List Bytes} (hpoll : w.poll = none)
    (hsub : box.Sublist w.box) (hnodup : fresh.Nodup)
    (hfresh : ∀ id ∈ fresh, id ≠ [] ∧ id ∉ w.used) :
    Inv { w with box := box ++ fresh, used := fresh ++ w.used } := by
  obtain ⟨hold, hused, hrest⟩ := h.between hpoll
  have hsub' : ∀ id ∈ box, id ∈ w.box := fun id hid => hsub.subset hid
  have hcases : ∀ id ∈ box ++ fresh, id ∈ w.box ∨ id ∈ fresh :=
    fun id hid => (List.mem_append.mp hid).imp_left (hsub' id)
  refine ⟨?_, fun id hid => ?_, fun id hid => ?_, fun id hid => ?_, fun p hp => ?_,
    fun _ => ⟨fun id hid => ?_, fun id hid => ?_, hrest⟩, fun p hp => ?_, fun p hp => ?_⟩
  · refine List.nodup_append.mpr ⟨hsub.nodup h.nodup, hnodup, fun a ha b hb hab => ?_⟩
    exact (hfresh b hb).2 (hab ▸ h.boxUsed a (hsub' a ha))
  · exact (hcases id hid).elim (h.ids id) fun hid => (hfresh id hid).1
  · exact (hcases id hid).elim (fun hid => List.mem_append_right _ (h.boxUsed id hid))
      fun hid => List.mem_append_left _ hid
  · exact List.mem_append_right _ (h.performedUsed id hid)
  · exact absurd (hpoll.symm.trans hp) (by simp)
  -- a new UID was never used, so it is neither old nor dealt with
  · rcases hcases id hid with hid | hid
    · exact hold id hid
    · have hno := (hfresh id hid).2
      exact iff_of_false (fun h => hno (hused id h)) fun hp => hno (h.performedUsed id hp)
  · exact List.mem_append_right _ (hused id hid)
  · exact absurd (hpoll.symm.trans hp) (by simp)
  · exact absurd (hpoll.symm.trans hp) (by simp)

/-- A poll begins. -/
theorem Inv.start (h : Inv w) {ctl : Ctl} {d : Dialogue Statics ω Command} {r : Range}
    (hpoll : w.poll = none) (hfetchall : ctl.fetchall = false) (hbegins : Begins ctl d w.box)
    (hd : d.statics = { w.statics with dofastuidl := false })
    (hval : ((pop3Getrange ctl : Session ω Range).exec d).val = .ok r) (hr : r.err = .success) :
    Inv { w with statics := ((pop3Getrange ctl : Session ω Range).exec d).state.statics
                 poll := some ⟨ctl.wantsFast w.box.length, ctl.flush, none⟩ } := by
  obtain ⟨hold, hused, hrest⟩ := h.between hpoll
  have holdsaved : d.statics.oldsaved = w.statics.oldsaved := by rw [hd]
  rw [← holdsaved] at hold hused hrest
  refine Inv.of_poll h.nodup h.ids h.boxUsed h.performedUsed rfl (by simp) (fun hfast => ⟨?_, ?_⟩)
    fun hfull => ?_
  · exact fastInv_start hbegins.counts hbegins.honest hfast h.ids hold hused hrest hval hr
  · have hfast' : ctl.wantsFast w.box.length = true := hfast
    simp only [Ctl.wantsFast, Bool.and_eq_true] at hfast'
    simpa using hfast'.1.1.2
  -- the list is read, unless there is nothing to list
  · by_cases hne : w.box = []
    · have hcounts : Counts ctl d 0 := by simpa [hne] using hbegins.counts
      refine ⟨[], ?_⟩
      simp only [hne]
      exact fullInv_empty hcounts (by rw [hd]) hused hrest
    · obtain ⟨listing, hperm, hlist⟩ := hbegins.list hfull hne
      have huses : ctl.usesUids = true := by simp [Ctl.usesUids, hfetchall]
      exact ⟨listing, fullInv_start hlist hperm hne huses hfull h.ids hold hused hrest⟩

/-- **Step.** One case for each thing that can happen. -/
theorem Inv.step (h : Inv w) (hstep : Step ω w w') : Inv w' := by
  cases hstep with
  | change hpoll hsub hnodup hfresh => exact h.change hpoll hsub hnodup hfresh
  | start hpoll hfetchall hbegins hd hval hr => exact h.start hpoll hfetchall hbegins hd hval hr
  | @isOld poll n d b hpoll hn hn' hd hhonest hval =>
    refine Inv.of_poll h.nodup h.ids h.boxUsed h.performedUsed rfl (fun m hm => ?_) (fun hfast => ?_)
      fun hfull => ?_
    · simp only at hm
      split at hm
      · cases hm
        exact ⟨hn, hn'⟩
      · cases hm
    · obtain ⟨hinv, hflush⟩ := h.fast poll hpoll hfast
      rw [← hd] at hinv
      have hask := hinv.isOld h.ids hhonest hn hn'
      simp only [hval] at hask
      exact ⟨by simpa [hflush] using hask.1, hflush⟩
    · obtain ⟨listing, hinv⟩ := h.full poll hpoll hfull
      rw [← hd] at hinv
      exact ⟨listing, (hinv.isOld hn hn').1⟩
  -- the alarm goes off in the middle of the question
  | @isOldCut poll n d t hpoll hn hn' hd hhonest hval =>
    refine Inv.of_poll h.nodup h.ids h.boxUsed h.performedUsed rfl (by simp) (fun hfast => ?_)
      fun hfull => ?_
    · obtain ⟨hinv, hflush⟩ := h.fast poll hpoll hfast
      rw [← hd] at hinv
      have hask := hinv.isOld h.ids hhonest hn hn'
      simp only [hval] at hask
      exact ⟨hask, hflush⟩
    · obtain ⟨listing, hinv⟩ := h.full poll hpoll hfull
      rw [← hd] at hinv
      exact ⟨listing, (hinv.isOld hn hn').1⟩
  | @markSeen poll n d hpoll hasked hd =>
    refine h.perform hpoll hasked (Or.inl ?_)
    rw [← hd]
    rfl
  | @delete poll n d hpoll hasked hd =>
    refine h.perform hpoll hasked ?_
    rw [← hd]
    exact statics_exec_pop3Delete n d
  | @logout poll d hpoll hd =>
    have hstatics := statics_exec_pop3Logout d
    rw [hd] at hstatics
    refine Inv.of_poll h.nodup h.ids h.boxUsed h.performedUsed hpoll (h.asked poll hpoll)
      (fun hfast => ?_) fun hfull => ?_
    · obtain ⟨hinv, hflush⟩ := h.fast poll hpoll hfast
      rcases hstatics with heq | heq
      · exact ⟨heq ▸ hinv, hflush⟩
      · exact ⟨heq ▸ hinv.expungeUids, hflush⟩
    · obtain ⟨listing, hinv⟩ := h.full poll hpoll hfull
      rcases hstatics with heq | heq
      · exact ⟨listing, heq ▸ hinv⟩
      · exact ⟨listing, heq ▸ hinv.expungeUids⟩
  | @finish poll success hpoll =>
    -- between the polls only the saved UIDs are left, in either mode
    have hease : AtEase w.box w.performed w.used (w.statics.endPoll success).oldsaved := by
      cases hmode : poll.fast with
      | true => exact (h.fast poll hpoll hmode).1.endPoll success
      | false =>
        obtain ⟨listing, hinv⟩ := h.full poll hpoll hmode
        exact hinv.endPoll h.ids h.boxUsed success
    exact ⟨h.nodup, h.ids, h.boxUsed, h.performedUsed, by simp, fun _ => ⟨hease.old, hease.used, hease.rest⟩,
      by simp, by simp⟩

/-- Before the first poll, the old database is what tells which messages were dealt with. -/
structure Initial (w : World) : Prop where
  nodup : w.box.Nodup
  ids : ∀ id ∈ w.box, id ≠ []
  performed : ∀ id, id ∈ w.performed ↔ id ∈ w.box ∧ w.statics.oldsaved.Old id
  used : ∀ id, id ∈ w.box ∨ w.statics.oldsaved.Old id → id ∈ w.used
  rest : w.statics.oldsaved.AtRest
  poll : w.poll = none

theorem Initial.inv (h : Initial w) : Inv w where
  nodup := h.nodup
  ids := h.ids
  boxUsed := fun id hid => h.used id (Or.inl hid)
  performedUsed := fun id hid => h.used id (Or.inl ((h.performed id).mp hid).1)
  asked := fun p hp => by rw [h.poll] at hp; cases hp
  between := fun _ => ⟨fun id hid => by simp [h.performed, hid], fun id hid => h.used id (Or.inr hid),
    h.rest⟩
  fast := fun p hp => by rw [h.poll] at hp; cases hp
  full := fun p hp => by rw [h.poll] at hp; cases hp

/-- **Run.** By induction on the steps. -/
theorem Initial.inv_run (h : Initial w) (hrun : Relation.ReflTransGen (Step ω) w w') : Inv w' := by
  induction hrun with
  | refl => exact h.inv
  | tail _ hstep ih => exact ih.step hstep

/-- **What was dealt with is old for good**, and what was not is new in every poll that reads
the list. -/
theorem no_double_delivery (h : Initial w) (hrun : Relation.ReflTransGen (Step ω) w w')
    {poll : Poll} (hpoll : w'.poll = some poll) {n : Nat} (hn : 1 ≤ n) (hn' : n ≤ w'.box.length)
    {d : Dialogue Statics ω Command} (hd : d.statics = w'.statics)
    (hhonest : Honest False w'.box.length (uidAt w'.box) d) {b : Bool}
    (hb : ((pop3IsOld n).exec d).val = .ok b) :
    (uidAt w'.box n ∈ w'.performed → b = true) ∧
      (poll.fast = false → uidAt w'.box n ∉ w'.performed → b = false) := by
  have hinv := h.inv_run hrun
  cases hmode : poll.fast with
  | true =>
    have hfast := (hinv.fast poll hpoll hmode).1
    rw [← hd] at hfast
    have hask := hfast.isOld hinv.ids hhonest hn hn'
    simp only [hb] at hask
    exact ⟨hask.2, by simp⟩
  | false =>
    obtain ⟨listing, hfull⟩ := hinv.full poll hpoll hmode
    rw [← hd] at hfull
    obtain ⟨-, b', hb', hiff⟩ := hfull.isOld (ω := ω) hn hn'
    rw [hb] at hb'
    cases hb'
    exact ⟨hiff.mpr, fun _ hno => by simpa using mt hiff.mp hno⟩

/-! ## Two polls -/

/-- A new account with two messages. -/
def twoNew : World where
  statics := ⟨Db.initUidDb, Db.initUidDb, 0, false, false, false⟩
  box := [Bytes.lit "a", Bytes.lit "b"]
  performed := []
  used := [Bytes.lit "a", Bytes.lit "b"]
  poll := none

/-- A poll is begun with the list. -/
def World.opened (w : World) : World :=
  { w with
    statics := ((pop3Getrange slowCtl).exec
      (mailServer { w.statics with dofastuidl := false } w.box)).state.statics
    poll := some ⟨slowCtl.wantsFast w.box.length, slowCtl.flush, none⟩ }

/-- Message `n` is asked for. -/
def World.asking (n : Nat) (w : World) : World :=
  { w with statics := ((pop3IsOld n).exec (mailServer w.statics w.box)).state.statics
           poll := some ⟨false, false, some n⟩ }

/-- Message `n` is deleted. -/
def World.deleted (n : Nat) (w : World) : World :=
  { w with statics := ((pop3Delete n).exec (mailServer w.statics w.box)).state.statics
           performed := uidAt w.box n :: w.performed }

/-- The session ends. -/
def World.loggedOut (w : World) : World :=
  { w with statics := (pop3Logout.exec (mailServer w.statics w.box)).state.statics }

/-- So does the poll, and well. -/
def World.ended (w : World) : World :=
  { w with statics := w.loggedOut.statics.endPoll true, poll := none }

/-- A message comes in. -/
def World.arrived (id : Bytes) (w : World) : World :=
  { w with box := w.box ++ [id], used := id :: w.used }

/-- The first message was deleted in the first poll. -/
def firstPoll : World := twoNew.opened.asking 1 |>.deleted 1

/-- The server still has it, another one has come in, and the second poll is under way. -/
def secondPoll : World := (firstPoll.ended.arrived (Bytes.lit "c")).opened

theorem wellFormed_letters :
    ∀ id ∈ [Bytes.lit "a", Bytes.lit "b", Bytes.lit "c"], WellFormedUid id := by
  intro id hid
  refine ⟨?_, ?_, ?_⟩ <;> revert id <;> decide

theorem serves_letters {ctl : Ctl} (s : Statics) {box : List Bytes}
    (hbox : box = [Bytes.lit "a", Bytes.lit "b"] ∨
      box = [Bytes.lit "a", Bytes.lit "b", Bytes.lit "c"]) :
    Serves ctl (mailServer s box) box := by
  rcases hbox with rfl | rfl
  · exact serves_mailServer (fun id hid => wellFormed_letters id (by revert id; decide)) (by decide)
      (by decide)
  · exact serves_mailServer wellFormed_letters (by decide) (by decide)

theorem step_opened {w : World} (hpoll : w.poll = none)
    (hbox : w.box = [Bytes.lit "a", Bytes.lit "b"] ∨
      w.box = [Bytes.lit "a", Bytes.lit "b", Bytes.lit "c"]) : Step Unit w w.opened := by
  have hserves : Serves slowCtl (mailServer { w.statics with dofastuidl := false } w.box) w.box :=
    serves_letters _ hbox
  have hpos : 0 < w.box.length := by
    rcases hbox with h | h <;> rw [h] <;> decide
  have hslow : slowCtl.wantsFast w.box.length = false := by simp [Ctl.wantsFast, slowCtl, numNonzero]
  obtain ⟨p, tr, hexec⟩ := hserves.toFullList.exec_getrange hpos rfl hslow
  refine .start hpoll rfl ⟨hserves.toCounts, hserves.honest.weaken, fun _ _ =>
    ⟨_, List.Perm.refl _, hserves.toFullList⟩⟩ rfl (congrArg Outcome.val hexec) rfl

theorem run_secondPoll : Relation.ReflTransGen (Step Unit) twoNew secondPoll := by
  have hserves : Serves slowCtl (mailServer twoNew.opened.statics twoNew.opened.box)
    twoNew.opened.box := serves_letters _ (Or.inl rfl)
  have hfirst : Step Unit twoNew twoNew.opened := step_opened rfl (Or.inl rfl)
  have hasks : Step Unit twoNew.opened (twoNew.opened.asking 1) :=
    @Step.isOld Unit twoNew.opened ⟨false, false, none⟩ 1
      (mailServer twoNew.opened.statics twoNew.opened.box) false rfl (by decide) (by decide) rfl
      hserves.honest.weaken (by decide)
  have hdeletes : Step Unit (twoNew.opened.asking 1) firstPoll :=
    .delete (d := mailServer _ _) rfl rfl rfl
  have hquits : Step Unit firstPoll firstPoll.loggedOut := .logout (d := mailServer _ _) rfl rfl
  have hends : Step Unit firstPoll.loggedOut firstPoll.ended := .finish true rfl
  have harrives : Step Unit firstPoll.ended (firstPoll.ended.arrived (Bytes.lit "c")) :=
    .change rfl (List.Sublist.refl _) (by decide) (by decide)
  have hsecond : Step Unit (firstPoll.ended.arrived (Bytes.lit "c")) secondPoll :=
    step_opened rfl (Or.inr rfl)
  exact .tail (.tail (.tail (.tail (.tail (.tail (.tail .refl hfirst) hasks) hdeletes) hquits) hends)
    harrives) hsecond

/-- In the second poll the first message is old and the second one is not. -/
theorem no_double_delivery_secondPoll :
    ((uidAt secondPoll.box 1 ∈ secondPoll.performed → true = true) ∧
      (false = false → uidAt secondPoll.box 1 ∉ secondPoll.performed → true = false)) ∧
    ((uidAt secondPoll.box 2 ∈ secondPoll.performed → false = true) ∧
      (false = false → uidAt secondPoll.box 2 ∉ secondPoll.performed → false = false)) := by
  have hnone : ∀ id, ¬ twoNew.statics.oldsaved.Old id := fun id => by
    simp [twoNew, Db.Old]
  have hinitial : Initial twoNew :=
    ⟨by decide, by decide, fun id => iff_of_false List.not_mem_nil fun h => hnone id h.2,
      fun id hid => hid.resolve_right (hnone id), Nat.zero_le 1, rfl⟩
  have hserves : Serves slowCtl (mailServer secondPoll.statics secondPoll.box) secondPoll.box :=
    serves_letters _ (Or.inr rfl)
  have hhonest : Honest False secondPoll.box.length (uidAt secondPoll.box)
      (mailServer secondPoll.statics secondPoll.box) := hserves.honest.weaken
  exact ⟨no_double_delivery hinitial run_secondPoll rfl (n := 1) (by decide) (by decide) rfl hhonest
      (by decide),
    no_double_delivery hinitial run_secondPoll rfl (n := 2) (by decide) (by decide) rfl hhonest
      (by decide)⟩

end Fetchmail.Pop3
