import Fetchmail.Driver.FetchMessages

/-!
# Fetch Limits and Sessions

The end of `do_protocol`, where an expunge limit is kept by a loop of sessions, over mailboxes of
POP2 and POP3 servers on which everything goes well. A session is `fetch_messages` on the messages
that are left, and its deletions become final when it ends.
-/

namespace Fetchmail.Driver

open Fetchmail.Lib

/-! ## Numeric options -/

/-- `NUM_VALUE_OUT` -/
def numValueOut (n : Int) : Int := if n < 0 then 0 else n

/-- `NUM_SPECIFIED` -/
def numSpecified (n : Int) : Bool := n ≠ 0

/-! ## The server -/

/-- A message of a mailbox. -/
structure Mail where
  new : Bool
  size : Int
  deriving DecidableEq, Repr

/-- A mailbox during a session: the messages, with their deletion marks, and the one that
POP2 is at. -/
structure Box where
  messages : List (Mail × Bool)
  current : Nat
  deriving DecidableEq, Repr

/-- `DELE`, or `ACKD` for the message at hand. -/
def Box.delete (num : Nat) (box : Box) : Box :=
  { box with messages := box.messages.modify (num - 1) fun m => (m.1, true) }

/-- The size of a message, or zero. -/
def Box.size (box : Box) (num : Nat) : Int := (box.messages[num - 1]?.map (·.1.size)).getD 0

/-- A POP2 server. -/
def pop2Box (keep : Bool) : Method Box where
  isOld := none
  getpartialsizes := none
  fetchHeaders num box := ((.success, box.size num), { box with current := num })
  fetchBody := none
  trail := some fun box => (.success, if keep then box else box.delete box.current)
  deleteMsg := none
  markSeen := none

/-- A POP3 server. -/
def pop3Box : Method Box where
  isOld := some fun num box => ((box.messages[num - 1]?.map (!·.1.new)).getD false, box)
  getpartialsizes := some fun first last sizes box =>
    ((.success, (List.range (last + 1 - first)).foldl
      (fun sizes i => sizes.set i (box.size (first + i))) sizes), box)
  fetchHeaders num box := ((.success, -1), { box with current := num })
  fetchBody := none
  trail := none
  deleteMsg := some fun num box => (.success, box.delete num)
  markSeen := some fun num box =>
    (.success, { box with messages := box.messages.modify (num - 1) fun m =>
      ({ m.1 with new := false }, m.2) })

/-- Messages are read and delivered. -/
def delivering : Transact Box where
  readheaders _ _ _ _ box := (⟨.success, false, 0⟩, box)
  readbody _ _ box := (.success, box)
  closeSink _ box := (true, box)

/-- The protocol is POP2. -/
def Ctl.isPop2 (c : Ctl) : Bool := c.protocol = .pop2

/-- The method table and the server. -/
def Ctl.box (c : Ctl) : Method Box := if c.isPop2 then pop2Box c.keep else pop3Box

/-- A new message of acceptable size. POP2 tells neither age nor size. -/
def Ctl.retrievable (c : Ctl) (m : Mail) : Bool :=
  c.isPop2 || ((c.fetchall || c.forceRetrieval || m.new) && !c.oversized m.size)

/-! ## Sessions -/

/-- What a session comes to. -/
structure SessionResult where
  err : Ps
  fetches : Nat
  left : List Mail
  deriving DecidableEq, Repr

/-- Sizes that are asked for at the start. -/
def Ctl.sizesAtStart (c : Ctl) (mails : List Mail) : Option (List Int) :=
  if c.isPop2 || numNonzero c.fetchsizelimit then none else some (mails.map (·.size))

/-- `do_session`: one pass over the mailbox, and the end of the session. -/
def doSession (c : Ctl) (maxfetch : Int) (mails : List Mail) : SessionResult :=
  -- an empty mailbox ends the loop at once
  if mails = [] then ⟨.nomail, 0, []⟩
  else
    let box : Box := ⟨mails.map fun m => (m, false), 0⟩
    let o := (fetchMessages c c.box delivering maxfetch mails.length
      ⟨1, 0, c.sizesAtStart mails, 0, 0, 0, 0, 0⟩).run box
    let left := (o.state.messages.filter (!·.2)).map Prod.fst
    let err := o.val.1
    if err = .success ∧ o.val.2.fetches = 0 then ⟨.nomail, 0, left⟩
    else ⟨err, o.val.2.fetches, left⟩

/-- What `do_protocol` reads of `struct query`, besides what `fetch_messages` does. -/
structure Limits where
  expunge : Int
  fetchlimit : Int
  deriving DecidableEq, Repr

/-- What `do_protocol` comes to: its return code, the messages that each session has fetched, and
what is left. -/
structure ProtocolResult where
  err : Ps
  sessions : List Nat
  left : List Mail
  deriving DecidableEq, Repr

/-- `MAX_LOCKOUTS` -/
def maxLockouts : Nat := 5

/-- `expunge` for the next session. -/
def nextExpunge (fetchlimit expunge totalcount : Int) : Int :=
  if 0 < fetchlimit ∧ (expunge = 0 ∨ fetchlimit - totalcount < expunge) then fetchlimit - totalcount
  else expunge

/-- The loop of sessions, for at most `fuel` of them. -/
def sessionLoop (c : Ctl) (lim : Limits) :
    (fuel : Nat) → (expunge totalcount : Int) → (lockouts : Nat) → List Mail →
      Option ProtocolResult
  | 0, _, _, _, _ => none
  | fuel + 1, expunge, totalcount, lockouts, mails =>
    let fetchlimit := numValueOut lim.fetchlimit
    let expunge := nextExpunge fetchlimit expunge totalcount
    let r := doSession c expunge mails
    let totalcount := totalcount + expunge
    if numSpecified lim.fetchlimit ∧ fetchlimit ≤ totalcount then some ⟨r.err, [r.fetches], r.left⟩
    else if r.err = .lockbusy ∧ maxLockouts ≤ lockouts then some ⟨r.err, [r.fetches], r.left⟩
    else if r.err = .maxfetch ∨ r.err = .lockbusy then
      let lockouts := if r.err = .lockbusy then lockouts + 1 else 0
      (sessionLoop c lim fuel expunge totalcount lockouts r.left).map fun p =>
        { p with sessions := r.fetches :: p.sessions }
    else some ⟨r.err, [r.fetches], r.left⟩

/-- `do_protocol` behind the checks of the options: `flush`, `fetchall` and `limit` are set only
where the protocol has methods for them, and Kerberos only where it is linked. -/
def doProtocol (c : Ctl) (lim : Limits) (fuel : Nat) (mails : List Mail) :
    Option ProtocolResult :=
  if (c.keep && !c.flush) || !numSpecified lim.expunge then
    let r := doSession c (numValueOut lim.fetchlimit) mails
    some ⟨r.err, [r.fetches], r.left⟩
  else sessionLoop c lim fuel (numValueOut lim.expunge) 0 0 mails

/-! ## One message -/

section

variable {c : Ctl} {mails : List Mail} {front : List (Mail × Bool)} {m : Mail}
  {rest : List (Mail × Bool)} {num current : Nat} {l : Loop}

/-- The sizes that the loop has, or will ask for, when it comes to message `num`. -/
def SizesKnown (c : Ctl) (mails : List Mail) (num : Nat) (l : Loop) : Prop :=
  if c.isPop2 then l.msgsizes = none
  else if 0 < c.fetchsizelimit then l.lastnum < num
  else l.firstnum = 1 ∧ l.msgsizes = some (mails.map (·.size))

theorem message_at (hnum : front.length + 1 = num) :
    (front ++ (m, false) :: rest)[num - 1]? = some (m, false) := by
  have hsub : num - 1 = front.length := by omega
  rw [hsub, List.getElem?_append_right (Nat.le_refl _), Nat.sub_self]
  rfl

theorem delete_at (hnum : front.length + 1 = num) :
    Box.delete num ⟨front ++ (m, false) :: rest, current⟩ =
      ⟨front ++ (m, true) :: rest, current⟩ := by
  have hsub : num - 1 = front.length := by omega
  have hmodify : ∀ front : List (Mail × Bool),
      (front ++ (m, false) :: rest).modify front.length (fun m => (m.1, true)) =
        front ++ (m, true) :: rest := by
    intro front
    induction front with
    | nil => rfl
    | cons x front ih => simpa using ih
  rw [Box.delete, hsub, hmodify]

/-- A message on a POP2 server is fetched. -/
theorem judge_pop2 (count : Nat) (hpop2 : c.isPop2 = true) (hkeep : c.keep = false)
    (hnum : front.length + 1 = num) (hl : l.msgsizes = none) :
    (judge c c.box delivering count num l).wp
      (fun next box _ => box = ⟨front ++ (m, true) :: rest, num⟩ ∧
        next = .flagthemail ⟨.unknown, false, false, false⟩
          { l with dispatches := l.dispatches + 1, fetches := l.fetches + 1 })
      ⟨front ++ (m, false) :: rest, current⟩ := by
  have hsize : c.oversized (l.msgsize num) = false := by
    simp only [Loop.msgsize, sizeAt, hl, Ctl.oversized, numNonzero]
    simp
    omega
  have hbox : c.box = pop2Box false := by rw [Ctl.box, if_pos hpop2, hkeep]
  rw [hbox]
  simp [judge, checkOld, getSizes, pop2Box, hsize, retrieve, delivering, headerFlags, retrieveBody,
    headerTrailer, processBody, requestBody, eatTrailer, finishMessage, Flags.afterBody,
    Loop.countTransient, delete_at hnum]

/-- The protocols that POP2 and POP3 servers are spoken to with. -/
def Ctl.isPop (c : Ctl) : Prop := c.protocol ∈ [Protocol.pop2, .pop3, .apop, .rpop]

theorem sizeLimit_pop3 (hpop : c.isPop) (hpop3 : c.isPop2 = false) : c.sizeLimit = 1 := by
  unfold Ctl.isPop at hpop
  unfold Ctl.isPop2 at hpop3
  unfold Ctl.sizeLimit
  cases hp : c.protocol <;> simp_all

/-- A POP3 server is asked for the size of one message at a time, or of all at the start. -/
theorem getSizes_pop3 {count : Nat} (hpop : c.isPop) (hpop3 : c.isPop2 = false)
    (hnum : front.length + 1 = num) (hcount : num ≤ count)
    (hmails : mails[num - 1]? = some m) (hl : SizesKnown c mails num l) :
    (getSizes c pop3Box count num l).wp
      (fun r box _ => box = ⟨front ++ (m, false) :: rest, current⟩ ∧ ∃ l', r = .ok l' ∧
        l'.msgsize num = m.size ∧ SizesKnown c mails (num + 1) l' ∧ l'.fetches = l.fetches)
      ⟨front ++ (m, false) :: rest, current⟩ := by
  have hlimit := sizeLimit_pop3 hpop hpop3
  simp only [SizesKnown, hpop3, Bool.false_eq_true, if_false] at hl ⊢
  by_cases hwindow : 0 < c.fetchsizelimit
  · rw [if_pos hwindow] at hl
    have hlast : min num count = num := Nat.min_eq_left hcount
    have hrange : num + 1 - num = 1 := by omega
    have hsize : Box.size ⟨front ++ (m, false) :: rest, current⟩ num = m.size := by
      rw [Box.size, message_at hnum]
      rfl
    simp [getSizes, pop3Box, hwindow, hl, hlast, hrange, hlimit, Loop.msgsize, sizeAt, hsize]
  · rw [if_neg hwindow] at hl
    have hsize : l.msgsize num = m.size := by
      rw [Loop.msgsize, hl.1, hl.2, sizeAt, List.getD_eq_getElem?_getD, List.getElem?_map, hmails]
      rfl
    simp [getSizes, pop3Box, hwindow, hsize, hl]

/-- A message on a POP3 server is fetched, or skipped for its age or its size. -/
theorem judge_pop3 {count : Nat} (hpop : c.isPop) (hpop3 : c.isPop2 = false)
    (hnum : front.length + 1 = num) (hcount : num ≤ count)
    (hmails : mails[num - 1]? = some m) (hl : SizesKnown c mails num l) :
    (judge c c.box delivering count num l).wp
      (fun next box _ => ∃ current' f l', box = ⟨front ++ (m, false) :: rest, current'⟩ ∧
        next = .flagthemail f l' ∧ f.retained = false ∧ f.suppressForward = false ∧
        SizesKnown c mails (num + 1) l' ∧
        if c.retrievable m then
          f.msgcode = .unknown ∧ f.suppressDelete = false ∧ l'.fetches = l.fetches + 1
        else f.msgcode ≠ .unknown ∧ l'.fetches = l.fetches)
      ⟨front ++ (m, false) :: rest, current⟩ := by
  have hbox : c.box = pop3Box := by
    rw [Ctl.box, hpop3]
    rfl
  have hmessage : (front ++ (m, false) :: rest)[num - 1]? = some (m, false) := message_at hnum
  have hnext : SizesKnown c mails (num + 1) l := by
    unfold SizesKnown at hl ⊢
    split
    · rwa [if_pos ‹_›] at hl
    · rw [if_neg ‹_›] at hl
      split
      · rw [if_pos ‹_›] at hl
        exact Nat.lt_succ_of_lt hl
      · rwa [if_neg ‹_›] at hl
  -- the message is old
  have hold : (checkOld c pop3Box num).wp
      (fun old box _ => box = ⟨front ++ (m, false) :: rest, current⟩ ∧
        old = !(c.fetchall || c.forceRetrieval || m.new))
      ⟨front ++ (m, false) :: rest, current⟩ := by
    unfold checkOld
    by_cases hall : (c.fetchall || c.forceRetrieval) = true
    · simp [hall]
    · simp only [Bool.not_eq_true] at hall
      simp [hall, pop3Box, hmessage]
  rw [hbox]
  unfold judge
  rw [Act.wp_bind]
  refine Act.wp_mono hold fun old box₁ tr₁ h₁ => ?_
  obtain ⟨rfl, rfl⟩ := h₁
  simp only [Act.wp_ite, Act.wp_pure]
  refine ⟨fun hskip => ?_, fun hfetch => ?_⟩
  · have hnot : c.retrievable m = false := by
      simp only [Bool.not_eq_true'] at hskip
      simp [Ctl.retrievable, hpop3, hskip]
    exact ⟨current, _, _, rfl, rfl, rfl, rfl, hnext, by simp [hnot]⟩
  · rw [Act.wp_bind]
    refine Act.wp_mono (getSizes_pop3 hpop hpop3 hnum hcount hmails hl) fun r box₂ tr₂ h₂ => ?_
    obtain ⟨rfl, l', rfl, hsize, hsizes, hfetches⟩ := h₂
    dsimp only
    rw [hsize]
    have hretrievable : c.retrievable m = !c.oversized m.size := by
      simp only [Bool.not_eq_true', Bool.not_eq_false] at hfetch
      simp [Ctl.retrievable, hpop3, hfetch]
    cases hover : c.oversized m.size with
    | true =>
      exact ⟨current, _, l', rfl, rfl, rfl, rfl, hsizes, by simp [hretrievable, hover, hfetches]⟩
    | false =>
      simp [retrieve, pop3Box, delivering, headerFlags, retrieveBody, headerTrailer, processBody,
        requestBody, eatTrailer, finishMessage, Flags.afterBody, Loop.countTransient, hretrievable,
        hover, hfetches]
      exact hsizes

/-- What is promised about message `num`, once it is done with. -/
def Done (c : Ctl) (mails : List Mail) (front : List (Mail × Bool)) (m : Mail)
    (rest : List (Mail × Bool)) (num : Nat) (l l' : Loop) (box : Box) : Prop :=
  (∃ b current, box = ⟨front ++ (m, b) :: rest, current⟩ ∧ (c.retrievable m = true → b = true)) ∧
    SizesKnown c mails (num + 1) l' ∧
    l'.fetches = l.fetches + if c.retrievable m then 1 else 0

/-- A message that was fetched is deleted. -/
theorem dispose_pop3 {f : Flags} {l' : Loop} (hkeep : c.keep = false) (hpop3 : c.isPop2 = false)
    (hnum : front.length + 1 = num) (hf : f.retained = false)
    (hfetched : c.retrievable m = true → f.msgcode = .unknown ∧ f.suppressDelete = false)
    (hl : SizesKnown c mails (num + 1) l')
    (hcount : l'.fetches = l.fetches + if c.retrievable m then 1 else 0) :
    (dispose c c.box num f l').wp
      (fun r box _ => r.1 = .success ∧ Done c mails front m rest num l r.2 box)
      ⟨front ++ (m, false) :: rest, current⟩ := by
  have hbox : c.box = pop3Box := by
    rw [Ctl.box, hpop3]
    rfl
  rw [hbox]
  unfold dispose
  rw [if_neg (by simp [hf])]
  simp only [pop3Box, Act.wp_ite, Act.wp_bind, Act.wp_lift, Act.wp_emit, Act.wp_pure]
  constructor
  · intro _
    exact ⟨trivial, ⟨true, current, delete_at hnum, fun _ => rfl⟩, hl, hcount⟩
  · intro hstay
    -- a message that was fetched would have been wanted for deletion
    have hnot : c.retrievable m = true → false = true := by
      intro hm
      obtain ⟨hcode, hsuppress⟩ := hfetched hm
      exact absurd (by simp [Ctl.wantsDelete, hcode, hsuppress, hkeep]) hstay
    simp only [maybeMarkSeen, Ctl.wantsSeen, hkeep, Bool.and_false, Bool.false_eq_true, if_false,
      Act.wp_pure]
    exact ⟨trivial, ⟨false, current, rfl, hnot⟩, hl, hcount⟩

/-- **One message**: it is fetched and deleted, or skipped, and the limit is looked at. -/
theorem fetchMessage_pop {count : Nat} (maxfetch : Int) (hpop : c.isPop) (hkeep : c.keep = false)
    (hnum : front.length + 1 = num) (hcount : num ≤ count)
    (hmails : mails[num - 1]? = some m) (hl : SizesKnown c mails num l) :
    (fetchMessage c c.box delivering maxfetch count num l).wp
      (fun next box _ => ∃ l', Done c mails front m rest num l l' box ∧
        next = if maxfetch ≠ 0 ∧ maxfetch ≤ l'.fetches ∧ num < count then .leave .maxfetch l'
          else .nextMessage l')
      ⟨front ++ (m, false) :: rest, current⟩ := by
  -- the end of the loop body adds the look at the limit only
  have hflag : ∀ {f : Flags} {l' : Loop} {box : Box}, f.suppressForward = false →
      (dispose c c.box num f l').wp
        (fun r box _ => r.1 = .success ∧ Done c mails front m rest num l r.2 box) box →
      (flagthemail c c.box maxfetch count num f l').wp
        (fun next box _ => ∃ l', Done c mails front m rest num l l' box ∧
          next = if maxfetch ≠ 0 ∧ maxfetch ≤ l'.fetches ∧ num < count then .leave .maxfetch l'
            else .nextMessage l') box := by
    intro f l' box hf hdispose
    unfold flagthemail
    have hsame : c.softbounceFlags f = f := by simp [Ctl.softbounceFlags, hf]
    rw [hsame, Act.wp_bind]
    refine Act.wp_mono hdispose fun r box' tr h => ?_
    obtain ⟨err, l''⟩ := r
    obtain ⟨rfl, hdone⟩ := h
    simp only [ne_eq, not_true_eq_false, if_false, Act.wp_ite, Act.wp_pure]
    constructor
    · intro hmax
      exact ⟨l'', hdone, (if_pos hmax).symm⟩
    · intro hmax
      exact ⟨l'', hdone, (if_neg hmax).symm⟩
  unfold fetchMessage
  rw [Act.wp_bind]
  cases hpop2 : c.isPop2 with
  | true =>
    have hsizes : l.msgsizes = none := by simpa [SizesKnown, hpop2] using hl
    refine Act.wp_mono (judge_pop2 count hpop2 hkeep hnum hsizes) fun next box tr h => ?_
    obtain ⟨rfl, rfl⟩ := h
    refine Act.wp_mono (hflag rfl ?_) fun next box tr h => h
    have hbox : c.box = pop2Box c.keep := by rw [Ctl.box, if_pos hpop2]
    have hm : c.retrievable m = true := by simp [Ctl.retrievable, hpop2]
    rw [hbox]
    simp only [dispose, pop2Box, maybeMarkSeen, Act.wp_bind, Act.wp_pure, Bool.false_eq_true,
      if_false]
    refine ⟨trivial, ⟨true, num, rfl, fun _ => rfl⟩, ?_, by simp [hm]⟩
    simpa [SizesKnown, hpop2] using hsizes
  | false =>
    refine Act.wp_mono (judge_pop3 hpop hpop2 hnum hcount hmails hl) fun next box tr h => ?_
    obtain ⟨current', f, l', rfl, rfl, hretained, hforward, hsizes, hm⟩ := h
    refine Act.wp_mono (hflag hforward ?_) fun next box tr h => h
    apply dispose_pop3 hkeep hpop2 hnum hretained _ hsizes
    · split at hm
      · next hret => simp [hm.2.2, hret]
      · next hret => simp [hm.2, hret]
    · intro hret
      rw [if_pos hret] at hm
      exact ⟨hm.1, hm.2.1⟩

/-! ## A session -/

/-- What is left undeleted. -/
def Box.left (box : Box) : List Mail := (box.messages.filter (!·.2)).map Prod.fst

/-- What a pass comes to, that had fetched `fetched` messages when the messages `rest` were
still to come. -/
def Passed (c : Ctl) (maxfetch : Int) (front : List (Mail × Bool)) (rest : List Mail)
    (fetched : Nat) (r : Ps × Loop) (box : Box) : Prop :=
  ∃ back current, box = ⟨front ++ back, current⟩ ∧
    (Box.left ⟨back, 0⟩).countP c.retrievable + r.2.fetches =
      rest.countP c.retrievable + fetched ∧
    (0 < maxfetch → (r.2.fetches : Int) ≤ maxfetch) ∧
    (r.1 = .success ∧ (Box.left ⟨back, 0⟩).countP c.retrievable = 0 ∨
      r.1 = .maxfetch ∧ 0 < maxfetch ∧ (r.2.fetches : Int) = maxfetch)

theorem left_append (front back : List (Mail × Bool)) (current : Nat) :
    Box.left ⟨front ++ back, current⟩ = Box.left ⟨front, 0⟩ ++ Box.left ⟨back, 0⟩ := by
  simp [Box.left]

/-- **A pass** fetches every retrievable message, or as many as it may. -/
theorem fetchFrom_pop (maxfetch : Int) (hpop : c.isPop) (hkeep : c.keep = false)
    (hmax : 0 ≤ maxfetch) (count : Nat) (rest : List Mail) :
    ∀ (front : List (Mail × Bool)) (num current : Nat) (l : Loop),
      front.length + 1 = num → front.length + rest.length = count →
      mails.drop front.length = rest → SizesKnown c mails num l →
      (0 < maxfetch → l.fetches < maxfetch ∨ rest = [] ∧ l.fetches ≤ maxfetch) →
      (fetchFrom c c.box delivering maxfetch count rest.length num l).wp
        (fun r box _ => Passed c maxfetch front rest l.fetches r box)
        ⟨front ++ rest.map fun m => (m, false), current⟩ := by
  induction rest with
  | nil =>
    intro front num current l _ _ _ _ hbelow
    refine ⟨[], current, rfl, rfl, fun hpos => ?_, .inl ⟨rfl, rfl⟩⟩
    obtain hlt | ⟨-, hle⟩ := hbelow hpos
    · exact Int.le_of_lt hlt
    · exact hle
  | cons m rest ih =>
    intro front num current l hnum hcount hdrop hl hbelow
    have hmail : mails[num - 1]? = some m := by
      have hhead := congrArg List.head? hdrop
      rw [List.head?_drop] at hhead
      rw [show num - 1 = front.length by omega, hhead]
      rfl
    have hlen : num ≤ count := by
      rw [← hcount, List.length_cons]
      omega
    rw [List.length_cons, fetchFrom, Act.wp_bind]
    refine Act.wp_mono (fetchMessage_pop maxfetch hpop hkeep hnum hlen hmail hl)
      fun next box tr h => ?_
    obtain ⟨l', ⟨⟨b, current', rfl, hb⟩, hsizes, hfetches⟩, hnext⟩ := h
    have hdropped : mails.drop (front ++ [(m, b)]).length = rest := by
      rw [List.length_append, List.length_singleton, ← List.drop_drop, hdrop]
      rfl
    have hsplit : front ++ (m, b) :: rest.map (fun m => (m, false)) =
        (front ++ [(m, b)]) ++ rest.map fun m => (m, false) := by simp
    -- nothing retrievable is left of the message at hand
    have hnone : (Box.left ⟨[(m, b)], 0⟩).countP c.retrievable = 0 := by
      cases b with
      | true => rfl
      | false =>
        have hm : ¬c.retrievable m = true := fun h => absurd (hb h) (by decide)
        simp [Box.left, hm]
    have hone : (m :: rest).countP c.retrievable + l.fetches =
        rest.countP c.retrievable + l'.fetches := by
      rw [List.countP_cons, hfetches]
      omega
    have hstep : l'.fetches ≤ l.fetches + 1 := by
      rw [hfetches]
      split <;> omega
    have hlt : 0 < maxfetch → (l.fetches : Int) < maxfetch := by
      intro hpos
      obtain hlt | ⟨hnil, -⟩ := hbelow hpos
      · exact hlt
      · exact absurd hnil (List.cons_ne_nil m rest)
    split at hnext
    · next hstop =>
      subst hnext
      have hpos : 0 < maxfetch := by
        have hne := hstop.1
        omega
      have hexact : (l'.fetches : Int) = maxfetch := by
        have hbefore := hlt hpos
        have hle := hstop.2.1
        omega
      refine ⟨(m, b) :: rest.map fun m => (m, false), current', rfl, ?_,
        fun _ => Int.le_of_eq hexact, .inr ⟨rfl, hpos, hexact⟩⟩
      have hundeleted : Box.left ⟨rest.map fun m => (m, false), 0⟩ = rest := by
        simp [Box.left, List.filter_map, Function.comp_def]
      rw [← List.singleton_append, left_append, List.countP_append, hnone, hundeleted, hone,
        Nat.zero_add]
      rfl
    · next hgo =>
      subst hnext
      have hnext : 0 < maxfetch → (l'.fetches : Int) < maxfetch ∨
          rest = [] ∧ (l'.fetches : Int) ≤ maxfetch := by
        intro hpos
        have hbefore := hlt hpos
        by_cases hlast : rest = []
        · exact .inr ⟨hlast, by omega⟩
        · have hrest := List.length_pos_iff.mpr hlast
          rw [List.length_cons] at hcount
          exact .inl (by omega)
      rw [hsplit]
      refine Act.wp_mono (ih (front ++ [(m, b)]) (num + 1) current' l' (by simpa using hnum)
        (by simpa [Nat.add_comm, Nat.add_left_comm] using hcount) hdropped hsizes hnext)
        fun r box tr h => ?_
      obtain ⟨back, current'', rfl, hcounts, hlimited, hstopped⟩ := h
      refine ⟨(m, b) :: back, current'', by simp, ?_, hlimited, ?_⟩
      · rw [← List.singleton_append, left_append, List.countP_append, hnone, Nat.zero_add,
          hcounts, hone]
      · rwa [← List.singleton_append, left_append, List.countP_append, hnone, Nat.zero_add]

/-- What a session of `N` retrievable messages comes to. -/
structure Served (c : Ctl) (maxfetch : Int) (mails : List Mail) (r : SessionResult) : Prop where
  counts : r.left.countP c.retrievable + r.fetches = mails.countP c.retrievable
  limited : 0 < maxfetch → (r.fetches : Int) ≤ maxfetch
  notLocked : r.err ≠ .lockbusy
  stopped : r.err = .maxfetch → 0 < maxfetch ∧ (r.fetches : Int) = maxfetch
  finished : r.err ≠ .maxfetch → r.left.countP c.retrievable = 0

/-- The sizes at the start of a session. -/
theorem sizesKnown_start (c : Ctl) (mails : List Mail) (l : Loop) :
    SizesKnown c mails 1 { l with
      firstnum := 1, lastnum := 0,
      msgsizes := if partialSizes c c.box then some (List.replicate c.sizeLimit 0)
        else c.sizesAtStart mails } := by
  unfold SizesKnown Ctl.sizesAtStart Ctl.box
  cases c.isPop2 with
  | true => simp [partialSizes, pop2Box]
  | false =>
    by_cases hwindow : 0 < c.fetchsizelimit
    · simp [hwindow]
    · simp [partialSizes, pop3Box, numNonzero, hwindow]

/-- **A session** fetches every retrievable message, or as many as it may. -/
theorem doSession_pop {maxfetch : Int} (hpop : c.isPop) (hkeep : c.keep = false)
    (hmax : 0 ≤ maxfetch) (mails : List Mail) :
    Served c maxfetch mails (doSession c maxfetch mails) := by
  unfold doSession
  split
  · next hnil =>
    subst hnil
    exact ⟨rfl, fun h => Int.le_of_lt h, by simp, by simp, fun _ => rfl⟩
  · next hmails =>
    dsimp only
    -- the loop starts with an empty front of handled messages
    have hpass : (fetchMessages c c.box delivering maxfetch mails.length
        ⟨1, 0, c.sizesAtStart mails, 0, 0, 0, 0, 0⟩).wp
          (fun r box _ => Passed c maxfetch [] mails 0 r box)
          ⟨mails.map fun m => (m, false), 0⟩ := by
      apply fetchFrom_pop maxfetch hpop hkeep hmax mails.length mails [] 1 0 _ rfl
        (Nat.zero_add _) rfl
      · exact sizesKnown_start c mails ⟨1, 0, c.sizesAtStart mails, 0, 0, 0, 0, c.errcount⟩
      · exact fun hpos => .inl hpos
    unfold Act.wp at hpass
    obtain ⟨back, current, hbox, hcounts, hlimited, hstopped⟩ := hpass
    rw [hbox]
    simp only [Box.left, List.nil_append, Nat.add_zero] at hcounts hstopped ⊢
    split
    -- nothing is left to fetch, so the limit has not ended the pass
    · next hnone =>
      rw [hnone.2] at hcounts
      obtain ⟨-, hfinished⟩ | ⟨hmaxfetch, -⟩ := hstopped
      · exact ⟨hcounts, fun h => Int.le_of_lt h, by simp, by simp, fun _ => hfinished⟩
      · exact absurd (hnone.1.symm.trans hmaxfetch) (by decide)
    · obtain ⟨hsuccess, hfinished⟩ | ⟨hmaxfetch, hpos, hexact⟩ := hstopped
      · exact ⟨hcounts, hlimited, by simp [hsuccess], by simp [hsuccess], fun _ => hfinished⟩
      · exact ⟨hcounts, hlimited, by simp [hmaxfetch], fun _ => ⟨hpos, hexact⟩,
          fun h => absurd hmaxfetch h⟩

/-! ## The loop of sessions -/

/-- What is to be fetched of `n` messages, when `rest` is left of a fetch limit. -/
def upTo (fetchlimit : Int) (n : Nat) (rest : Int) : Int :=
  if 0 < fetchlimit then min n rest else n

theorem nextExpunge_nonneg {fetchlimit expunge totalcount : Int} (hexpunge : 0 ≤ expunge)
    (hbelow : 0 < fetchlimit → totalcount < fetchlimit) :
    0 ≤ nextExpunge fetchlimit expunge totalcount := by
  unfold nextExpunge
  split <;> omega

/-- **The sessions** fetch what they are to, together and one by one. -/
theorem sessionLoop_pop {lim : Limits} (hpop : c.isPop) (hkeep : c.keep = false)
    (hlim : 0 ≤ lim.fetchlimit) (n : Nat) :
    ∀ (mails : List Mail) (expunge totalcount : Int) (lockouts : Nat),
      mails.countP c.retrievable = n → 0 ≤ expunge → 0 ≤ totalcount →
      (0 < lim.fetchlimit → totalcount < lim.fetchlimit) →
      ∃ fuel r, sessionLoop c lim fuel expunge totalcount lockouts mails = some r ∧
        (r.sessions.sum : Int) =
          upTo lim.fetchlimit n (lim.fetchlimit - totalcount) ∧
        (0 < expunge → ∀ f ∈ r.sessions, (f : Int) ≤ expunge) := by
  induction n using Nat.strongRecOn with
  | _ n ih =>
    intro mails expunge totalcount lockouts hn hexpunge htotal hbelow
    have hvalue : numValueOut lim.fetchlimit = lim.fetchlimit := by
      unfold numValueOut
      split <;> omega
    obtain ⟨next, hnext⟩ : ∃ next, nextExpunge lim.fetchlimit expunge totalcount = next := ⟨_, rfl⟩
    have hpos := nextExpunge_nonneg hexpunge hbelow
    rw [hnext] at hpos
    have hnext' := hnext
    have hserved := doSession_pop hpop hkeep hpos mails
    obtain ⟨r, hr⟩ : ∃ r, doSession c next mails = r := ⟨_, rfl⟩
    rw [hr] at hserved
    have hcounts := hserved.counts
    have hlimited := hserved.limited
    unfold nextExpunge at hnext
    -- the limit of this session is never above the one the user gave
    have hone : 0 < expunge → (r.fetches : Int) ≤ expunge := by
      intro h
      split at hnext <;> omega
    have hmaxfetch := hserved.stopped
    have hfinished := hserved.finished
    by_cases hlast : numSpecified lim.fetchlimit ∧ lim.fetchlimit ≤ totalcount + next
    · -- the fetch limit is used up
      refine ⟨1, ⟨r.err, [r.fetches], r.left⟩, ?_, ?_, fun h f hf => ?_⟩
      · simp only [sessionLoop, hvalue, hnext', hr, if_pos hlast]
      · have hspecified : 0 < lim.fetchlimit := by
          have hne := hlast.1
          simp only [numSpecified, ne_eq, decide_not, Bool.not_eq_true', decide_eq_false_iff_not]
            at hne
          omega
        have htotal := hbelow hspecified
        simp only [upTo, if_pos hspecified, List.sum_cons, List.sum_nil, Nat.add_zero]
        have hle := hlast.2
        by_cases herr : r.err = .maxfetch
        · have hexact := hmaxfetch herr
          split at hnext <;> omega
        · have hnone := hfinished herr
          split at hnext <;> omega
      · rw [List.mem_singleton.mp hf]
        exact hone h
    · by_cases herr : r.err = .maxfetch
      · -- another session, with fewer messages left
        obtain ⟨hpos', hexact⟩ := hmaxfetch herr
        have hbelow' : 0 < lim.fetchlimit → totalcount + next < lim.fetchlimit := by
          intro h
          have hspecified : numSpecified lim.fetchlimit = true := by
            simp only [numSpecified, ne_eq, decide_not, Bool.not_eq_true', decide_eq_false_iff_not]
            omega
          exact Int.not_le.mp fun hle => hlast ⟨hspecified, hle⟩
        obtain ⟨fuel, p, hp, hsum, heach⟩ := ih (n - r.fetches) (by omega) r.left next
          (totalcount + next) 0 (by omega) hpos (by omega) hbelow'
        refine ⟨fuel + 1, { p with sessions := r.fetches :: p.sessions }, ?_, ?_, fun h f hf => ?_⟩
        · simp [sessionLoop, hvalue, hnext', hr, hlast, herr, hp]
        · simp only [List.sum_cons]
          unfold upTo at hsum ⊢
          by_cases hspecified : 0 < lim.fetchlimit
          · rw [if_pos hspecified] at hsum ⊢
            have hrest := hbelow' hspecified
            omega
          · rw [if_neg hspecified] at hsum ⊢
            omega
        · obtain rfl | hf := List.mem_cons.mp hf
          · exact hone h
          · have hle := heach hpos' f hf
            split at hnext <;> omega
      · have hnone := hfinished herr
        refine ⟨1, ⟨r.err, [r.fetches], r.left⟩, ?_, ?_, fun h f hf => ?_⟩
        · simp [sessionLoop, hvalue, hnext', hr, hlast, herr, hserved.notLocked]
        · simp only [upTo, List.sum_cons, List.sum_nil, Nat.add_zero]
          by_cases hspecified : 0 < lim.fetchlimit
          · have htotal := hbelow hspecified
            rw [if_pos hspecified]
            split at hnext <;> omega
          · rw [if_neg hspecified]
            omega
        · rw [List.mem_singleton.mp hf]
          exact hone h

/-- A single session, with all there is to fetch or the limit reached. -/
theorem Served.fetches_eq {maxfetch : Int} {r : SessionResult}
    (h : Served c maxfetch mails r) :
    (r.fetches : Int) = upTo maxfetch (mails.countP c.retrievable) maxfetch := by
  have hcounts := h.counts
  have hlimited := h.limited
  have hstopped := h.stopped
  have hfinished := h.finished
  unfold upTo
  by_cases hpos : 0 < maxfetch
  · rw [if_pos hpos]
    by_cases herr : r.err = .maxfetch
    · have hexact := (hstopped herr).2
      omega
    · have hnone := hfinished herr
      have hle := hlimited hpos
      omega
  · rw [if_neg hpos]
    have hnone := hfinished fun herr => hpos (hstopped herr).1
    omega

/-- Where no expunge limit is given, there is one session. -/
theorem doProtocol_once {lim : Limits} (fuel : Nat) (hexpunge : lim.expunge = 0) :
    doProtocol c lim fuel mails =
      let r := doSession c (numValueOut lim.fetchlimit) mails
      some ⟨r.err, [r.fetches], r.left⟩ := by
  simp [doProtocol, numSpecified, hexpunge]

/-- Where zero is given explicitly as the fetch limit, there is one session. -/
theorem doProtocol_unlimited {lim : Limits} (fuel : Nat) (hkeep : c.keep = false)
    (hexpunge : lim.expunge ≠ 0) (hlim : lim.fetchlimit < 0) :
    doProtocol c lim (fuel + 1) mails =
      let r := doSession c (numValueOut lim.expunge) mails
      some ⟨r.err, [r.fetches], r.left⟩ := by
  have hvalue : numValueOut lim.fetchlimit = 0 := by
    unfold numValueOut
    split <;> omega
  have hpos : 0 ≤ numValueOut lim.expunge := by
    unfold numValueOut
    split <;> omega
  have hspecified : numSpecified lim.fetchlimit = true := by
    simp only [numSpecified, ne_eq, decide_not, Bool.not_eq_true', decide_eq_false_iff_not]
    omega
  have hnext : nextExpunge 0 (numValueOut lim.expunge) 0 = numValueOut lim.expunge := by
    simp [nextExpunge]
  simp [doProtocol, hkeep, numSpecified, hexpunge, sessionLoop, hvalue, hnext, hpos,
    Int.ne_of_lt hlim]

/-- **Fetch limit and sub-sessions.** Together the sessions fetch what they are to and each keeps
to the expunge limit, except where zero is given explicitly as the fetch limit: then there is only
one session, and the expunge limit keeps messages from being fetched. -/
theorem doProtocol_fetches_iff (c : Ctl) (lim : Limits) (mails : List Mail) (hpop : c.isPop)
    (hkeep : c.keep = false) :
    (∃ fuel r, doProtocol c lim fuel mails = some r ∧
      (r.sessions.sum : Int) =
        upTo lim.fetchlimit (mails.countP c.retrievable) lim.fetchlimit ∧
      (0 < lim.expunge → ∀ f ∈ r.sessions, (f : Int) ≤ lim.expunge)) ↔
    ¬(lim.fetchlimit < 0 ∧ 0 < lim.expunge ∧ lim.expunge < mails.countP c.retrievable) := by
  have hnonneg : ∀ k, 0 ≤ numValueOut k := by
    intro k
    unfold numValueOut
    split <;> omega
  have hvalue : ∀ {k}, 0 < k → numValueOut k = k := by
    intro k hk
    unfold numValueOut
    split <;> omega
  by_cases hexpunge : lim.expunge = 0
  · -- no expunge limit, one session
    have hsum := (doSession_pop hpop hkeep (hnonneg lim.fetchlimit) mails).fetches_eq
    refine iff_of_true ⟨0, _, doProtocol_once 0 hexpunge, ?_, by omega⟩ (by omega)
    rw [List.sum_cons, List.sum_nil, Nat.add_zero, hsum]
    unfold upTo
    by_cases hlim : 0 < lim.fetchlimit
    · rw [hvalue hlim]
    · have hzero : ¬0 < numValueOut lim.fetchlimit := by
        unfold numValueOut
        split <;> omega
      rw [if_neg hlim, if_neg hzero]
  -- sub-sessions until the fetch limit is reached
  by_cases hlim : 0 ≤ lim.fetchlimit
  · refine iff_of_true ?_ (by omega)
    obtain ⟨fuel, r, hr, hsum, heach⟩ := sessionLoop_pop hpop hkeep hlim _ mails
      (numValueOut lim.expunge) 0 0 rfl (hnonneg _) (Int.le_refl 0) (fun h => h)
    refine ⟨fuel, r, ?_, by simpa using hsum, fun h f hf => ?_⟩
    · simp [doProtocol, hkeep, numSpecified, hexpunge, hr]
    · have hle := heach (by rw [hvalue h]; exact h) f hf
      rwa [hvalue h] at hle
  · -- one session only, which the expunge limit may end
    have hlim := Int.not_le.mp hlim
    have hunlimited : ∀ n rest, upTo lim.fetchlimit n rest = n := fun n rest => if_neg (by omega)
    have hserved := doSession_pop hpop hkeep (hnonneg lim.expunge) mails
    have hsum := hserved.fetches_eq
    unfold upTo at hsum
    rw [hunlimited]
    constructor
    · rintro ⟨fuel, r, hr, htotal, -⟩ ⟨-, hpos, hless⟩
      cases fuel with
      | zero => simp [doProtocol, hkeep, numSpecified, hexpunge, sessionLoop] at hr
      | succ fuel =>
        rw [doProtocol_unlimited fuel hkeep hexpunge hlim] at hr
        obtain rfl := Option.some.inj hr
        rw [hvalue hpos, if_pos hpos] at hsum
        simp only [List.sum_cons, List.sum_nil, Nat.add_zero] at htotal
        rw [hvalue hpos] at htotal
        omega
    -- the messages fit into one session
    · intro hnot
      refine ⟨1, _, doProtocol_unlimited 0 hkeep hexpunge hlim, ?_, fun h f hf => ?_⟩
      · rw [List.sum_cons, List.sum_nil, Nat.add_zero, hsum]
        by_cases hpos : 0 < lim.expunge
        · rw [hvalue hpos, if_pos hpos]
          omega
        · have hzero : ¬0 < numValueOut lim.expunge := by
            unfold numValueOut
            split <;> omega
          rw [if_neg hzero]
      · rw [List.mem_singleton.mp hf]
        have hle := hserved.limited
        rw [hvalue h] at hle
        rw [hvalue h]
        exact hle h

end

/-- POP3, deleting what was fetched: two sessions of two messages and one of one. -/
theorem doProtocol_fetches_five :
    ∃ fuel r, doProtocol ⟨.pop3, false, false, true, 0, false, 0, 0, false, false⟩ ⟨2, 0⟩ fuel
        (List.replicate 5 ⟨true, 100⟩) = some r ∧
      (r.sessions.sum : Int) = upTo 0 5 0 ∧ ((0 : Int) < 2 → ∀ f ∈ r.sessions, (f : Int) ≤ 2) :=
  (doProtocol_fetches_iff ⟨.pop3, false, false, true, 0, false, 0, 0, false, false⟩ ⟨2, 0⟩
    (List.replicate 5 ⟨true, 100⟩) (by unfold Ctl.isPop; decide) rfl).mpr (by decide)

/-- Zero as an explicit fetch limit, which the option table stores as `-1`: of five messages only
the first two are fetched. -/
theorem explicit_zero_stops :
    let c : Ctl := ⟨.pop3, false, false, true, 0, false, 0, 0, false, false⟩
    let mails := List.replicate 5 ⟨true, 100⟩
    mails.countP c.retrievable = 5 ∧
      ∀ fuel r, doProtocol c ⟨2, -1⟩ fuel mails = some r → r.sessions = [2] := by
  refine ⟨by decide, fun fuel r hr => ?_⟩
  cases fuel with
  | zero => simp [doProtocol, numSpecified, sessionLoop] at hr
  | succ fuel =>
    rw [doProtocol_unlimited fuel rfl (by decide) (by decide)] at hr
    rw [← Option.some.inj hr]
    decide +kernel

end Fetchmail.Driver
