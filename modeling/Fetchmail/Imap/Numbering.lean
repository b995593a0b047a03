import Fetchmail.Driver.LoopRule

/-!
# IMAP Message Numbers

The methods of `imap.c` that `fetch_messages` calls, over a server that keeps a list of
messages with flags. A message of the loop is a number from when the mailbox was selected;
every expunge renumbers the messages of the server, so the number that is sent is lessened by
the count of the messages that have been expunged.

The server removes at an `EXPUNGE` the messages that are flagged as deleted, whoever has
flagged them. Whether it carries a command out is up to it. For each number that is sent the
state keeps which message is meant and which is at that number.
-/

namespace Fetchmail.Imap.Numbering

open Fetchmail.Lib Fetchmail.Driver

/-! ## The server and the counters -/

/-- A message on the server. -/
structure Mail where
  /-- the index when the mailbox was selected -/
  number : Nat
  size : Nat
  seen : Bool
  deleted : Bool
  deriving DecidableEq, Repr

/-- How the server answers a command. -/
structure Reply where
  status : Ps
  /-- the length in a response -/
  len : Int

/-- The mailbox, and the variables of `imap.c`. -/
structure Mailbox where
  mails : List Mail
  replies : Nat → Reply
  /-- how many commands have been sent -/
  commands : Nat
  deletions : Nat
  expunged : Nat
  expungePeriod : Int
  unseenMessages : List Nat
  /-- the message that was meant, and the one at the number that was sent -/
  addressed : List (Nat × Option Nat)

/-- The message at a number. -/
def Mailbox.mail (w : Mailbox) (seq : Int) : Option Mail :=
  if 1 ≤ seq then w.mails[(seq - 1).toNat]? else none

/-- `number -= expunged` -/
def Mailbox.seq (w : Mailbox) (number : Nat) : Int := number - w.expunged

/-- A command goes to the message that is meant by `number`. -/
def Mailbox.address (w : Mailbox) (number : Nat) : Mailbox :=
  { w with addressed := w.addressed ++ [(number, (w.mail (w.seq number)).map (·.number))] }

/-- `gen_transact` -/
def Mailbox.transact (w : Mailbox) : Reply × Mailbox :=
  (w.replies w.commands, { w with commands := w.commands + 1 })

/-! ## The methods -/

/-- `internal_expunge` -/
def internalExpunge (w : Mailbox) : Ps × Mailbox :=
  let (r, w) := w.transact
  if r.status ≠ .success then (r.status, w)
  else
    let actualDeletions := w.mails.countP (·.deleted)
    let w := { w with mails := w.mails.filter (!·.deleted) }
    -- another client may be deleting
    if 0 < w.deletions ∧ w.deletions ≠ actualDeletions then (.error, { w with deletions := 0 })
    else (.success, { w with expunged := w.expunged + w.deletions, deletions := 0 })

/-- `STORE`: the flags of a message. -/
def store (number : Nat) (flags : Mail → Mail) (w : Mailbox) : Ps × Mailbox :=
  let (r, w) := (w.address number).transact
  if r.status ≠ .success then (r.status, w)
  else (.success, { w with mails := w.mails.modify (w.seq number - 1).toNat flags })

/-- `imap_delete` -/
def imapDelete (number : Nat) (w : Mailbox) : Ps × Mailbox :=
  let (ok, w) := store number (fun m => { m with seen := true, deleted := true }) w
  if ok ≠ .success then (ok, w)
  else
    let w := { w with deletions := w.deletions + 1 }
    if numNonzero w.expungePeriod ∧ (w.deletions : Int) % w.expungePeriod = 0 then internalExpunge w
    else (.success, w)

/-- `imap_mark_seen` -/
def imapMarkSeen (number : Nat) (w : Mailbox) : Ps × Mailbox :=
  store number (fun m => { m with seen := true }) w

/-- `imap_fetch_headers`, and `imap_fetch_body`: another command, with the same number. -/
def fetch (number : Nat) (w : Mailbox) : (Ps × Int) × Mailbox :=
  let (r, w) := (w.address number).transact
  ((r.status, r.len), w)

/-- `imap_trail` -/
def imapTrail (w : Mailbox) : Ps × Mailbox :=
  let (r, w) := w.transact
  (r.status, w)

/-- `imap_is_old` -/
def imapIsOld (number : Nat) (w : Mailbox) : Bool × Mailbox := (number ∉ w.unseenMessages, w)

/-- An `unsigned` that is kept in an `int`. -/
def asInt (n : Nat) : Int := (n : Int).bmod (2 ^ 32)

/-- The responses to a `FETCH` of sizes: `seq` and the numbers behind it, `len` of them. -/
def sizeResponses (w : Mailbox) (seq : Int) (len : Nat) : List (Nat × Int) :=
  (List.range len).filterMap fun i : Nat => (w.mail (seq + i)).map fun m => (i, asInt m.size)

/-- `imap_getpartialsizes` -/
def imapGetpartialsizes (first last : Nat) (sizes : List Int) (w : Mailbox) :
    (Ps × List Int) × Mailbox :=
  if w.seq last < w.seq first then ((.success, sizes), w)
  else
    let len := (w.seq last - w.seq first).toNat + 1
    let sizes := (sizeResponses w (w.seq first) len).foldl (fun sizes r => sizes.set r.1 r.2) sizes
    let (r, w) := ((List.range len).foldl (fun w i => w.address (first + i)) w).transact
    ((r.status, sizes), w)

/-- `imap_getsizes` -/
def imapGetsizes (count : Nat) (sizes : List Int) (w : Mailbox) : (Ps × List Int) × Mailbox :=
  imapGetpartialsizes 1 count sizes w

section

variable {τ α : Type}

/-- A method beside another state. -/
def onImap (f : Mailbox → α × Mailbox) (s : Mailbox × τ) : α × (Mailbox × τ) :=
  ((f s.1).1, (f s.1).2, s.2)

/-- `static const struct method imap` -/
def imap : Method (Mailbox × τ) where
  isOld := some fun number => onImap (imapIsOld number)
  getpartialsizes := some fun first last sizes => onImap (imapGetpartialsizes first last sizes)
  fetchHeaders number := onImap (fetch number)
  fetchBody := some fun number => onImap (fetch number)
  trail := some (onImap imapTrail)
  deleteMsg := some fun number => onImap (imapDelete number)
  markSeen := some fun number => onImap (imapMarkSeen number)

/-- Reading and delivering a message does not concern the mailbox. -/
def besideImap (t : Transact τ) : Transact (Mailbox × τ) where
  readheaders reallen fetchlen num suppress s :=
    let r := t.readheaders reallen fetchlen num suppress s.2
    (r.1, s.1, r.2)
  readbody forward len s :=
    let r := t.readbody forward len s.2
    (r.1, s.1, r.2)
  closeSink forward s :=
    let r := t.closeSink forward s.2
    (r.1, s.1, r.2)

end

/-- The messages with the numbers that they have when the mailbox is selected. -/
def numbered (mails : List Mail) : List Mail :=
  mails.zipIdx.map fun p => { p.1 with number := p.2 + 1 }

/-- What `imap_getrange` leaves behind. -/
def selected (mails : List Mail) (replies : Nat → Reply) (expungePeriod : Int)
    (unseenMessages : List Nat) : Mailbox :=
  ⟨numbered mails, replies, 0, 0, 0, expungePeriod, unseenMessages, []⟩

/-- What `do_session` does with a mailbox that is not empty: it asks for all sizes, unless they are
fetched in windows, and calls `fetch_messages`. -/
def pass {τ : Type} (c : Ctl) (t : Transact τ) (maxfetch : Int) (count : Nat) (l : Loop) :
    Act (Mailbox × τ) Call (Ps × Loop) := do
  if partialSizes c (imap : Method (Mailbox × τ)) then
    fetchMessages c imap (besideImap t) maxfetch count l
  else
    let (err, sizes) ← Act.lift (onImap (imapGetsizes count (List.replicate count 0)))
    Act.emit (.getpartialsizes 1 count err sizes)
    if err ≠ .success then return (err, l)
    else fetchMessages c imap (besideImap t) maxfetch count { l with msgsizes := some sizes }

/-! ## The numbers -/

/-- What does not change about a message. -/
def Mail.key (m : Mail) : Nat × Nat := (m.number, m.size)

/-- The messages from `num` on are there, at their places behind some that include the ones that
are to be expunged. -/
def Aligned (mails : List Mail) (num : Nat) (w : Mailbox) : Prop :=
  ∃ front tail, w.mails = front ++ tail ∧ front.length + w.expunged + 1 = num ∧
    tail.map Mail.key = ((numbered mails).drop (num - 1)).map Mail.key ∧
    w.deletions ≤ front.countP (·.deleted)

/-- Every number that was sent is that of the message that was meant. -/
def Exact (w : Mailbox) : Prop := ∀ a ∈ w.addressed, a.2 = some a.1

/-- The size of message `n`, in some representation. -/
def recordedSize (repr : Nat → Int) (mails : List Mail) (n : Nat) : Option Int :=
  mails[n - 1]?.map fun m => repr m.size

/-- Sizes that are asked for are those of the messages. -/
def Sized (repr : Nat → Int) (mails : List Mail) : Call → Prop
  | .getpartialsizes first last err sizes => err = .success → ∀ n, first ≤ n → n ≤ last →
      sizes[n - first]? = recordedSize repr mails n
  | _ => True

section

variable {mails : List Mail} {num : Nat} {w : Mailbox}

theorem aligned_selected (replies : Nat → Reply) (expungePeriod : Int) (unseenMessages : List Nat) :
    Aligned mails 1 (selected mails replies expungePeriod unseenMessages) :=
  ⟨[], numbered mails, rfl, rfl, rfl, Nat.le_refl _⟩

/-- The messages from `num` on are found. -/
theorem Aligned.mail (h : Aligned mails num w) {n : Nat} (hn : num ≤ n) (hcount : n ≤ mails.length) :
    ∃ m, w.mail (w.seq n) = some m ∧ m.number = n ∧ some m.size = mails[n - 1]?.map (·.size) := by
  obtain ⟨front, tail, hmails, hlen, htail, -⟩ := h
  have hpos : 1 ≤ w.seq n := by
    unfold Mailbox.seq
    omega
  have hidx : (w.seq n - 1).toNat = front.length + (n - num) := by
    unfold Mailbox.seq
    omega
  have hat := congrArg (fun l => l[n - num]?) htail
  simp only [List.getElem?_map, List.getElem?_drop] at hat
  have hsum : num - 1 + (n - num) = n - 1 := by omega
  rw [hsum, numbered, List.getElem?_map, List.getElem?_zipIdx] at hat
  rw [Mailbox.mail, if_pos hpos, hidx, hmails, List.getElem?_append_right (by omega)]
  have hsub : front.length + (n - num) - front.length = n - num := by omega
  rw [hsub]
  have hlt : n - 1 < mails.length := by omega
  obtain ⟨m₀, hm⟩ : ∃ m₀, mails[n - 1]? = some m₀ := ⟨_, List.getElem?_eq_getElem hlt⟩
  rw [hm] at hat ⊢
  cases htl : tail[n - num]? with
  | none => rw [htl] at hat; simp at hat
  | some m =>
    rw [htl] at hat
    simp only [Option.map_some, Mail.key, Option.some.injEq, Prod.mk.injEq] at hat
    refine ⟨m, rfl, ?_, by rw [hat.2]; rfl⟩
    rw [hat.1]
    omega

theorem Aligned.address (h : Aligned mails num w) (n : Nat) : Aligned mails num (w.address n) := h

theorem Aligned.exact (h : Aligned mails num w) (he : Exact w) {n : Nat} (hn : num ≤ n)
    (hcount : n ≤ mails.length) : Exact (w.address n) := by
  intro a ha
  rcases List.mem_append.mp ha with ha | ha
  · exact he a ha
  · obtain ⟨m, hm, hnum, -⟩ := h.mail hn hcount
    rw [List.mem_singleton.mp ha, hm, Option.map_some, hnum]

/-- The message at hand, with those before and behind it. -/
theorem Aligned.split (h : Aligned mails num w) (hcount : num ≤ mails.length) :
    ∃ front m tail, w.mails = front ++ m :: tail ∧ front.length + w.expunged + 1 = num ∧
      tail.map Mail.key = ((numbered mails).drop num).map Mail.key ∧
      w.deletions ≤ front.countP (·.deleted) := by
  obtain ⟨front, tail, hmails, hlen, htail, hdel⟩ := h
  cases tail with
  | nil =>
    have hnone := congrArg List.length htail
    simp only [numbered, List.length_map, List.length_drop, List.length_zipIdx,
      List.length_nil] at hnone
    omega
  | cons m tail =>
    have htails := congrArg List.tail htail
    have hsucc : num - 1 + 1 = num := by omega
    rw [List.map_cons, List.tail_cons, ← List.map_tail, List.tail_drop, hsucc] at htails
    exact ⟨front, m, tail, hmails, hlen, htails, hdel⟩

/-- A message is done with, and nothing has become of it. -/
theorem Aligned.next (h : Aligned mails num w) (hcount : num ≤ mails.length) :
    Aligned mails (num + 1) w := by
  obtain ⟨front, m, tail, hmails, hlen, htail, hdel⟩ := h.split hcount
  refine ⟨front ++ [m], tail, by simp [hmails], by simp; omega, htail, ?_⟩
  rw [List.countP_append]
  exact Nat.le_trans hdel (Nat.le_add_right _ _)

theorem modify_append_cons (front : List Mail) (m : Mail) (tail : List Mail) (flags : Mail → Mail) :
    (front ++ m :: tail).modify front.length flags = front ++ [flags m] ++ tail := by
  induction front with
  | nil => rfl
  | cons x front ih => simpa using ih

/-- The flags of the message at hand are set. -/
theorem Aligned.store (h : Aligned mails num w) (hcount : num ≤ mails.length)
    (flags : Mail → Mail) :
    Aligned mails (num + 1) { w with mails := w.mails.modify (w.seq num - 1).toNat flags } ∧
      ((∀ m, (flags m).deleted = true) → Aligned mails (num + 1)
        { w with
          mails := w.mails.modify (w.seq num - 1).toNat flags
          deletions := w.deletions + 1 }) := by
  obtain ⟨front, m, tail, hmails, hlen, htail, hdel⟩ := h.split hcount
  have hidx : (w.seq num - 1).toNat = front.length := by
    unfold Mailbox.seq
    omega
  have hmodify : w.mails.modify (w.seq num - 1).toNat flags = front ++ [flags m] ++ tail := by
    rw [hidx, hmails, modify_append_cons]
  have hlen' : (front ++ [flags m]).length + w.expunged + 1 = num + 1 := by
    rw [List.length_append, List.length_singleton]
    omega
  constructor
  · refine ⟨front ++ [flags m], tail, hmodify, hlen', htail, ?_⟩
    rw [List.countP_append]
    exact Nat.le_trans hdel (Nat.le_add_right _ _)
  · intro hall
    refine ⟨front ++ [flags m], tail, hmodify, hlen', htail, ?_⟩
    -- the message at hand is one more to expunge
    rw [List.countP_append, List.countP_singleton, hall m]
    exact Nat.succ_le_succ hdel

/-- **An expunge** that removes as many messages as were deleted removes no other. -/
theorem Aligned.expunge (h : Aligned mails num w) (hdel : w.mails.countP (·.deleted) = w.deletions) :
    Aligned mails num { w with
      mails := w.mails.filter (!·.deleted), expunged := w.expunged + w.deletions, deletions := 0 } := by
  obtain ⟨front, tail, hmails, hlen, htail, hle⟩ := h
  rw [hmails, List.countP_append] at hdel
  have hfront : front.countP (·.deleted) = w.deletions := by omega
  have hrest : tail.countP (·.deleted) = 0 := by omega
  refine ⟨front.filter (!·.deleted), tail, ?_, ?_, htail, Nat.zero_le _⟩
  · simp only [hmails, List.filter_append]
    congr 1
    rw [List.filter_eq_self]
    intro m hm
    have hno := List.countP_eq_zero.mp hrest m hm
    simpa using hno
  · have hcount := List.length_eq_countP_add_countP (·.deleted) (l := front)
    have hfilter : (front.filter (!·.deleted)).length = front.countP fun m => ¬ m.deleted = true := by
      rw [← List.countP_eq_length_filter]
      congr 1
      funext m
      simp
    simp only [hfilter]
    omega

/-! ## The methods keep the numbers -/

/-- What is true while message `num` is at hand. -/
def Good (mails : List Mail) (num : Nat) (w : Mailbox) : Prop := Aligned mails num w ∧ Exact w

theorem good_fetch (h : Good mails num w) (hcount : num ≤ mails.length) :
    Good mails num (fetch num w).2 := ⟨h.1, h.1.exact h.2 (Nat.le_refl _) hcount⟩

theorem good_transact (h : Good mails num w) : Good mails num w.transact.2 := h

/-- A message is marked: the number is right, and if it is, the next one is at hand. -/
theorem good_store (h : Good mails num w) (hcount : num ≤ mails.length) (flags : Mail → Mail) :
    Exact (store num flags w).2 ∧ Good mails (num + 1) (store num flags w).2 ∧
      ((store num flags w).1 = .success → (∀ m, (flags m).deleted = true) →
        Good mails (num + 1)
          { (store num flags w).2 with deletions := (store num flags w).2.deletions + 1 }) := by
  have hexact := h.1.exact h.2 (Nat.le_refl _) hcount
  obtain ⟨hmark, hdelete⟩ := h.1.store hcount flags
  unfold store
  simp only [Mailbox.transact]
  by_cases hok : ((w.address num).replies (w.address num).commands).status = .success
  · simp only [hok, ne_eq, not_true_eq_false, if_false]
    exact ⟨hexact, ⟨hmark, hexact⟩, fun _ hall => ⟨hdelete hall, hexact⟩⟩
  · simp only [hok, ne_eq, not_false_eq_true, if_true]
    exact ⟨hexact, ⟨h.1.next hcount, hexact⟩, fun heq => by cases heq⟩

theorem internalExpunge_cases (w : Mailbox) :
    ((internalExpunge w).1 ≠ .success ∧ (internalExpunge w).2.addressed = w.addressed) ∨
      (w.deletions = 0 ∨ w.mails.countP (·.deleted) = w.deletions) ∧ internalExpunge w =
        (.success, { w with
          commands := w.commands + 1
          mails := w.mails.filter (!·.deleted)
          expunged := w.expunged + w.deletions
          deletions := 0 }) := by
  unfold internalExpunge Mailbox.transact
  by_cases hok : (w.replies w.commands).status = .success
  · by_cases hsame : 0 < w.deletions ∧ w.deletions ≠ w.mails.countP (·.deleted)
    · left
      simp [hok, hsame]
    · right
      refine ⟨by omega, ?_⟩
      simp [hok, hsame]
  · left
    simp [hok]

/-- An expunge that fails, or finds that another client deletes messages, ends the pass. -/
theorem good_expunge (h : Good mails num w) (hdel : 0 < w.deletions) :
    Exact (internalExpunge w).2 ∧
      ((internalExpunge w).1 = .success → Good mails num (internalExpunge w).2) := by
  rcases internalExpunge_cases w with ⟨hno, hsame⟩ | ⟨hcount, heq⟩
  · exact ⟨by rw [Exact, hsame]; exact h.2, fun hok => absurd hok hno⟩
  · have haligned : Aligned mails num { w with commands := w.commands + 1 } := h.1
    rw [heq]
    exact ⟨h.2, fun _ => ⟨haligned.expunge (hcount.resolve_left (Nat.ne_of_gt hdel)), h.2⟩⟩

theorem good_delete (h : Good mails num w) (hcount : num ≤ mails.length) :
    Exact (imapDelete num w).2 ∧
      ((imapDelete num w).1 = .success → Good mails (num + 1) (imapDelete num w).2) := by
  obtain ⟨hexact, -, hdeleted⟩ := good_store h hcount
    fun m => { m with seen := true, deleted := true }
  unfold imapDelete
  generalize store num (fun m => { m with seen := true, deleted := true }) w = r at *
  obtain ⟨ok, w'⟩ := r
  simp only
  split
  · next hno => exact ⟨hexact, fun hok => absurd hok hno⟩
  · next hok =>
    have hgood := hdeleted (not_ne_iff.mp hok) fun m => rfl
    split
    · exact good_expunge hgood (Nat.succ_pos _)
    · exact ⟨hexact, fun _ => hgood⟩

/-! ## Sizes -/

theorem foldl_set_getElem? (value : Nat → Option Int) (k : Nat) (sizes : List Int) {j : Nat}
    {v : Int} (hj : j < k) (hv : value j = some v) (hlen : j < sizes.length) :
    (((List.range k).filterMap fun i => (value i).map fun v => (i, v)).foldl
      (fun sizes r => sizes.set r.1 r.2) sizes)[j]? = some v := by
  have hlength : ∀ (rs : List (Nat × Int)) (sizes : List Int),
      (rs.foldl (fun sizes r => sizes.set r.1 r.2) sizes).length = sizes.length := by
    intro rs
    induction rs with
    | nil => exact fun _ => rfl
    | cons r rs ih => exact fun sizes => by rw [List.foldl_cons, ih, List.length_set]
  induction k with
  | zero => omega
  | succ k ih =>
    rw [List.range_succ, List.filterMap_append, List.foldl_append]
    rcases Nat.lt_succ_iff_lt_or_eq.mp hj with hlt | rfl
    · cases hk : value k with
      | none => simpa [hk] using ih hlt
      | some u => simpa [hk, Nat.ne_of_gt hlt] using ih hlt
    · simp [hv, hlength, hlen]

/-- The requests that are sent for several messages at once. -/
theorem good_addresses (h : Good mails num w) {first : Nat} (hfirst : num ≤ first) (len : Nat)
    (hlen : first + len ≤ mails.length + 1) :
    Good mails num ((List.range len).foldl (fun w i => w.address (first + i)) w) := by
  induction len with
  | zero => exact h
  | succ len ih =>
    have hgood := ih (by omega)
    rw [List.range_succ, List.foldl_append]
    exact ⟨hgood.1.address (first + len), hgood.1.exact hgood.2 (by omega) (by omega)⟩

/-- **A window of sizes.** The numbers are right, and so is every size. -/
theorem good_getpartialsizes (h : Good mails num w) {first last : Nat} (hfirst : num ≤ first)
    (hle : first ≤ last) (hlast : last ≤ mails.length) {sizes : List Int}
    (hroom : last < first + sizes.length) :
    Good mails num (imapGetpartialsizes first last sizes w).2 ∧
      ∀ n, first ≤ n → n ≤ last →
        (imapGetpartialsizes first last sizes w).1.2[n - first]? = recordedSize asInt mails n := by
  have hne : ¬ w.seq last < w.seq first := by
    unfold Mailbox.seq
    omega
  have hlen : (w.seq last - w.seq first).toNat + 1 = last - first + 1 := by
    unfold Mailbox.seq
    omega
  unfold imapGetpartialsizes
  rw [if_neg hne]
  simp only [hlen]
  constructor
  · exact good_transact (good_addresses h hfirst _ (by omega))
  · intro n hn hnl
    obtain ⟨m, hm, -, hsize⟩ := h.1.mail (Nat.le_trans hfirst hn) (Nat.le_trans hnl hlast)
    -- the numbers of the server are shifted by the messages expunged so far
    have hseq : w.seq first + ((n - first : Nat) : Int) = w.seq n := by
      unfold Mailbox.seq
      omega
    have hvalue : ((w.mail (w.seq first + ((n - first : Nat) : Int))).map fun m => asInt m.size) =
        some (asInt m.size) := by
      rw [hseq, hm]
      rfl
    -- the responses are stored one by one, and none of them is stored twice
    have hset := foldl_set_getElem?
      (fun i : Nat => (w.mail (w.seq first + (i : Int))).map fun m => asInt m.size)
      (last - first + 1) sizes (by omega) hvalue (by omega)
    rw [recordedSize]
    cases hat : mails[n - 1]? with
    | none => rw [hat] at hsize; cases hsize
    | some m' =>
      have hsame : m.size = m'.size := by
        rw [hat] at hsize
        exact Option.some.inj hsize
      rw [Option.map_some, ← hsame]
      simpa only [sizeResponses, Option.map_map, Function.comp_def] using hset

/-- All sizes, while no message has been looked at. -/
theorem good_getsizes (h : Good mails 1 w) :
    Good mails 1 (imapGetsizes mails.length (List.replicate mails.length 0) w).2 ∧
      ∀ n, 1 ≤ n → n ≤ mails.length →
        (imapGetsizes mails.length (List.replicate mails.length 0) w).1.2[n - 1]? =
          recordedSize asInt mails n := by
  unfold imapGetsizes
  rcases Nat.eq_zero_or_pos mails.length with hnone | hsome
  · constructor
    · unfold imapGetpartialsizes
      rw [if_pos (by unfold Mailbox.seq; omega)]
      exact h
    · intro n hn hle
      omega
  · refine good_getpartialsizes h (Nat.le_refl _) hsome (Nat.le_refl _) ?_
    rw [List.length_replicate]
    omega

/-! ## The loop -/

variable {τ : Type} {s : Mailbox × τ}

theorem imap_judgeRule (t : Transact τ) (num : Nat) (hnum : num ≤ mails.length) :
    JudgeRule imap (besideImap t) mails.length num (fun s => Good mails num s.1)
      (fun _ s => Good mails num s.1) (fun _ s => Good mails num s.1) (fun s => Exact s.1)
      (Sized asInt mails) where
  plain := fun e he => by cases e <;> trivial
  leave := fun _ h => h.2
  leaveBody := fun _ _ h => h.2
  old := fun _ h => h
  toolarge := fun _ _ h => h
  isOld := by
    rintro f hf s h
    cases hf
    exact h
  getpartialsizes := by
    intro f hf last sizes s hle hlast hroom h
    cases hf
    -- the sizes are asked for within the window, where numbers and messages agree
    obtain ⟨hgood, hsizes⟩ := good_getpartialsizes h (Nat.le_refl _) hle hlast hroom
    exact ⟨hgood.2, fun _ => hsizes, fun _ => hgood⟩
  fetchHeaders := fun s h => good_fetch h hnum
  readheaders := fun _ _ _ _ h => ⟨h.2, fun _ _ => h⟩
  trail := by
    intro g hg f s h
    cases hg
    exact good_transact h
  fetchBody := by
    intro g hg f s h
    cases hg
    exact good_fetch h hnum
  readbody := fun _ _ _ h => h
  closeSink := fun _ _ h => h

/-- The message at hand is deleted, marked, or left alone. -/
theorem dispose_good (c : Ctl) (f : Flags) (l : Loop) (hnum : num ≤ mails.length)
    (h : Good mails num s.1) :
    (dispose c imap num f l).wp (fun r s' tr => (∀ e ∈ tr, Sized asInt mails e) ∧ Exact s'.1 ∧
      (r.1 = .success → Good mails (num + 1) s'.1)) s := by
  have hnext : Good mails (num + 1) s.1 := ⟨h.1.next hnum, h.2⟩
  have hmark : (maybeMarkSeen c imap num f).wp (fun err s' tr => (∀ e ∈ tr, Sized asInt mails e) ∧
      Exact s'.1 ∧ (err = .success → Good mails (num + 1) s'.1)) s := by
    obtain ⟨hexact, hgood, -⟩ := good_store h hnum fun m => { m with seen := true }
    simp only [maybeMarkSeen, imap, Act.wp_ite, Act.wp_bind, Act.wp_lift, Act.wp_emit, Act.wp_pure]
    refine ⟨fun _ => ⟨?_, hexact, fun _ => hgood⟩, fun _ => ⟨?_, h.2, fun _ => hnext⟩⟩
    · simp [Sized]
    · simp
  unfold dispose
  split
  · exact ⟨by simp, h.2, fun _ => hnext⟩
  · obtain ⟨hexact, hgood⟩ := good_delete h hnum
    simp only [imap, Act.wp_ite, Act.wp_bind, Act.wp_lift, Act.wp_emit, Act.wp_pure,
      List.append_nil]
    refine ⟨fun _ => ⟨?_, hexact, hgood⟩, fun _ => hmark⟩
    simp [Sized]

/-- One message. -/
theorem fetchMessage_good (c : Ctl) (t : Transact τ) (maxfetch : Int) (l : Loop)
    (hnum : num ≤ mails.length) (h : Good mails num s.1) :
    (fetchMessage c imap (besideImap t) maxfetch mails.length num l).wp
      (fun next s' tr => (∀ e ∈ tr, Sized asInt mails e) ∧ Exact s'.1 ∧
        ∀ l', next = .nextMessage l' → Good mails (num + 1) s'.1) s := by
  unfold fetchMessage
  rw [Act.wp_bind]
  refine Act.wp_mono (judge_rule (imap_judgeRule t num hnum) l hnum h) fun next s₁ tr₁ h₁ => ?_
  obtain ⟨hsized, hpost⟩ := h₁
  cases next with
  | nextMessage l' =>
    exact ⟨by simpa using hsized, hpost.2, fun _ _ => ⟨hpost.1.next hnum, hpost.2⟩⟩
  | leave err l' => exact ⟨by simpa using hsized, hpost, fun _ heq => by cases heq⟩
  | flagthemail f l' =>
    dsimp only
    unfold flagthemail
    rw [Act.wp_bind]
    refine Act.wp_mono (dispose_good c (c.softbounceFlags f) l' hnum hpost) fun r s₂ tr₂ h₂ => ?_
    obtain ⟨err, l''⟩ := r
    obtain ⟨hsized₂, hexact, hgood⟩ := h₂
    have hall := List.forall_mem_append.mpr ⟨hsized, hsized₂⟩
    simp only [Act.wp_ite, Act.wp_pure, List.append_nil]
    refine ⟨fun _ => ⟨hall, hexact, fun _ heq => by cases heq⟩, fun hok => ⟨fun _ =>
      ⟨hall, hexact, fun _ heq => by cases heq⟩, fun _ => ⟨hall, hexact, fun _ _ => ?_⟩⟩⟩
    exact hgood (not_ne_iff.mp hok)

/-- A pass over the mailbox, by induction over the messages. -/
theorem fetchMessages_good (c : Ctl) (t : Transact τ) (maxfetch : Int) (l : Loop)
    (h : Good mails 1 s.1) :
    (fetchMessages c imap (besideImap t) maxfetch mails.length l).wp
      (fun _ s' tr => (∀ e ∈ tr, Sized asInt mails e) ∧ Exact s'.1) s := by
  unfold fetchMessages
  refine fetchFrom_rule
    (fun num (s : Mailbox × τ) tr => (∀ e ∈ tr, Sized asInt mails e) ∧ Good mails num s.1)
    (fun (s : Mailbox × τ) tr => (∀ e ∈ tr, Sized asInt mails e) ∧ Exact s.1) [] (by omega) ?_
    (fun _ _ h => ⟨h.1, h.2.2⟩) ⟨by simp, h⟩
  intro num l s tr hnum hI
  refine Act.wp_mono (fetchMessage_good c t maxfetch l hnum hI.2) fun next s₁ tr₁ h₁ => ?_
  have hall := List.forall_mem_append.mpr ⟨hI.1, h₁.1⟩
  cases next with
  | nextMessage l' => exact ⟨hall, h₁.2.2 l' rfl⟩
  | leave err l' => exact ⟨hall, h₁.2.1⟩
  | flagthemail f l' => exact ⟨hall, h₁.2.1⟩

end

/-- **Message numbers survive expunges.** Every number that is sent for a message of the loop is
that of the message which had this index when the mailbox was selected, whatever the loop decides
and wherever it ends; and the sizes are recorded with the messages they are of. -/
theorem pass_exact {τ : Type} (mails : List Mail) (replies : Nat → Reply) (expungePeriod : Int)
    (unseenMessages : List Nat) (c : Ctl) (t : Transact τ) (maxfetch : Int) (l : Loop) (x : τ) :
    (pass c t maxfetch mails.length l).wp
      (fun _ s' tr => (∀ e ∈ tr, Sized asInt mails e) ∧ Exact s'.1)
      (selected mails replies expungePeriod unseenMessages, x) := by
  have hstart : Good mails 1 (selected mails replies expungePeriod unseenMessages) :=
    ⟨aligned_selected replies expungePeriod unseenMessages, fun a ha => by cases ha⟩
  unfold pass
  split
  · exact fetchMessages_good c t maxfetch l hstart
  · have hsizes := good_getsizes hstart
    simp only [Act.wp_bind, Act.wp_lift, Act.wp_emit, Act.wp_ite, Act.wp_pure, List.nil_append,
      List.append_nil]
    have hsized : Sized asInt mails (.getpartialsizes 1 mails.length
        (imapGetsizes mails.length (List.replicate mails.length 0)
          (selected mails replies expungePeriod unseenMessages)).1.1
        (imapGetsizes mails.length (List.replicate mails.length 0)
          (selected mails replies expungePeriod unseenMessages)).1.2) := fun _ => hsizes.2
    have hfirst := List.forall_mem_singleton.mpr hsized
    refine ⟨fun _ => ⟨hfirst, hsizes.1.2⟩, fun _ => ?_⟩
    -- the loop goes on with the mailbox as the request has left it
    apply Act.wp_mono (fetchMessages_good c t maxfetch _ hsizes.1)
    intro _ s₁ tr₁ h₁
    exact ⟨List.forall_mem_append.mpr ⟨hfirst, h₁.1⟩, h₁.2⟩

/-- A message of two gigabytes. -/
def large : List Mail := [⟨1, 2 ^ 31, false, false⟩]

/-- Nothing is read or delivered. -/
def noTransact : Transact Unit where
  readheaders _ _ _ _ s := (⟨.success, false, 0⟩, s)
  readbody _ _ s := (.success, s)
  closeSink _ s := (true, s)

/-- All sizes at the start, and a negative one. -/
theorem large_negative :
    ¬ (pass ⟨.imap, false, false, true, 0, false, 0, 0, false, true⟩ noTransact 0 large.length
        ⟨1, 0, none, 0, 0, 0, 0, 0⟩).wp
      (fun _ s' tr => (∀ e ∈ tr, Sized (fun size => size) large e) ∧ Exact s'.1)
      (selected large (fun _ => ⟨.success, 0⟩) 1 [], ()) := by
  intro h
  have hmem : Call.getpartialsizes 1 1 .success [-2 ^ 31] ∈
      ((pass ⟨.imap, false, false, true, 0, false, 0, 0, false, true⟩ noTransact 0 large.length
        ⟨1, 0, none, 0, 0, 0, 0, 0⟩).run
          (selected large (fun _ => ⟨.success, 0⟩) 1 [], ())).trace := by decide
  have hsize : [(-2 ^ 31 : Int)][0]? = some ((2 ^ 31 : Nat) : Int) :=
    h.1 _ hmem rfl 1 (Nat.le_refl _) (Nat.le_refl _)
  exact absurd hsize (by decide)

end Fetchmail.Imap.Numbering
