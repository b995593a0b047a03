import Fetchmail.Driver.MailSafety
import Fetchmail.Imap.LineBounds

/-!
# The Array of Sizes

Where the array of message sizes is written and read. The methods `getpartialsizes` and `getsizes`
of `imap.c` and `pop3.c` are modelled over arbitrary replies, each with the writes that it makes;
the loop of `fetch_messages` reads one entry for each message whose size it wants to know.
-/

namespace Fetchmail.Driver

open Fetchmail.Lib Fetchmail.Imap

/-! ## Writes -/

/-- An assignment `sizes[index] = size`. -/
structure Write where
  index : Int
  size : Int
  deriving DecidableEq, Repr

/-- The array after a write. One outside it changes nothing here. -/
def Write.apply (w : Write) (sizes : List Int) : List Int :=
  if w.index < 0 then sizes else sizes.set w.index.toNat w.size

/-- The array after a sequence of writes. -/
def applyAll (writes : List Write) (sizes : List Int) : List Int :=
  writes.foldl (fun sizes w => w.apply sizes) sizes

/-- All writes go to an array of length `n`. -/
def InBounds (n : Nat) (writes : List Write) : Prop :=
  ∀ w ∈ writes, 0 ≤ w.index ∧ w.index < n

/-- `%u` of `sscanf`, and what follows. -/
def scanUnsigned (s : Bytes) : Option (Nat × Bytes) :=
  match Bytes.strtoul s with
  | .noNumber => none
  | .tooLarge rest => some (2 ^ 32 - 1, rest)
  | .number n rest => some (n % 2 ^ 32, rest)

/-- An `unsigned` stored in an `int`. -/
def toInt (n : Nat) : Int := (n : Int).bmod (2 ^ 32)

/-! ## IMAP -/

/-- A response with a size: the number of the message, and the size. -/
def imapSizeLine (buf : Bytes) : Option (Int × Nat) :=
  match scanFetch buf with
  | none => none
  | some (num, consumed) =>
    if Bytes.startsWithCI (buf.drop consumed) (Bytes.lit "FETCH") &&
        Bytes.isspace (Bytes.charAt buf (consumed + 5)) then
      match Bytes.findSub (Bytes.lit "RFC822.SIZE ") buf with
      | none => none
      | some ptr => (scanUnsigned (buf.drop (ptr + 11))).map fun size => (num, size.1)
    else none

/-- What one untagged response writes. A number that was not asked for is ignored. -/
def imapSizeWrite (first last : Int) (buf : Bytes) : List Write :=
  match imapSizeLine buf with
  | none => []
  | some (num, size) =>
    if first ≤ num ∧ num ≤ last then [⟨num - first, toInt size⟩] else []

/-- `imap_getpartialsizes`. `fetchSizes` sends the command and yields the untagged responses and
the result of the last. -/
def imapPartialsizes {σ : Type} (expunged : σ → Nat)
    (fetchSizes : Int → Int → σ → (Ps × List Bytes) × σ) (first last : Nat) (s : σ) :
    (Ps × List Write) × σ :=
  -- expunges change the fetch numbers
  let first : Int := first - expunged s
  let last : Int := last - expunged s
  if last < first then ((.success, []), s)
  else
    let ((ok, responses), s) := fetchSizes first last s
    ((ok, responses.flatMap (imapSizeWrite first last)), s)

/-! ## POP3 -/

/-- `sscanf(buf, "%d %u", &num, &size) == 2` -/
def popSizeLine (buf : Bytes) : Option (Int × Nat) :=
  match Bytes.scanInt buf with
  | .int num rest => (scanUnsigned rest).map fun size => (num, size.1)
  | _ => none

/-- What the reply to `LIST i` writes. -/
def popSizeWrite (first i : Nat) (buf : Bytes) : List Write :=
  match popSizeLine buf with
  | none => []
  | some (num, size) => if num = i then [⟨i - first, toInt size⟩] else []

/-- `pop3_getpartialsizes`, for the `left` messages from number `i` on. -/
def pop3PartialsizesFrom {σ : Type} (list : Nat → σ → (Ps × Bytes) × σ) (first : Nat) :
    (left i : Nat) → σ → (Ps × List Write) × σ
  | 0, _, s => ((.success, []), s)
  | left + 1, i, s =>
    let ((ok, buf), s) := list i s
    if ok ≠ .success then ((ok, []), s)
    else
      let ((ok, writes), s) := pop3PartialsizesFrom list first left (i + 1) s
      ((ok, popSizeWrite first i buf ++ writes), s)

/-- `sscanf(buf, "%u %u", &num, &size) == 2` -/
def popListLine (buf : Bytes) : Option (Nat × Nat) :=
  match scanUnsigned buf with
  | none => none
  | some (num, rest) => (scanUnsigned rest).map fun size => (num, size.1)

/-- What a line of the reply to `LIST` writes. -/
def popListWrite (count : Nat) (buf : Bytes) : List Write :=
  match popListLine buf with
  | none => []
  | some (num, size) => if 0 < num ∧ num ≤ count then [⟨num - 1, toInt size⟩] else []

/-! ## The methods -/

/-- The size methods of a protocol, over arbitrary replies. -/
inductive SizeMethods (σ : Type) where
  /-- POP2, ETRN and ODMR have none -/
  | none
  /-- the replies to `LIST i`, and to `LIST` -/
  | pop3 (list : Nat → σ → (Ps × Bytes) × σ) (listAll : σ → (Ps × List Bytes) × σ)
  | imap (expunged : σ → Nat) (fetchSizes : Int → Int → σ → (Ps × List Bytes) × σ)

/-- `getpartialsizes`, where there is one, with its writes. -/
def SizeMethods.partialsizes {σ : Type} :
    SizeMethods σ → Option (Nat → Nat → σ → (Ps × List Write) × σ)
  | .none => Option.none
  | .pop3 list _ => some fun first last s =>
    pop3PartialsizesFrom list first (last + 1 - first) first s
  | .imap expunged fetchSizes => some (imapPartialsizes expunged fetchSizes)

/-- `getsizes`, where there is one, with its writes. -/
def SizeMethods.allsizes {σ : Type} :
    SizeMethods σ → Option (Nat → σ → (Ps × List Write) × σ)
  | .none => Option.none
  | .pop3 _ listAll => some fun count s =>
    let ((ok, lines), s) := listAll s
    ((ok, lines.flatMap (popListWrite count)), s)
  | .imap expunged fetchSizes => some (imapPartialsizes expunged fetchSizes 1)

/-- A method table with these size methods. -/
def SizeMethods.install {σ : Type} (p : SizeMethods σ) (m : Method σ) : Method σ :=
  { m with
    getpartialsizes := p.partialsizes.map fun f first last sizes s =>
      (((f first last s).1.1, applyAll (f first last s).1.2 sizes), (f first last s).2) }

/-- The array that `do_session` hands to `fetch_messages`, which is allocated for the number of
messages: the state after it was filled, the writes and the array. -/
def SizeMethods.atStart {σ : Type} (p : SizeMethods σ) (c : Ctl) (count : Nat) (s : σ) :
    List Write × Option (List Int) × σ :=
  match p.allsizes with
  | Option.none => ([], Option.none, s)
  | some getsizes =>
    if p.partialsizes.isSome && numNonzero c.fetchsizelimit then ([], Option.none, s)
    else
      let ((_, writes), s) := getsizes count s
      (writes, some (applyAll writes (List.replicate count 0)), s)

/-! ## Writes stay inside -/

theorem InBounds.append {n : Nat} {ws ws' : List Write} (h : InBounds n ws) (h' : InBounds n ws') :
    InBounds n (ws ++ ws') := by
  intro w hw
  exact (List.mem_append.mp hw).elim (h w) (h' w)

theorem InBounds.mono {n n' : Nat} {ws : List Write} (h : InBounds n ws) (hn : n ≤ n') :
    InBounds n' ws := by
  intro w hw
  obtain ⟨hlow, hhigh⟩ := h w hw
  exact ⟨hlow, by omega⟩

@[simp]
theorem length_applyAll (ws : List Write) (sizes : List Int) :
    (applyAll ws sizes).length = sizes.length := by
  induction ws generalizing sizes with
  | nil => rfl
  | cons w ws ih =>
    have hone : (w.apply sizes).length = sizes.length := by
      unfold Write.apply
      split
      · rfl
      · exact List.length_set
    rw [applyAll, List.foldl_cons]
    exact (ih (w.apply sizes)).trans hone

section

variable {σ : Type}

theorem imapPartialsizes_inBounds (expunged : σ → Nat)
    (fetchSizes : Int → Int → σ → (Ps × List Bytes) × σ) (first last : Nat) (s : σ) :
    InBounds (last + 1 - first) (imapPartialsizes expunged fetchSizes first last s).1.2 := by
  unfold imapPartialsizes
  dsimp only
  split
  · intro w hw
    simp at hw
  · intro w hw
    obtain ⟨buf, -, hw⟩ := List.mem_flatMap.mp hw
    unfold imapSizeWrite at hw
    split at hw
    · simp at hw
    · split at hw
      · obtain rfl := List.mem_singleton.mp hw
        dsimp only
        omega
      · simp at hw

theorem pop3PartialsizesFrom_inBounds (list : Nat → σ → (Ps × Bytes) × σ) (first left i : Nat)
    (s : σ) (hi : first ≤ i) :
    InBounds (i + left - first) (pop3PartialsizesFrom list first left i s).1.2 := by
  induction left generalizing i s with
  | zero =>
    intro w hw
    simp [pop3PartialsizesFrom] at hw
  | succ left ih =>
    unfold pop3PartialsizesFrom
    dsimp only
    split
    · intro w hw
      simp at hw
    -- the answer for one message writes one size at most, at its own index
    · apply InBounds.append
      · intro w hw
        unfold popSizeWrite at hw
        split at hw
        · simp at hw
        · split at hw
          · obtain rfl := List.mem_singleton.mp hw
            dsimp only
            omega
          · simp at hw
      · exact (ih (i + 1) _ (by omega)).mono (by omega)

/-- **The writes of `getpartialsizes`** go to the entries of the messages that are asked for. -/
theorem partialsizes_inBounds {p : SizeMethods σ} {f : Nat → Nat → σ → (Ps × List Write) × σ}
    (hf : p.partialsizes = some f) (first last : Nat) (s : σ) :
    InBounds (last + 1 - first) (f first last s).1.2 := by
  cases p with
  | none => cases hf
  | pop3 list listAll =>
    obtain rfl := Option.some.inj hf
    exact (pop3PartialsizesFrom_inBounds list first _ first s (Nat.le_refl _)).mono (by omega)
  | imap expunged fetchSizes =>
    obtain rfl := Option.some.inj hf
    exact imapPartialsizes_inBounds expunged fetchSizes first last s

/-- **The writes of `getsizes`** go to the entries of messages of the mailbox. -/
theorem allsizes_inBounds {p : SizeMethods σ} {f : Nat → σ → (Ps × List Write) × σ}
    (hf : p.allsizes = some f) (count : Nat) (s : σ) : InBounds count (f count s).1.2 := by
  cases p with
  | none => cases hf
  | pop3 list listAll =>
    obtain rfl := Option.some.inj hf
    intro w hw
    obtain ⟨buf, -, hw⟩ := List.mem_flatMap.mp hw
    unfold popListWrite at hw
    split at hw
    · simp at hw
    · split at hw
      · obtain rfl := List.mem_singleton.mp hw
        dsimp only
        omega
      · simp at hw
  | imap expunged fetchSizes =>
    obtain rfl := Option.some.inj hf
    exact imapPartialsizes_inBounds expunged fetchSizes 1 count s

end

/-! ## The window -/

section

variable {σ : Type} {p : SizeMethods σ} {c : Ctl} {m : Method σ} {t : Transact σ}
  {sizes₀ : Option (List Int)} {maxfetch : Int} {count num : Nat} {l : Loop} {s : σ}

/-- The array holds what the size command for the messages `firstnum` to `lastnum` wrote to an
array of zeros. -/
def Current (p : SizeMethods σ) (c : Ctl) (l : Loop) : Prop :=
  l.lastnum + 1 ≤ l.firstnum + c.sizeLimit ∧ ∃ f s, p.partialsizes = some f ∧
    l.msgsizes = some (applyAll (f l.firstnum l.lastnum s).1.2 (List.replicate c.sizeLimit 0))

/-- The array before message `num`: a window that may have been used up, or all sizes. -/
def Windowed (p : SizeMethods σ) (c : Ctl) (sizes₀ : Option (List Int)) (num : Nat) (l : Loop) :
    Prop :=
  if p.partialsizes.isSome && numNonzero c.fetchsizelimit then
    l.lastnum < num ∨ l.firstnum ≤ num ∧ Current p c l
  else l.firstnum = 1 ∧ l.msgsizes = sizes₀

/-- The array when the size of message `num` is read. -/
def Covers (p : SizeMethods σ) (c : Ctl) (sizes₀ : Option (List Int)) (num : Nat) (l : Loop) :
    Prop :=
  if p.partialsizes.isSome && numNonzero c.fetchsizelimit then
    l.firstnum ≤ num ∧ num ≤ l.lastnum ∧ Current p c l
  else l.firstnum = 1 ∧ l.msgsizes = sizes₀

theorem Windowed.sameWindow {l' : Loop} (h : Windowed p c sizes₀ num l) (hl : l.SameWindow l') :
    Windowed p c sizes₀ num l' := by
  obtain ⟨hfirst, hlast, hsizes⟩ := hl
  unfold Windowed Current at *
  rwa [hfirst, hlast, hsizes]

theorem Windowed.next (h : Windowed p c sizes₀ num l) : Windowed p c sizes₀ (num + 1) l := by
  unfold Windowed at *
  split
  · rw [if_pos ‹_›] at h
    exact h.imp Nat.lt_succ_of_lt fun h => ⟨Nat.le_succ_of_le h.1, h.2⟩
  · rwa [if_neg ‹_›] at h

theorem Covers.windowed (h : Covers p c sizes₀ num l) : Windowed p c sizes₀ num l := by
  unfold Covers at h
  unfold Windowed
  split
  · rw [if_pos ‹_›] at h
    exact .inr ⟨h.1, h.2.2⟩
  · rwa [if_neg ‹_›] at h

/-- After `getSizes` the array covers the message. -/
theorem getSizes_covers (hnum : num ≤ count) (h : Windowed p c sizes₀ num l) :
    (getSizes c (p.install m) count num l).wp
      (fun r _ _ => ∀ l', r = .ok l' → Covers p c sizes₀ num l') s := by
  unfold getSizes
  cases hf : p.partialsizes with
  | none =>
    have hnone : (p.install m).getpartialsizes = none := by simp [SizeMethods.install, hf]
    rw [hnone]
    rintro l' ⟨⟩
    simp only [Windowed, Covers, hf, Option.isSome_none, Bool.false_and, Bool.false_eq_true,
      if_false] at h ⊢
    exact h
  | some f =>
    have hsome : (p.install m).getpartialsizes = some fun first last sizes s =>
        (((f first last s).1.1, applyAll (f first last s).1.2 sizes), (f first last s).2) := by
      simp [SizeMethods.install, hf]
    rw [hsome]
    by_cases hlim : 0 < c.fetchsizelimit
    · have hone := one_le_sizeLimit hlim
      have hwindows : (p.partialsizes.isSome && numNonzero c.fetchsizelimit) = true := by
        simp [hf, hlim]
      simp only [Act.wp_ite, Act.wp_bind, Act.wp_lift, Act.wp_emit, Act.wp_pure]
      -- a new window is fetched, or the old one still covers the message
      constructor
      · intro _ l' hr
        split at hr
        · obtain rfl := Except.ok.inj hr
          simp only [Covers, hwindows, if_true]
          exact ⟨Nat.le_refl _, by omega, by dsimp only; omega, f, s, hf, rfl⟩
        · cases hr
      · intro hcover l' hr
        obtain rfl := Except.ok.inj hr
        simp only [Bool.and_eq_true, numNonzero_iff, hlim, true_and, decide_eq_true_eq,
          Nat.not_lt] at hcover
        simp only [Windowed, Covers, hwindows, if_true] at h ⊢
        obtain hpast | ⟨hfirst, hcurrent⟩ := h
        · omega
        · exact ⟨hfirst, hcover, hcurrent⟩
    · have hwindows : (p.partialsizes.isSome && numNonzero c.fetchsizelimit) = false := by
        simp [numNonzero, hlim]
      simp only [numNonzero_iff, hlim, Bool.and_eq_true, false_and, if_false, Act.wp_pure]
      rintro l' ⟨⟩
      simp only [Windowed, Covers, hwindows, Bool.false_eq_true, if_false] at h ⊢
      exact h

/-- An entry that is read lies in the array. -/
theorem Covers.inBounds (h : Covers p c sizes₀ num l) (hnum : num ≤ count) (hpos : 1 ≤ num)
    (hsizes₀ : ∀ sizes, sizes₀ = some sizes → sizes.length = count) {sizes : List Int}
    (hsizes : l.msgsizes = some sizes) : l.firstnum ≤ num ∧ num - l.firstnum < sizes.length := by
  unfold Covers at h
  split at h
  · obtain ⟨hfirst, hlast, hlimit, f, s, -, hcurrent⟩ := h
    rw [hcurrent] at hsizes
    obtain rfl := Option.some.inj hsizes
    rw [length_applyAll, List.length_replicate]
    exact ⟨hfirst, by omega⟩
  · obtain ⟨hfirst, hall⟩ := h
    rw [hsizes₀ sizes (hall ▸ hsizes), hfirst]
    exact ⟨hpos, by omega⟩

/-- The rest of the loop body leaves the array alone. -/
theorem flagthemail_sameWindow {f : Flags} :
    (flagthemail c m maxfetch count num f l).wp (fun next _ _ => l.SameWindow next.loop) s := by
  have hdispose : ∀ f, (dispose c m num f l).wp (fun r _ _ => l.SameWindow r.2) s := by
    intro f
    have hsame : l.SameWindow l := ⟨rfl, rfl, rfl⟩
    unfold dispose
    split
    · exact hsame
    · split
      · exact hsame
      · simp only [Act.wp_ite, Act.wp_bind, Act.wp_lift, Act.wp_emit, Act.wp_pure]
        exact ⟨fun _ => ⟨rfl, rfl, rfl⟩, fun _ => hsame⟩
  unfold flagthemail
  rw [Act.wp_bind]
  refine Act.wp_mono (hdispose _) fun r s' tr h => ?_
  simp only [Act.wp_ite, Act.wp_pure]
  exact ⟨fun _ => h, fun _ => ⟨fun _ => h, fun _ => h⟩⟩

theorem judge_windowed (hnum : num ≤ count) (h : Windowed p c sizes₀ num l) :
    (judge c (p.install m) t count num l).wp
      (fun next _ _ => (∃ err l', next = .leave err l') ∨ Windowed p c sizes₀ num next.loop) s := by
  unfold judge
  rw [Act.wp_bind]
  refine Act.wp_mono (checkOld_spec num) fun old s₁ tr₁ _ => ?_
  simp only [Act.wp_ite, Act.wp_pure, Act.wp_bind]
  refine ⟨fun _ => .inr h, fun _ => ?_⟩
  refine Act.wp_mono (getSizes_covers hnum h) fun r s₂ tr₂ h₂ => ?_
  cases r with
  | error err => exact .inl ⟨err, l, rfl⟩
  | ok l' =>
    have hwindowed := (h₂ l' rfl).windowed
    simp only [Act.wp_ite, Act.wp_pure]
    refine ⟨fun _ => .inr hwindowed, fun _ => ?_⟩
    refine Act.wp_mono (retrieve_spec c (p.install m) t none [] num _ l') fun next s₃ tr₃ h₃ => ?_
    exact .inr (hwindowed.sameWindow h₃.2.1)

/-- **Step.** What is known of the array before a message is known before the next. -/
theorem fetchMessage_windowed (hnum : num ≤ count) (h : Windowed p c sizes₀ num l) :
    (fetchMessage c (p.install m) t maxfetch count num l).wp
      (fun next _ _ => ∀ l', next = .nextMessage l' → Windowed p c sizes₀ (num + 1) l') s := by
  unfold fetchMessage
  rw [Act.wp_bind]
  refine Act.wp_mono (judge_windowed hnum h) fun next s' tr hnext => ?_
  cases next with
  | nextMessage l' =>
    rintro l'' ⟨⟩
    obtain ⟨err, l₁, hleave⟩ | hwindowed := hnext
    · cases hleave
    · exact hwindowed.next
  | leave err l' =>
    rintro l'' ⟨⟩
  | flagthemail f l' =>
    obtain ⟨err, l₁, hleave⟩ | hwindowed := hnext
    · cases hleave
    · refine Act.wp_mono flagthemail_sameWindow fun next s'' tr' hsame => ?_
      rintro l'' rfl
      exact (hwindowed.sameWindow hsame).next

/-! ## Whole runs -/

/-- The state in which `fetch_messages` comes to a message: its number, the variables of the loop
and the state of the world. -/
inductive Reached (c : Ctl) (m : Method σ) (t : Transact σ) (maxfetch : Int) (count : Nat)
    (l₀ : Loop) (s₀ : σ) : Nat → Loop → σ → Prop
  | start : Reached c m t maxfetch count l₀ s₀ 1 l₀ s₀
  | next {num : Nat} {l l' : Loop} {s : σ} (h : Reached c m t maxfetch count l₀ s₀ num l s)
      (hnum : num ≤ count)
      (hnext : ((fetchMessage c m t maxfetch count num l).run s).val = .nextMessage l') :
      Reached c m t maxfetch count l₀ s₀ (num + 1) l'
        ((fetchMessage c m t maxfetch count num l).run s).state

/-- The variables of the loop where `fetch_messages` begins it. -/
def startLoop (c : Ctl) (m : Method σ) (msgsizes : Option (List Int)) (l : Loop) : Loop :=
  { l with
    firstnum := 1
    lastnum := 0
    msgsizes := if partialSizes c m then some (List.replicate c.sizeLimit 0) else msgsizes
    errcount := c.errcount }

theorem partialSizes_install :
    partialSizes c (p.install m) = (p.partialsizes.isSome && numNonzero c.fetchsizelimit) := by
  simp [partialSizes, SizeMethods.install]

/-- **Run.** -/
theorem Reached.windowed {l₀ : Loop} {s₀ : σ}
    (h : Reached c (p.install m) t maxfetch count (startLoop c (p.install m) sizes₀ l₀) s₀ num l
      s) :
    1 ≤ num ∧ Windowed p c sizes₀ num l := by
  induction h with
  | start =>
    refine ⟨Nat.le_refl 1, ?_⟩
    unfold Windowed startLoop
    rw [partialSizes_install]
    split
    · exact .inl Nat.one_pos
    · exact ⟨rfl, rfl⟩
  | next h hnum hnext ih =>
    exact ⟨by omega, fetchMessage_windowed hnum ih.2 _ hnext⟩

/-- The size of message `num` is looked at, with the variables `l'` of the loop. -/
def LooksUp (c : Ctl) (m : Method σ) (count num : Nat) (l : Loop) (s : σ) (l' : Loop) : Prop :=
  ((checkOld c m num).run s).val = false ∧
    ((getSizes c m count num l).run ((checkOld c m num).run s).state).val = .ok l'

/-- **Accesses to the array of sizes.** All writes of `getsizes` go to an array with an entry for
each message, and all writes of `getpartialsizes` to an array of `fetchsizelimit` entries. Wherever
the loop reads a size, its index lies in the array; the entry is one that the last size command
wrote, or zero. -/
theorem sizes_inBounds (p : SizeMethods σ) (c : Ctl) (m : Method σ) (t : Transact σ)
    (maxfetch : Int) (count : Nat) (l₀ : Loop) (s₀ : σ) :
    InBounds count (p.atStart c count s₀).1 ∧
    ∀ num l s, Reached c (p.install m) t maxfetch count
        (startLoop c (p.install m) (p.atStart c count s₀).2.1 l₀) (p.atStart c count s₀).2.2
        num l s →
      num ≤ count →
      (∀ f s', p.partialsizes = some f → 0 < c.fetchsizelimit →
        InBounds c.sizeLimit (f num (min (num + c.sizeLimit - 1) count) s').1.2) ∧
      ∀ l', LooksUp c (p.install m) count num l s l' →
        Covers p c (p.atStart c count s₀).2.1 num l' ∧
        ∀ sizes, l'.msgsizes = some sizes →
          l'.firstnum ≤ num ∧ num - l'.firstnum < sizes.length := by
  have hstart : InBounds count (p.atStart c count s₀).1 ∧
      ∀ sizes, (p.atStart c count s₀).2.1 = some sizes → sizes.length = count := by
    have hnone : InBounds count [] := fun w hw => absurd hw List.not_mem_nil
    unfold SizeMethods.atStart
    cases hf : p.allsizes with
    | none => exact ⟨hnone, fun _ h => nomatch h⟩
    | some f =>
      dsimp only
      split
      · exact ⟨hnone, fun _ h => nomatch h⟩
      · refine ⟨allsizes_inBounds hf count s₀, fun sizes h => ?_⟩
        rw [← Option.some.inj h, length_applyAll, List.length_replicate]
  -- what is asked for is in bounds at once, what is read by the invariant of the loop
  refine ⟨hstart.1, fun num l s hreached hnum => ⟨fun f s' hf hlim => ?_, fun l' hlook => ?_⟩⟩
  · have hone := one_le_sizeLimit hlim
    exact (partialsizes_inBounds hf _ _ s').mono (by omega)
  · obtain ⟨hpos, hwindowed⟩ := hreached.windowed
    have hcovers : Covers p c (p.atStart c count s₀).2.1 num l' :=
      getSizes_covers hnum hwindowed l' hlook.2
    exact ⟨hcovers, fun sizes hsizes => hcovers.inBounds hnum hpos hstart.2 hsizes⟩

end

end Fetchmail.Driver
