import Fetchmail.Pop3.Fastuidl

/-!
# The Binary Search Agrees with the List

The messages that are old come first in a mailbox from which nothing but old messages was
taken away. For such a mailbox the binary search of `pop3_fastuidl` leads to the same count of
new messages as the list of all UIDs, and to the same answers of `pop3_is_old`.
-/

namespace Fetchmail.Pop3

open Fetchmail.Lib Fetchmail.Transact Fetchmail.Uid

/-! ## A mailbox -/

/-- The UID of message `n`. -/
def uidAt (box : List Bytes) (n : Nat) : Bytes := box.getD (n - 1) []

/-- The entries of the UID list. -/
def listingOf (box : List Bytes) : List (Nat × Bytes) :=
  (List.range box.length).map fun i => (i + 1, uidAt box (i + 1))

theorem map_fst_listingOf (box : List Bytes) :
    (listingOf box).map Prod.fst = List.range' 1 box.length := by
  rw [listingOf, List.map_map, List.range'_eq_map_range]
  exact List.map_congr_left fun i _ => Nat.add_comm i 1

theorem getElem?_listingOf {box : List Bytes} {i : Nat} (h : i < box.length) :
    (listingOf box)[i]? = some (i + 1, uidAt box (i + 1)) := by
  simp [listingOf, h]

theorem uidAt_mem {box : List Bytes} {n : Nat} (hn : 1 ≤ n) (hn' : n ≤ box.length) :
    uidAt box n ∈ box := by
  have hlt : n - 1 < box.length := by omega
  rw [uidAt, List.getD_eq_getElem?_getD, List.getElem?_eq_getElem hlt]
  exact List.getElem_mem hlt

theorem map_snd_listingOf (box : List Bytes) : (listingOf box).map Prod.snd = box := by
  refine List.ext_getElem? fun i => ?_
  rcases Nat.lt_or_ge i box.length with hlt | hge
  · simp [getElem?_listingOf hlt, uidAt, List.getElem?_eq_getElem hlt]
  · rw [List.getElem?_eq_none hge, List.getElem?_eq_none (by simpa [listingOf] using hge)]

/-- An entry tells the UID of a message. -/
theorem mem_listingOf {box : List Bytes} {n : Nat} {id : Bytes} :
    (n, id) ∈ listingOf box ↔ 1 ≤ n ∧ n ≤ box.length ∧ id = uidAt box n := by
  constructor
  · intro h
    obtain ⟨i, hi, heq⟩ := List.mem_map.mp h
    have hi' := List.mem_range.mp hi
    cases heq
    exact ⟨by omega, by omega, rfl⟩
  · rintro ⟨hn, hn', rfl⟩
    refine List.mem_map.mpr ⟨n - 1, List.mem_range.mpr (by omega), ?_⟩
    rw [show n - 1 + 1 = n by omega]

/-- The session of a server with that mailbox: it knows `STAT` and both forms of `UIDL`. -/
structure Serves {ω : Type} (ctl : Ctl) (d : Dialogue Statics ω Command) (box : List Bytes) : Prop
    extends FullList ctl d box.length (listingOf box) where
  honest : Honest True box.length (uidAt box) d

/-- `pop3_is_old` for one message after the other. -/
def isOldAll {ω : Type} : List Nat → Session ω (List Bool)
  | [] => return []
  | n :: ns => do
    let old ← pop3IsOld n
    let olds ← isOldAll ns
    return old :: olds

section

variable {ω : Type} {count n : Nat} {uidOf : Nat → Bytes} {s₀ : Statics} {box : List Bytes}
  {I : Dialogue Statics ω Command → Prop} {ns : List Nat}

/-- Calls that keep an invariant and have a definite answer, by induction on their number. -/
theorem triple_isOldAll {answer : Nat → Bool}
    (h : ∀ n ∈ ns, Talk.Triple I (pop3IsOld n) (fun b d => I d ∧ b = answer n) fun _ => False) :
    Talk.Triple I (isOldAll ns : Session ω _) (fun bs d => I d ∧ bs = ns.map answer)
      fun _ => False := by
  induction ns with
  | nil => exact Talk.Triple.pure fun d hd => ⟨hd, rfl⟩
  | cons n ns ih =>
    unfold isOldAll
    refine Talk.Triple.bind (h n List.mem_cons_self) fun b => ?_
    by_cases hb : b = answer n
    · subst hb
      refine Talk.Triple.bind ((ih fun m hm => h m (List.mem_cons_of_mem _ hm)).mono
        (fun d hd => hd.1) (fun _ _ h => h) fun _ h => h) fun bs => ?_
      exact Talk.Triple.pure fun d hd => ⟨hd.1, by rw [hd.2, List.map_cons]⟩
    · exact fun d hd => absurd hd.2 hb

/-- A definite answer, read off the triple. -/
theorem val_isOldAll {answer : Nat → Bool} {d : Dialogue Statics ω Command}
    (h : ∀ n ∈ ns, Talk.Triple I (pop3IsOld n) (fun b d => I d ∧ b = answer n) fun _ => False)
    (hd : I d) : ((isOldAll ns : Session ω _).exec d).val = .ok (ns.map answer) := by
  have hall := triple_isOldAll h d hd
  cases hval : ((isOldAll ns : Session ω _).exec d).val with
  | error t => simp [hval] at hall
  | ok bs =>
    simp only [hval] at hall
    rw [hall.2]

/-! ## In the full mode -/

/-- Asking reads the index, and nothing else changes. -/
theorem state_pop3IsOld {d : Dialogue Statics ω Command} (hslow : d.statics.dofastuidl = false) :
    ∃ b, ((pop3IsOld n : Session ω Bool).exec d).state =
      { d with statics := { d.statics with outOfBounds := b } } := by
  by_cases hnone : d.statics.oldsaved.uidDbNRecords = 0
  · refine ⟨d.statics.outOfBounds, ?_⟩
    simp only [pop3IsOld, Talk.exec_bind, Talk.exec_gets, hnone, if_true, Talk.exec_pure]
  · refine ⟨d.statics.outOfBounds || !d.statics.newsaved.findInBounds n, ?_⟩
    simp only [pop3IsOld, Talk.exec_bind, Talk.exec_gets, hnone, hslow, Bool.false_eq_true, if_false,
      exec_state]
    cases hp : d.statics.newsaved.findUidByNum n with
    | none =>
      simp only [Statics.findNewNum, hp, hslow, Talk.exec_pure]
    | some p =>
      simp only [Statics.findNewNum, hp, hslow, Talk.exec_bind, Talk.exec_gets, Talk.exec_pure]

variable {flush : Bool} {listing : List (Nat × Bytes)} {newp : Int}

/-- **`pop3_is_old`** after the list. -/
theorem triple_pop3IsOld_full (hslow : s₀.dofastuidl = false) (hn : n ≤ count) {id : Bytes} {k : Nat}
    (hk : listing[k]? = some (n, id)) (hnodup : (listing.map Prod.fst).Nodup)
    {E : Dialogue Statics ω Command → Prop} :
    Talk.Triple (fun d => Listed flush s₀ count listing newp d.statics)
      (pop3IsOld n : Session ω Bool)
      (fun b d => Listed flush s₀ count listing newp d.statics ∧ b = decide (s₀.oldsaved.Old id))
      E := by
  intro d h
  have hslow' : d.statics.dofastuidl = false := by
    rw [h.rest]
    exact hslow
  obtain ⟨b, hstate⟩ := state_pop3IsOld (n := n) hslow'
  rw [h.isOld hslow hn hk hnodup rfl, hstate]
  refine ⟨⟨h.newRecords, h.oldMarks, h.newp, h.numbered, h.index, h.oldIndex, ?_⟩, rfl⟩
  show ({ d.statics with outOfBounds := b } : Statics) = _
  rw [h.rest]

/-! ## Old messages that come first -/

/-- The first `k` messages are old, and no others. -/
theorem countP_listingOf {old : Bytes → Prop} [DecidablePred old] {k : Nat}
    (hold_iff : ∀ i < box.length, old (uidAt box (i + 1)) ↔ i < k) :
    (listingOf box).countP (fun e => ¬ old e.2) = box.length - k := by
  rw [listingOf, List.countP_map]
  have hcongr : ∀ m ≤ box.length, (List.range m).countP
      ((fun e : Nat × Bytes => decide (¬ old e.2)) ∘ fun i => (i + 1, uidAt box (i + 1))) = m - k := by
    intro m
    induction m with
    | zero => intro _; simp
    | succ m ih =>
      intro hm
      rw [List.range_succ, List.countP_append, List.countP_singleton, ih (by omega)]
      have hold := hold_iff m (by omega)
      by_cases hmk : m < k
      · simp [hold.mpr hmk]
        omega
      · simp [mt hold.mp hmk]
        omega
  exact hcongr box.length (Nat.le_refl _)

/-- The search finds their number. -/
theorem Bounds.eq_prefix {old : Bytes → Prop} {k first : Nat} (hk : k ≤ box.length)
    (hold_iff : ∀ i < box.length, old (uidAt box (i + 1)) ↔ i < k)
    (h : Bounds old (uidAt box) box.length first (first + 1)) : first = k := by
  have hle := h.le
  have hfirst : first ≤ k := by
    rcases h.first with hzero | hold
    · omega
    · by_contra hlt
      have hiff := hold_iff (first - 1) (by omega)
      rw [show first - 1 + 1 = first by omega] at hiff
      have hlt' := hiff.mp hold
      omega
  have hlast : k ≤ first := by
    rcases h.last with hend | hold
    · omega
    · by_contra hlt
      exact hold ((hold_iff first (by omega)).mpr (by omega))
  omega

end

/-! ## Both ways to count the mailbox -/

section

variable {ω : Type} {ctl : Ctl} {d : Dialogue Statics ω Command} {box : List Bytes} {k : Nat}

theorem Counts.lt (h : Counts ctl d k) : k < 2 ^ 31 := by
  obtain ⟨text, late, -, -, hscan⟩ := h.stat d.peer
  have hlt := scanStat_lt hscan
  omega

/-- The binary search needs UIDs. -/
theorem Ctl.usesUids_of_wantsFast {count : Int} (h : ctl.wantsFast count = true) :
    0 < count ∧ ctl.usesUids = true := by
  simp only [Ctl.wantsFast, Bool.and_eq_true, decide_eq_true_eq] at h
  obtain ⟨⟨⟨⟨hcount, hfetchall⟩, -⟩, -⟩, -⟩ := h
  exact ⟨by omega, by simp [Ctl.usesUids, hfetchall]⟩

/-- `pop3_getrange` with the binary search: an honest server brings it to a boundary. -/
theorem Counts.getrange_fast {total : Prop} {uidOf : Nat → Bytes} (h : Counts ctl d k)
    (hhonest : Honest total k uidOf d) (hfast : ctl.wantsFast k = true) :
    match ((pop3Getrange ctl : Session ω Range).exec d).val with
    | .error _ => ¬ total
    | .ok r => (∃ first : Nat, r = ⟨.success, k, k - first⟩ ∧
        Bounds d.statics.oldsaved.Old uidOf k first (first + 1) ∧
        While total k uidOf (Bounded k uidOf (d.statics.startCount k true) first)
          ((pop3Getrange ctl : Session ω Range).exec d).state) ∨
      (¬ total ∧ r.err ≠ .success) := by
  obtain ⟨hpos, huses⟩ := Ctl.usesUids_of_wantsFast hfast
  obtain ⟨p, tr, hexec⟩ := h.exec_getrange (by omega) huses
  rw [hfast] at hexec
  -- the search starts with the variables as `STAT` left them
  have hsearch := (triple_pop3Fastuidl h.lt :
    Talk.Triple (While total k uidOf _) (pop3Fastuidl k : Session ω _) _ _)
    { d with peer := p, statics := d.statics.startCount k true }
    ⟨hhonest.next _ p, searched_refl⟩
  have huidl : (doUidl ctl k : Session ω Range).exec
      { d with peer := p, statics := d.statics.startCount k true } =
      (pop3Fastuidl k >>= fun r => pure ⟨r.1, k, r.2⟩ : Session ω Range).exec
        { d with peer := p, statics := d.statics.startCount k true } := rfl
  rw [hexec, huidl, Talk.exec_bind]
  cases hval : ((pop3Fastuidl k : Session ω _).exec
      { d with peer := p, statics := d.statics.startCount k true }).val with
  | error t =>
    simp only [hval] at hsearch
    exact hsearch.1
  | ok r =>
    simp only [hval] at hsearch
    obtain ⟨⟨hhonest', hs⟩, ⟨first, rfl, hlast, hknown, hbounds⟩ | hfail⟩ := hsearch
    · exact Or.inl ⟨first, rfl, hbounds, hhonest', hs, hlast, hknown (by omega), rfl⟩
    · exact Or.inr hfail

/-- A server that answers everything. -/
theorem Serves.exec_fast (h : Serves ctl d box) (hfast : ctl.wantsFast box.length = true) :
    ∃ first : Nat, ((pop3Getrange ctl : Session ω Range).exec d).val =
        .ok ⟨.success, box.length, box.length - first⟩ ∧
      Bounds d.statics.oldsaved.Old (uidAt box) box.length first (first + 1) ∧
      While True box.length (uidAt box)
        (Bounded box.length (uidAt box) (d.statics.startCount box.length true) first)
        ((pop3Getrange ctl : Session ω Range).exec d).state := by
  have hsearch := h.toCounts.getrange_fast h.honest hfast
  cases hval : ((pop3Getrange ctl : Session ω Range).exec d).val with
  | error t =>
    rw [hval] at hsearch
    exact absurd trivial hsearch
  | ok r =>
    rw [hval] at hsearch
    obtain ⟨first, rfl, hbounds, hwhile⟩ := hsearch.resolve_right fun h => h.1 trivial
    exact ⟨first, rfl, hbounds, hwhile⟩

variable {ctl' : Ctl}

/-- Both ways count the same new messages, and tell the same ones. -/
structure Agree (d : Dialogue Statics ω Command) (ctl ctl' : Ctl) (count : Nat) (newp : Int)
    (answer : Nat → Bool) : Prop where
  fast : ((pop3Getrange ctl : Session ω Range).exec d).val = .ok ⟨.success, count, newp⟩
  full : ((pop3Getrange ctl' : Session ω Range).exec d).val = .ok ⟨.success, count, newp⟩
  answers : ∀ ns : List Nat, (∀ n ∈ ns, 1 ≤ n ∧ n ≤ count) →
    ((isOldAll ns : Session ω _).exec ((pop3Getrange ctl : Session ω Range).exec d).state).val =
      .ok (ns.map answer) ∧
    ((isOldAll ns : Session ω _).exec ((pop3Getrange ctl' : Session ω Range).exec d).state).val =
      .ok (ns.map answer)

/-- What is true of the boundary `n` that `pop3_fastuidl` leaves in `last`. -/
structure Boundary (count : Nat) (uidOf : Nat → Bytes) (s : Statics) (r : Int) (s' : Statics)
    (n : Nat) : Prop where
  last : s'.last = n
  newp : r = (count : Int) - n
  kept : ∀ id, s'.oldsaved.Old id ↔ s.oldsaved.Old id
  below : n = 0 ∨ s'.oldsaved.Old (uidOf n)
  above : n = count ∨ ¬ s'.oldsaved.Old (uidOf (n + 1))

/-- The old messages are the first `k`. -/
theorem old_iff_le (hold_iff : ∀ i < box.length, d.statics.oldsaved.Old (uidAt box (i + 1)) ↔ i < k)
    {n : Nat} (hn : 1 ≤ n ∧ n ≤ box.length) : d.statics.oldsaved.Old (uidAt box n) ↔ n ≤ k := by
  have hiff := hold_iff (n - 1) (by omega)
  rw [show n - 1 + 1 = n by omega] at hiff
  rw [hiff]
  omega

/-- What the fast mode says of the messages. -/
theorem Serves.fast_answers (h : Serves ctl d box) (hfast : ctl.wantsFast box.length = true)
    (hrest : d.statics.oldsaved.AtRest) (hk : k ≤ box.length)
    (hold_iff : ∀ i < box.length, d.statics.oldsaved.Old (uidAt box (i + 1)) ↔ i < k) :
    ((pop3Getrange ctl : Session ω Range).exec d).val =
        .ok ⟨.success, box.length, (box.length : Int) - k⟩ ∧
      ∀ ns : List Nat, (∀ n ∈ ns, 1 ≤ n ∧ n ≤ box.length) →
        ((isOldAll ns : Session ω _).exec ((pop3Getrange ctl : Session ω Range).exec d).state).val =
          .ok (ns.map fun n => decide (n ≤ k)) := by
  have hcount : box.length < 2 ^ 31 := h.toCounts.lt
  obtain ⟨first, hval, hbounds, hwhile⟩ := h.exec_fast hfast
  obtain rfl := hbounds.eq_prefix hk hold_iff
  refine ⟨hval, fun ns hns => val_isOldAll (fun n hn => ?_) hwhile⟩
  have hunindexed : (d.statics.startCount box.length true).oldsaved.Unindexed box.length :=
    Db.unindexed_setUidDbNumPos0 hrest (Db.lt_uintMax hcount)
  refine (triple_pop3IsOld_fast hcount hunindexed (hns n hn).1 (hns n hn).2).mono
    (fun _ h => h) (fun b d' hd' => ⟨hd'.1, ?_⟩) fun _ h => h.1 trivial
  obtain ⟨hbelow, habove⟩ := hd'.2.1
  rcases Nat.lt_or_ge first n with hlt | hge
  · have hb : b = true ↔ d.statics.oldsaved.Old (uidAt box n) :=
      (habove hlt).resolve_right (by simp)
    rw [Bool.eq_iff_iff, hb, old_iff_le hold_iff (hns n hn), decide_eq_true_iff]
  · -- below the boundary the number is enough
    rw [hbelow hge, decide_eq_true hge]

/-- The numbers of the full list. -/
theorem nodup_listingOf (box : List Bytes) : ((listingOf box).map Prod.fst).Nodup := by
  rw [map_fst_listingOf]
  exact List.nodup_range'

/-- The variables after the full list. -/
theorem listed_listingOf (flush : Bool) (s₀ : Statics) (hcount : box.length < 2 ^ 31)
    (hids : ∀ id ∈ box, id ≠ []) :
    Listed flush (s₀.startCount box.length false) box.length (listingOf box)
      ((s₀.startCount box.length false).listAll flush (listingOf box) 0).1
      ((s₀.startCount box.length false).listAll flush (listingOf box) 0).2 := by
  have hnums : ∀ e ∈ listingOf box, e.1 ≤ box.length := by
    intro e he
    have hmem : e.1 ∈ (listingOf box).map Prod.fst := List.mem_map.mpr ⟨e, he, rfl⟩
    rw [map_fst_listingOf, List.mem_range'_1] at hmem
    omega
  have hidsOf : ∀ e ∈ listingOf box, e.2 ≠ [] := by
    intro e he
    obtain ⟨i, hi, rfl⟩ := List.mem_map.mp he
    exact hids _ (uidAt_mem (by omega) (by have := List.mem_range.mp hi; omega))
  have hlisted := (listed_startCount flush s₀ hcount false).listAll hcount hnums
    (nodup_listingOf box) hidsOf
  rwa [List.nil_append] at hlisted

/-- What the full list says of the messages. -/
theorem Serves.full_answers (h : Serves ctl d box) (hpos : 0 < box.length)
    (huses : ctl.usesUids = true) (hfull : ctl.wantsFast box.length = false)
    (hids : ∀ id ∈ box, id ≠ []) (hk : k ≤ box.length)
    (hold_iff : ∀ i < box.length, d.statics.oldsaved.Old (uidAt box (i + 1)) ↔ i < k) :
    ((pop3Getrange ctl : Session ω Range).exec d).val =
        .ok ⟨.success, box.length, (box.length : Int) - k⟩ ∧
      ∀ ns : List Nat, (∀ n ∈ ns, 1 ≤ n ∧ n ≤ box.length) →
        ((isOldAll ns : Session ω _).exec ((pop3Getrange ctl : Session ω Range).exec d).state).val =
          .ok (ns.map fun n => decide (n ≤ k)) := by
  have hcount : box.length < 2 ^ 31 := h.toCounts.lt
  -- after the list each message has its number, and the new ones are counted
  have hlisted := listed_listingOf ctl.flush d.statics hcount hids
  obtain ⟨p, tr, hexec⟩ := h.toFullList.exec_getrange (by omega) huses hfull
  have hnewp : ((d.statics.startCount box.length false).listAll ctl.flush (listingOf box) 0).1 =
      (box.length : Int) - k := by
    rw [hlisted.newp]
    have hcountP : (listingOf box).countP (fun e =>
        ¬ (d.statics.startCount box.length false).oldsaved.Old e.2) = box.length - k :=
      countP_listingOf hold_iff
    rw [hcountP]
    omega
  refine ⟨by rw [hexec, hnewp], fun ns hns => ?_⟩
  -- no question changes what was listed, so that all are answered from the same list
  refine val_isOldAll (I := fun d' => Listed ctl.flush (d.statics.startCount box.length false)
    box.length (listingOf box) _ d'.statics) (fun n hn => ?_) (by rw [hexec]; exact hlisted)
  have hget : (listingOf box)[n - 1]? = some (n - 1 + 1, uidAt box (n - 1 + 1)) :=
    getElem?_listingOf (by have := hns n hn; omega)
  rw [show n - 1 + 1 = n by have := hns n hn; omega] at hget
  refine (triple_pop3IsOld_full rfl (hns n hn).2 hget (nodup_listingOf box)).mono (fun _ h => h)
    (fun b d' hd' => ⟨hd'.1, ?_⟩) fun _ h => h
  rw [hd'.2]
  exact decide_eq_decide.mpr (old_iff_le hold_iff (hns n hn))

/-- The search ends at a boundary, whatever mailbox it is. -/
theorem fastuidl_boundary {count : Nat} {uidOf : Nat → Bytes} {d₁ : Dialogue Statics ω Command}
    {newp : Int} (hcount : count < 2 ^ 31) (hhonest : Honest False count uidOf d₁)
    (hval : ((pop3Fastuidl count : Session ω _).exec d₁).val = .ok (.success, newp)) :
    ∃ last, Boundary count uidOf d₁.statics newp
      ((pop3Fastuidl count : Session ω _).exec d₁).state.statics last := by
  have hsearch := triple_pop3Fastuidl hcount d₁
    ⟨hhonest, (searched_refl : Searched _ _ d₁.statics d₁.statics)⟩
  simp only [hval] at hsearch
  obtain ⟨⟨-, hs⟩, hend⟩ := hsearch
  obtain ⟨last, hr, hlast, -, hbounds⟩ := hend.resolve_right (by simp)
  have hnewp : newp = (count : Int) - last := congrArg Prod.snd hr
  refine ⟨last, hlast, hnewp, hs.kept.old, ?_, ?_⟩
  · rw [hs.kept.old]
    exact hbounds.first
  · rw [hs.kept.old]
    exact hbounds.last.imp_left fun h => by omega

/-- **The fast mode agrees with the full list** on a mailbox where the old messages come
first; on any mailbox the search ends at a boundary between old and unseen messages. -/
theorem fastuidl_agrees (h : Serves ctl d box) (h' : Serves ctl' d box)
    (hfast : ctl.wantsFast box.length = true) (huses : ctl'.usesUids = true)
    (hfull : ctl'.wantsFast box.length = false) (hids : ∀ id ∈ box, id ≠ [])
    (hrest : d.statics.oldsaved.AtRest) (hk : k ≤ box.length)
    (hold_iff : ∀ i < box.length, d.statics.oldsaved.Old (uidAt box (i + 1)) ↔ i < k) :
    Agree d ctl ctl' box.length ((box.length : Int) - k) (fun n => decide (n ≤ k)) ∧
      ∀ (count : Nat) (uidOf : Nat → Bytes) (d₁ : Dialogue Statics ω Command) (newp : Int),
        count < 2 ^ 31 → Honest False count uidOf d₁ →
        ((pop3Fastuidl count : Session ω _).exec d₁).val = .ok (.success, newp) →
        ∃ last, Boundary count uidOf d₁.statics newp
          ((pop3Fastuidl count : Session ω _).exec d₁).state.statics last := by
  obtain ⟨hpos, -⟩ := Ctl.usesUids_of_wantsFast hfast
  obtain ⟨hval, hanswers⟩ := h.fast_answers hfast hrest hk hold_iff
  obtain ⟨hval', hanswers'⟩ := h'.full_answers (by omega) huses hfull hids hk hold_iff
  exact ⟨⟨hval, hval', fun ns hns => ⟨hanswers ns hns, hanswers' ns hns⟩⟩,
    fun _ _ _ _ hcount hhonest hval => fastuidl_boundary hcount hhonest hval⟩

end

/-! ## A server for any mailbox -/

/-- A server with the mailbox `box`, which does not know `LAST`. -/
def mailServer (s : Statics) (box : List Bytes) : Dialogue Statics Unit Command where
  stage := .getrange
  statics := s
  tagged := false
  suppressTags := false
  tagnum := 0
  tag := []
  lines := []
  peer := ()
  answer := fun _ c _ =>
    match c with
    | .stat => ([.line (Bytes.lit "+OK " ++ Bytes.decimal box.length ++ Bytes.lit " 0") false], ())
    | .last => ([.line (Bytes.lit "-ERR") false], ())
    | .uidl => (.line (Bytes.lit "+OK") false ::
        ((listingOf box).map fun e => .line (uidlText e.1 e.2) false) ++
          [.line (Bytes.lit ".") false], ())
    | .uidlMsg n => ([.line (Bytes.lit "+OK " ++ uidlText n (uidAt box n)) false], ())
    | _ => ([.line (Bytes.lit "+OK") false], ())
  tls := true

theorem parseOk_ok : parseOk .getrange (Bytes.lit "+OK") = (.success, []) := by decide

theorem parseOk_err : (parseOk .getrange (Bytes.lit "-ERR")).1 ≠ .success := by decide

/-- It does what it should. -/
theorem serves_mailServer {ctl : Ctl} {s : Statics} {box : List Bytes}
    (hids : ∀ id ∈ box, WellFormedUid id) (hlength : box.length < 2 ^ 31)
    (hstat : scanStat (Bytes.decimal box.length ++ Bytes.lit " 0") = some (box.length : Int)) :
    Serves ctl (mailServer s box) box where
  tagged := rfl
  lines := rfl
  stat := fun _ => ⟨_, _, rfl, rfl, hstat⟩
  last := fun _ _ => ⟨_, _, rfl, parseOk_err⟩
  uidl := by
    intro p
    refine ⟨Bytes.lit "+OK", false, (listingOf box).map fun e => .line (uidlText e.1 e.2) false,
      Bytes.lit ".", false, rfl, congrArg Prod.fst parseOk_ok, ?_, by decide⟩
    rw [List.forall₂_map_left_iff]
    refine List.forall₂_same.mpr fun e he => ?_
    obtain ⟨i, hi, rfl⟩ := List.mem_map.mp he
    have hi' := List.mem_range.mp hi
    exact lists_uidlText (by omega) (hids _ (uidAt_mem (by omega) (by omega))) false
  honest := by
    refine ⟨rfl, rfl, fun n hn hn' p => Or.inl ⟨_, _, rfl, ?_⟩⟩
    have hparse : parseuid (uidlText n (uidAt box n)) = some (n, uidAt box n) :=
      parseuid_uidlText (by omega) (hids _ (uidAt_mem hn hn'))
    have hok : parseOk .getrange (Bytes.lit "+OK " ++ uidlText n (uidAt box n)) =
        (.success, uidlText n (uidAt box n)) := rfl
    simp [mailServer, hok, checkUidl, hparse]

/-- The settings, with the binary search and without it. -/
def fastCtl : Ctl := ⟨false, false, true, 1, 0, []⟩
def slowCtl : Ctl := ⟨false, false, true, 0, 0, []⟩

/-- Eight messages, two of which were seen before. -/
def eightMessages : List Bytes :=
  ["a", "b", "c", "d", "e", "f", "g", "h"].map Bytes.lit

def twoSeen : Statics :=
  ⟨⟨[⟨Bytes.lit "a", .seen⟩, ⟨Bytes.lit "b", .seen⟩], Db.initUidDb.numNdx⟩, Db.initUidDb, 0, false,
    false, false⟩

theorem fastuidl_agrees_eightMessages :
    Agree (mailServer twoSeen eightMessages) fastCtl slowCtl 8 (8 - 2) (fun n => decide (n ≤ 2)) ∧
      ∀ (count : Nat) (uidOf : Nat → Bytes) (d₁ : Dialogue Statics Unit Command) (newp : Int),
        count < 2 ^ 31 → Honest False count uidOf d₁ →
        ((pop3Fastuidl count : Session Unit _).exec d₁).val = .ok (.success, newp) →
        ∃ last, Boundary count uidOf d₁.statics newp
          ((pop3Fastuidl count : Session Unit _).exec d₁).state.statics last := by
  have hids : ∀ id ∈ eightMessages, WellFormedUid id := by
    intro id hid
    refine ⟨?_, ?_, ?_⟩ <;> revert id <;> decide
  have hserves : ∀ ctl, Serves ctl (mailServer twoSeen eightMessages) eightMessages :=
    fun _ => serves_mailServer hids (by decide) (by decide)
  exact fastuidl_agrees (hserves fastCtl) (hserves slowCtl) (by decide) rfl (by decide) (by decide)
    (Nat.zero_le 1) (by decide) (by decide)

end Fetchmail.Pop3
