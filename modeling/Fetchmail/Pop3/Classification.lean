import Fetchmail.Lib.Decimal
import Fetchmail.Pop3.Listing

/-!
# Old and New Messages

When `pop3_getrange` reads the whole UID list, a message is old exactly if its UID was known
before as that of a message that had been dealt with, and the count of new messages, the two
databases and the number index agree with that.
-/

namespace Fetchmail.Pop3

open Fetchmail.Lib Fetchmail.Transact Fetchmail.Uid

/-! ## Lines of a list -/

/-- A UID as the standard has them: one to `IDLEN` characters, none of them white space. -/
structure WellFormedUid (id : Bytes) : Prop where
  ne_nil : id ≠ []
  length : id.length ≤ idLen
  graph : ∀ b ∈ id, Bytes.isspace b = false

/-- `"%d %s"` -/
def uidlText (n : Nat) (id : Bytes) : Bytes := Bytes.decimal n ++ Bytes.space :: id

/-- A UID that is well formed is copied as it is. -/
theorem copyId_of_wellFormed {id : Bytes} (h : WellFormedUid id) : copyId id = id := by
  have hall : (id ++ []).takeWhile (fun b => !Bytes.isspace b) =
      id ++ [].takeWhile fun b => !Bytes.isspace b :=
    List.takeWhile_append_of_pos fun b hb => by simp [h.graph b hb]
  rw [copyId, List.take_of_length_le h.length, trim]
  simpa using hall

/-- `parseuid` reads a line of the standard form. -/
theorem parseuid_uidlText {n : Nat} (hn : n < 2 ^ 64) {id : Bytes} (h : WellFormedUid id) :
    parseuid (uidlText n id) = some (n, id) := by
  have hdigit : ∀ b ∈ Bytes.decimal n, Bytes.isdigit b = true :=
    fun b hb => Bytes.isdigit_of_mem_decimal hb
  have hblank : (uidlText n id).dropWhile Bytes.isspace = uidlText n id := by
    obtain ⟨b, rest, hrest⟩ := List.exists_cons_of_ne_nil (Bytes.decimal_ne_nil n)
    have hb := Bytes.isspace_of_isdigit (hdigit b (by rw [hrest]; exact List.mem_cons_self))
    have htext : uidlText n id = b :: (rest ++ Bytes.space :: id) := by
      rw [uidlText, hrest]
      rfl
    rw [htext, List.dropWhile_cons_of_neg (by simp [hb])]
  have hnumber : Bytes.strtoul (uidlText n id) = .number n (Bytes.space :: id) :=
    Bytes.strtoul_decimal hn (by decide) id
  have hid : (Bytes.space :: id).dropWhile Bytes.isspace = id := by
    obtain ⟨b, rest, rfl⟩ := List.exists_cons_of_ne_nil h.ne_nil
    have hb := h.graph b List.mem_cons_self
    rw [List.dropWhile_cons_of_pos (by decide), List.dropWhile_cons_of_neg (by simp [hb])]
  unfold parseuid
  rw [hblank, hnumber]
  simp only [hid, copyId_of_wellFormed h]
  rfl

/-- Such a line belongs to the list. -/
theorem lists_uidlText {n : Nat} (hn : n < 2 ^ 64) {id : Bytes} (h : WellFormedUid id)
    (late : Bool) : Lists (.line (uidlText n id) late) (n, id) := by
  refine ⟨_, late, rfl, ?_, parseuid_uidlText hn h⟩
  obtain ⟨b, rest, hrest⟩ := List.exists_cons_of_ne_nil (Bytes.decimal_ne_nil n)
  have hb := Bytes.isdigit_of_mem_decimal (n := n) (b := b) (by rw [hrest]; exact List.mem_cons_self)
  have hne : b ≠ Bytes.dot := by
    rintro rfl
    exact absurd hb (by decide)
  have hfirst : Bytes.charAt (uidlText n id) 0 = b := by
    rw [uidlText, hrest]
    rfl
  simp [dotLine, hfirst, hne]

/-- `sscanf` cuts numbers to 32 bits. -/
theorem scanStat_lt {buf : Bytes} {count : Int} (h : scanStat buf = some count) :
    count < 2 ^ 31 := by
  unfold scanStat at h
  cases hscan : Bytes.scanInt buf with
  | eof => simp [hscan] at h
  | mismatch => simp [hscan] at h
  | int n rest =>
    have hn := Bytes.scanInt_lt hscan
    simp only [hscan] at h
    split at h
    · cases h
      exact hn
    · cases h

/-! ## The classification -/

/-- What `pop3_getrange` leaves behind, and what `pop3_is_old` says from then on, when the
variables were `s₀` before and the mailbox is that of `listing`. -/
structure Classifies (ω : Type) (flush : Bool) (s₀ : Statics) (count : Nat)
    (listing : List (Nat × Bytes)) (newp : Int) (s : Statics) (isOld : Nat → Bool) : Prop where
  answers : ∀ n, 1 ≤ n → n ≤ count → ∀ d : Dialogue Statics ω Command, d.statics = s →
    ((pop3IsOld n : Session ω Bool).exec d).val = .ok (isOld n)
  old : ∀ e ∈ listing, isOld e.1 = true ↔ s₀.oldsaved.Old e.2
  newp : newp = (List.range' 1 count).countP fun n => !isOld n
  revived : ∀ e ∈ listing, s₀.oldsaved.Old e.2 →
    s.oldsaved.markOf e.2 = some .seen ∧ ∀ r ∈ s.newsaved.records, r.id = e.2 → r.status = .seen
  records : s.newsaved.records.map Record.id = listing.map Prod.snd
  index : ∀ k n id, listing[k]? = some (n, id) → isOld n = false ∨ flush = true →
    s.newsaved.findUidByNum n = some k

/-- The UID that is listed for a message. -/
def listedUid (listing : List (Nat × Bytes)) (n : Nat) : Bytes :=
  ((listing.find? fun e => e.1 = n).map Prod.snd).getD []

theorem listedUid_of_mem {listing : List (Nat × Bytes)} (hnodup : (listing.map Prod.fst).Nodup)
    {e : Nat × Bytes} (he : e ∈ listing) : listedUid listing e.1 = e.2 := by
  induction listing with
  | nil => cases he
  | cons a listing ih =>
    rw [List.map_cons, List.nodup_cons] at hnodup
    rcases List.mem_cons.mp he with rfl | he
    · simp [listedUid]
    · have hne : a.1 ≠ e.1 := fun h => hnodup.1 (h ▸ List.mem_map.mpr ⟨e, he, rfl⟩)
      have hih := ih hnodup.2 he
      unfold listedUid at hih ⊢
      rw [List.find?_cons_of_neg (by simpa using hne)]
      exact hih

variable {ω : Type} {count : Nat} {listing : List (Nat × Bytes)}

/-- The loop invariant, at the end of a list that is complete. -/
theorem Listed.classifies {flush : Bool} {s₀ s : Statics} {newp : Int}
    (h : Listed flush s₀ count listing newp s) (hslow : s₀.dofastuidl = false)
    (hperm : (listing.map Prod.fst).Perm (List.range' 1 count)) :
    Classifies ω flush s₀ count listing newp s fun n =>
      decide (s₀.oldsaved.Old (listedUid listing n)) := by
  -- each number from 1 to `count` stands in the list once
  have hnodup : (listing.map Prod.fst).Nodup := hperm.symm.nodup List.nodup_range'
  refine ⟨fun n hn hn' d hd => ?_, fun e he => ?_, ?_, fun e he hold => ⟨?_, ?_⟩, ?_, ?_⟩
  · have hmem : n ∈ listing.map Prod.fst := hperm.mem_iff.mpr (by
      rw [List.mem_range'_1]
      omega)
    obtain ⟨e, he, rfl⟩ := List.mem_map.mp hmem
    obtain ⟨k, hk⟩ := List.mem_iff_getElem?.mp he
    rw [listedUid_of_mem hnodup he]
    exact h.isOld hslow hn' hk hnodup hd
  · rw [listedUid_of_mem hnodup he]
    exact decide_eq_true_iff
  · rw [← hperm.countP_eq, List.countP_map, h.newp]
    congr 1
    refine List.countP_congr fun e he => ?_
    simp [listedUid_of_mem hnodup he]
  · have hmark := h.oldMarks e.2
    rw [if_pos (List.mem_map.mpr ⟨e, he, rfl⟩), listedMark, if_pos hold] at hmark
    exact hmark
  · intro r hr hid
    rw [h.newRecords] at hr
    obtain ⟨e', -, rfl⟩ := List.mem_map.mp hr
    have hid' : e'.2 = e.2 := hid
    have hold' : s₀.oldsaved.Old e'.2 := by
      rw [hid']
      exact hold
    exact if_pos hold'
  · rw [h.newRecords, List.map_map]
    rfl
  · intro k n id hk hwanted
    have hmem := List.mem_of_getElem? hk
    have hn : n ≤ count := by
      have hrange := hperm.mem_iff.mp (List.mem_map.mpr ⟨_, hmem, rfl⟩)
      rw [List.mem_range'_1] at hrange
      omega
    refine (h.index n hn k).mpr ⟨id, hk, ?_⟩
    rw [listedUid_of_mem hnodup hmem] at hwanted
    rcases hwanted with hnew | hflush
    · exact Or.inr (by simpa using hnew)
    · exact Or.inl hflush

/-- **The full list tells old messages from new ones exactly.** -/
theorem getrange_classifies {ctl : Ctl} {d : Dialogue Statics ω Command}
    (h : FullList ctl d count listing) (hcount : 0 < count) (huses : ctl.usesUids = true)
    (hslow : ctl.wantsFast count = false)
    (hperm : (listing.map Prod.fst).Perm (List.range' 1 count))
    (hids : ∀ e ∈ listing, e.2 ≠ []) :
    ∃ newp isOld, ((pop3Getrange ctl : Session ω Range).exec d).val = .ok ⟨.success, count, newp⟩ ∧
      Classifies ω ctl.flush d.statics count listing newp
        ((pop3Getrange ctl : Session ω Range).exec d).state.statics isOld := by
  have hbound : count < 2 ^ 31 := by
    obtain ⟨text, late, -, -, hscan⟩ := h.stat d.peer
    have hlt := scanStat_lt hscan
    omega
  have hnums : ∀ e ∈ listing, e.1 ≤ count := fun e he => by
    have hrange := hperm.mem_iff.mp (List.mem_map.mpr ⟨e, he, rfl⟩)
    rw [List.mem_range'_1] at hrange
    omega
  have hlisted := (listed_startCount ctl.flush d.statics hbound false).listAll hbound hnums
    (hperm.symm.nodup List.nodup_range') hids
  obtain ⟨p, tr, hexec⟩ := h.exec_getrange hcount huses hslow
  have hclass : Classifies ω ctl.flush _ count listing _ _ _ := hlisted.classifies rfl hperm
  rw [hexec]
  -- setting up the index has not changed what is old
  exact ⟨_, _, rfl, ⟨hclass.answers, hclass.old, hclass.newp, hclass.revived, hclass.records,
    hclass.index⟩⟩

/-! ## A mailbox with old and new messages -/

/-- What was known before: one message is gone, one was to be deleted, one had been left. -/
def knownBefore : Db :=
  { Db.initUidDb with
    records := [⟨Bytes.lit "gone", .expunged⟩, ⟨Bytes.lit "old", .deleted⟩,
      ⟨Bytes.lit "left", .unseen⟩] }

/-- Five messages, out of order; an old and a new UID stand there twice. -/
def fiveListed : List (Nat × Bytes) :=
  [(3, Bytes.lit "new"), (1, Bytes.lit "old"), (5, Bytes.lit "new"), (2, Bytes.lit "left"),
    (4, Bytes.lit "old")]

/-- A server with these messages. -/
def fiveMessages : Dialogue Statics Unit Command where
  stage := .getrange
  statics := ⟨knownBefore, Db.initUidDb, 0, false, false, false⟩
  tagged := false
  suppressTags := false
  tagnum := 0
  tag := []
  lines := []
  peer := ()
  answer := fun _ c _ =>
    match c with
    | .stat => ([.line (Bytes.lit "+OK 5 50") false], ())
    | .uidl => (.line (Bytes.lit "+OK") false ::
        (fiveListed.map (fun e => .line (uidlText e.1 e.2) false) ++
          [.line (Bytes.lit ".") false]), ())
    | _ => ([.line (Bytes.lit "-ERR") false], ())
  tls := true

/-- The default settings. -/
def plainCtl : Ctl := ⟨false, false, false, 0, 0, []⟩

theorem fullList_fiveMessages (ctl : Ctl) : FullList ctl fiveMessages 5 fiveListed where
  tagged := rfl
  lines := rfl
  stat := fun _ => ⟨_, _, rfl, by decide, by decide⟩
  last := fun _ _ => ⟨_, _, rfl, by decide⟩
  uidl := fun _ => by
    refine ⟨Bytes.lit "+OK", false, fiveListed.map (fun e => .line (uidlText e.1 e.2) false),
      Bytes.lit ".", false, rfl, by decide, ?_, by decide⟩
    rw [List.forall₂_map_left_iff, List.forall₂_same]
    have hwell : ∀ e ∈ fiveListed, e.1 < 2 ^ 64 ∧ e.2 ≠ [] ∧ e.2.length ≤ idLen ∧
        ∀ b ∈ e.2, Bytes.isspace b = false := by decide
    intro e he
    obtain ⟨hn, hne, hlength, hgraph⟩ := hwell e he
    exact lists_uidlText hn ⟨hne, hlength, hgraph⟩ false

/-- The messages 1 and 4 are old, and the three others are new. -/
theorem getrange_classifies_fiveMessages :
    ∃ newp isOld, ((pop3Getrange plainCtl : Session Unit Range).exec fiveMessages).val =
        .ok ⟨.success, 5, newp⟩ ∧
      Classifies Unit false fiveMessages.statics 5 fiveListed newp
        ((pop3Getrange plainCtl : Session Unit Range).exec fiveMessages).state.statics isOld :=
  getrange_classifies (fullList_fiveMessages plainCtl) (by decide) rfl rfl (by decide) (by decide)

end Fetchmail.Pop3
