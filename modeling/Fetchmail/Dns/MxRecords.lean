import Fetchmail.Lib.Buffer
import Fetchmail.Lib.Storage

/-!
# Mail Exchanger Records

`getmxrecords` of `mxget.c`: the answer of a name server is taken apart, the names of the mail
exchangers go into one buffer, and the table that is returned points into it. `dn_expand` and
`dn_skipname` are those of the resolver library. What they are relied on for is `Lawful`. A read
beyond the answer and a write beyond the buffer or the table are faults.
-/

namespace Fetchmail.Dns

open Fetchmail.Lib

/-! ## The resolver library -/

structure Resolver where
  /-- `dn_skipname(cp, eom)`, with the message up to `eom` -/
  skipname : (message : Bytes) → (cp : Nat) → Option Nat
  /-- `dn_expand`: what is written at `bp`, and the result, which is `none` for `-1` -/
  expand : (message : Bytes) → (cp : Nat) → (buflen : Int) → Bytes × Option Nat

/-- `dn_expand` keeps to the room that it is given and to the message; a name that it expands is
written with its terminator, and takes something of the message. -/
structure Resolver.Lawful (r : Resolver) : Prop where
  room : ∀ message cp buflen, 0 ≤ buflen → ((r.expand message cp buflen).1.length : Int) ≤ buflen
  taken : ∀ message cp buflen n, (r.expand message cp buflen).2 = some n →
    0 < n ∧ cp + n ≤ message.length
  name : ∀ message cp buflen n, (r.expand message cp buflen).2 = some n →
    ∃ name, (r.expand message cp buflen).1 = name ++ [Bytes.nul] ∧ Bytes.nul ∉ name

/-! ## The code -/

/-- A memory access out of bounds. -/
inductive Fault where
  | read
  | write
  deriving DecidableEq, Repr

def packetSize : Nat := 512

def headerSize : Nat := 12

/-- The size of `MXHostBuf`. -/
def hostBufSize : Nat := packetSize - headerSize

/-- The size of `pmx`. -/
def pmxSize : Nat := (packetSize - headerSize) / 8

/-- `GETSHORT(s, cp)`, of the array `answer` -/
def getShort (answer : Bytes) (cp : Nat) : Except Fault Nat :=
  if cp + 2 ≤ answer.length then
    .ok ((answer.getD cp 0).toNat * 256 + (answer.getD (cp + 1) 0).toNat)
  else .error .read

/-- A write into `MXHostBuf`. -/
def store (buf : Bytes) (bp : Nat) (src : Bytes) : Except Fault Bytes :=
  match Storage.write buf bp src with
  | some buf => .ok buf
  | none => .error .write

/-- `pmx[ind]` is written. -/
def setEntry (pmx : List (Nat × Nat)) (entry : Nat × Nat) : Except Fault (List (Nat × Nat)) :=
  if pmx.length < pmxSize then .ok (pmx ++ [entry]) else .error .write

/-- The variables of the loop; an entry of `pmx` has the place of its name and its preference. -/
structure Cursor where
  cp : Nat
  bp : Nat
  buflen : Int
  pmx : List (Nat × Nat)
  hostBuf : Bytes
  deriving Repr

/-- The `break` out of the loop, or its next round. -/
inductive Next where
  | stop (c : Cursor)
  | next (c : Cursor)

/-- The second half of the body: the name of the exchanger. -/
def exchanger (r : Resolver) (answer : Bytes) (eom : Nat) (c : Cursor) (cp pref : Nat) :
    Except Fault Next := do
  let expanded := r.expand (answer.take eom) cp c.buflen
  let hostBuf ← store c.hostBuf c.bp expanded.1
  match expanded.2 with
  | none => return .stop { c with hostBuf }
  | some n =>
    let pmx ← setEntry c.pmx (c.bp, pref)
    let len := Storage.strlen (hostBuf.drop c.bp)
    let hostBuf ← store hostBuf (c.bp + len) [Bytes.nul]
    return .next ⟨cp + n, c.bp + len + 1, c.buflen - (len + 1), pmx, hostBuf⟩

/-- The body of the loop. -/
def record (r : Resolver) (answer : Bytes) (eom : Nat) (c : Cursor) : Except Fault Next := do
  let expanded := r.expand (answer.take eom) c.cp c.buflen
  let hostBuf ← store c.hostBuf c.bp expanded.1
  match expanded.2 with
  | none => return .stop { c with hostBuf }
  | some n =>
    let type ← getShort answer (c.cp + n)
    let rdlength ← getShort answer (c.cp + n + 8)
    if type ≠ 15 then return .next { c with hostBuf, cp := c.cp + n + 10 + rdlength }
    else
      let pref ← getShort answer (c.cp + n + 10)
      exchanger r answer eom { c with hostBuf } (c.cp + n + 12) pref

/-- The loop over the records. -/
def records (r : Resolver) (answer : Bytes) (eom : Nat) :
    (ancount : Nat) → Cursor → Except Fault Cursor
  | 0, c => .ok c
  | ancount + 1, c =>
    if eom ≤ c.cp then .ok c
    else do
      match ← record r answer eom c with
      | .stop c => return c
      | .next c => records r answer eom ancount c

/-- The loop over the questions. -/
def questions (r : Resolver) (message : Bytes) : (qdcount : Nat) → (cp : Nat) → Option Nat
  | 0, cp => some cp
  | qdcount + 1, cp =>
    (r.skipname message cp).bind fun n => questions r message qdcount (cp + n + 4)

/-- `getmxrecords`, for what `res_search` has put into `answer` and the length that it returned:
the table and the buffer, or `NULL`. -/
def getmxrecords (r : Resolver) (answer : Storage.Block packetSize)
    (hostBuf : Storage.Block hostBufSize) (found : Option Nat) :
    Except Fault (Option (List (Nat × Nat) × Bytes)) :=
  match found with
  | none => .ok none
  | some n => do
    let eom := min n packetSize
    let qdcount ← getShort answer.val 4
    match questions r (answer.val.take eom) qdcount headerSize with
    | none => return none
    | some cp =>
      let ancount ← getShort answer.val 6
      let c ← records r answer.val eom ancount ⟨cp, 0, hostBufSize - 1, [], hostBuf.val⟩
      -- the entry that ends the table
      let _ ← setEntry c.pmx (0, 0)
      return some (c.pmx, c.hostBuf)

/-- The table as its reader sees it: names and preferences. -/
def entries (pmx : List (Nat × Nat)) (hostBuf : Bytes) : List (Bytes × Nat) :=
  pmx.map fun e => (Bytes.cstr (hostBuf.drop e.1), e.2)

/-! ## The records of a message -/

/-- One record, and `room` bytes for a name: nothing more can be read, or the place of the next
record and what this one says of an exchanger. -/
def plainRecord (r : Resolver) (answer : Bytes) (eom cp : Nat) (room : Int) :
    Except Fault (Option (Nat × Option (Bytes × Nat))) :=
  match (r.expand (answer.take eom) cp room).2 with
  | none => .ok none
  | some n => do
    let type ← getShort answer (cp + n)
    let rdlength ← getShort answer (cp + n + 8)
    if type ≠ 15 then return some (cp + n + 10 + rdlength, none)
    else
      let pref ← getShort answer (cp + n + 10)
      let expanded := r.expand (answer.take eom) (cp + n + 12) room
      match expanded.2 with
      | none => return none
      | some n' => return some (cp + n + 12 + n', some (Bytes.cstr expanded.1, pref))

/-- The exchangers of a message in the order of its records, as long as there is room for their
names. -/
def plainRecords (r : Resolver) (answer : Bytes) (eom : Nat) :
    (ancount cp : Nat) → (room : Int) → Except Fault (List (Bytes × Nat))
  | 0, _, _ => .ok []
  | ancount + 1, cp, room =>
    if eom ≤ cp then .ok []
    else do
      match ← plainRecord r answer eom cp room with
      | none => return []
      | some (cp, none) => plainRecords r answer eom ancount cp room
      | some (cp, some entry) =>
        return entry :: (← plainRecords r answer eom ancount cp (room - (entry.1.length + 1)))

/-- The exchangers that an answer is about. -/
def plainMx (r : Resolver) (answer : Bytes) (found : Option Nat) :
    Except Fault (Option (List (Bytes × Nat))) :=
  match found with
  | none => .ok none
  | some n => do
    let eom := min n packetSize
    let qdcount ← getShort answer 4
    match questions r (answer.take eom) qdcount headerSize with
    | none => return none
    | some cp =>
      let ancount ← getShort answer 6
      return some (← plainRecords r answer eom ancount cp (hostBufSize - 1))

/-! ## The table and the buffer -/

/-- Names one after the other, each with its terminator. -/
def flat (names : List (Bytes × Nat)) : Bytes := names.flatMap fun e => e.1 ++ [Bytes.nul]

/-- The table for names that stand from a place on. -/
def layout : (place : Nat) → List (Bytes × Nat) → List (Nat × Nat)
  | _, [] => []
  | place, e :: rest => (place, e.2) :: layout (place + e.1.length + 1) rest

theorem length_layout (place : Nat) (names : List (Bytes × Nat)) :
    (layout place names).length = names.length := by
  induction names generalizing place with
  | nil => rfl
  | cons e rest ih => rw [layout, List.length_cons, List.length_cons, ih]

theorem flat_append (names : List (Bytes × Nat)) (e : Bytes × Nat) :
    flat (names ++ [e]) = flat names ++ e.1 ++ [Bytes.nul] := by
  simp [flat]

theorem layout_append (place : Nat) (names : List (Bytes × Nat)) (e : Bytes × Nat) :
    layout place (names ++ [e]) = layout place names ++ [(place + (flat names).length, e.2)] := by
  induction names generalizing place with
  | nil => simp [layout, flat]
  | cons x rest ih =>
    rw [List.cons_append, layout, ih, layout]
    simp [flat]
    omega

/-- The table for names that stand in the buffer is read back as these names. -/
theorem entries_layout {names : List (Bytes × Nat)} (hplain : ∀ e ∈ names, Bytes.nul ∉ e.1)
    {hostBuf : Bytes} {place : Nat} (hstarts : flat names <+: hostBuf.drop place) :
    entries (layout place names) hostBuf = names := by
  induction names generalizing place with
  | nil => rfl
  | cons e rest ih =>
    obtain ⟨tail, htail⟩ := hstarts
    have hdrop : hostBuf.drop place = e.1 ++ Bytes.nul :: (flat rest ++ tail) := by
      rw [← htail]
      simp [flat]
    have hname : Bytes.cstr (hostBuf.drop place) = e.1 := by
      rw [hdrop, Buffer.cstr_append (hplain e (List.mem_cons_self ..)), Buffer.cstr_nul_cons,
        List.append_nil]
    have hrest : flat rest <+: hostBuf.drop (place + e.1.length + 1) := by
      rw [Nat.add_assoc, ← List.drop_drop, hdrop, List.drop_append]
      exact ⟨tail, by simp⟩
    have hentries := ih (fun x hx => hplain x (List.mem_cons_of_mem _ hx)) hrest
    rw [entries] at hentries ⊢
    rw [layout, List.map_cons, hentries, hname]

/-- A write behind what stands at the start of the buffer. -/
theorem store_after {buf pre src : Bytes} (hlength : buf.length = hostBufSize)
    (hpre : pre <+: buf) (hfit : pre.length + src.length ≤ hostBufSize) :
    ∃ buf', store buf pre.length src = .ok buf' ∧ buf'.length = hostBufSize ∧
      pre ++ src <+: buf' := by
  obtain ⟨buf', hwrite, hlength', htake⟩ :=
    Storage.write_fits (show pre.length + src.length ≤ buf.length by rwa [hlength])
  refine ⟨buf', by rw [store, hwrite], hlength'.trans hlength, ?_⟩
  rw [List.prefix_iff_eq_take.mp hpre, ← htake]
  exact List.take_prefix _ _

/-- What the loop keeps: the names so far stand at the start of the buffer, the table points to
them, the room is what is left of the buffer, and every name has taken its part of the message. -/
structure Filled (c : Cursor) (names : List (Bytes × Nat)) : Prop where
  length_eq : c.hostBuf.length = hostBufSize
  starts : flat names <+: c.hostBuf
  bp_eq : c.bp = (flat names).length
  room_eq : c.buflen + c.bp = hostBufSize - 1
  room_nonneg : 0 ≤ c.buflen
  pmx_eq : c.pmx = layout 0 names
  plain : ∀ e ∈ names, Bytes.nul ∉ e.1
  taken : 14 * names.length ≤ c.cp
  few : 14 * names.length ≤ packetSize

/-- A round of the loop beside the record that it is about. -/
inductive Follows (c : Cursor) (names : List (Bytes × Nat)) :
    Except Fault (Option (Nat × Option (Bytes × Nat))) → Except Fault Next → Prop where
  | fault : Follows c names (.error .read) (.error .read)
  | stop {c' : Cursor} : Filled c' names → Follows c names (.ok none) (.ok (.stop c'))
  | skip {c' : Cursor} : Filled c' names → c'.buflen = c.buflen →
      Follows c names (.ok (some (c'.cp, none))) (.ok (.next c'))
  | add {c' : Cursor} {e : Bytes × Nat} : Filled c' (names ++ [e]) →
      c'.buflen = c.buflen - (e.1.length + 1) →
      Follows c names (.ok (some (c'.cp, some e))) (.ok (.next c'))

section

variable {r : Resolver} {answer : Bytes} {eom : Nat} {c : Cursor} {names : List (Bytes × Nat)}

/-- What `dn_expand` writes at `bp`, and that it leaves the names before it alone. -/
theorem Filled.expand (hr : r.Lawful) (h : Filled c names) (cp : Nat) :
    ∃ buf, store c.hostBuf c.bp (r.expand (answer.take eom) cp c.buflen).1 = .ok buf ∧
      Filled { c with hostBuf := buf } names ∧
      flat names ++ (r.expand (answer.take eom) cp c.buflen).1 <+: buf := by
  have hroom := hr.room (answer.take eom) cp c.buflen h.room_nonneg
  have hbuf : ((hostBufSize : Nat) : Int) = 500 := rfl
  have hlast := h.room_eq
  have hfit : (flat names).length + (r.expand (answer.take eom) cp c.buflen).1.length ≤
      hostBufSize := by
    rw [← h.bp_eq]
    omega
  obtain ⟨buf, hstore, hlength, hstarts⟩ := store_after h.length_eq h.starts hfit
  rw [← h.bp_eq] at hstore
  refine ⟨buf, hstore, ⟨hlength, ?_, h.bp_eq, h.room_eq, h.room_nonneg, h.pmx_eq, h.plain,
    h.taken, h.few⟩, hstarts⟩
  exact (List.prefix_append ..).trans hstarts

theorem getShort_cases (answer : Bytes) (cp : Nat) :
    (∃ v, getShort answer cp = .ok v) ∨
      (getShort answer cp = .error .read ∧ answer.length < cp + 2) := by
  rw [getShort]
  by_cases hfit : cp + 2 ≤ answer.length
  · rw [if_pos hfit]
    exact Or.inl ⟨_, rfl⟩
  · rw [if_neg hfit]
    exact Or.inr ⟨rfl, by omega⟩

theorem getShort_error {cp : Nat} {f : Fault} (h : getShort answer cp = .error f) : f = .read := by
  rcases getShort_cases answer cp with ⟨v, hv⟩ | ⟨hread, -⟩
  · rw [hv] at h
    cases h
  · rw [hread] at h
    exact (Except.error.inj h).symm

/-- A name is added: it is in the buffer behind the others, and an entry for it is in the table. -/
theorem exchanger_follows (hr : r.Lawful) (h : Filled c names) {cp pref : Nat}
    (hcp : c.cp + 13 ≤ cp) (heom : eom ≤ packetSize) :
    Follows c names
      (.ok ((r.expand (answer.take eom) cp c.buflen).2.map fun n =>
        (cp + n, some (Bytes.cstr (r.expand (answer.take eom) cp c.buflen).1, pref))))
      (exchanger r answer eom c cp pref) := by
  obtain ⟨buf, hstore, hfilled, hstarts⟩ := @Filled.expand r answer eom c names hr h cp
  cases hresult : (r.expand (answer.take eom) cp c.buflen).2 with
  | none =>
    have hstop : exchanger r answer eom c cp pref = .ok (.stop { c with hostBuf := buf }) := by
      simp only [exchanger, hstore, hresult, bind, Except.bind, pure, Except.pure]
    rw [hstop]
    exact .stop hfilled
  | some n =>
    obtain ⟨hpos, hwithin⟩ := hr.taken _ _ _ _ hresult
    obtain ⟨name, hname, hnul⟩ := hr.name _ _ _ _ hresult
    have hroom := hr.room (answer.take eom) cp c.buflen h.room_nonneg
    rw [hname] at hstarts hroom
    rw [List.length_append, List.length_singleton] at hroom
    rw [List.length_take] at hwithin
    have hcstr : Bytes.cstr (name ++ [Bytes.nul]) = name := by
      rw [Buffer.cstr_append hnul, Buffer.cstr_nul_cons, List.append_nil]
    -- the name, its length as the code finds it, and the second terminator
    obtain ⟨tail, htail⟩ := hstarts
    have hlen : Storage.strlen (buf.drop c.bp) = name.length := by
      rw [Storage.strlen, h.bp_eq, ← htail, List.append_assoc, List.drop_left, List.append_assoc,
        Buffer.cstr_append hnul, List.singleton_append, Buffer.cstr_nul_cons, List.append_nil]
    have hlast := h.room_eq
    have hbuf : ((hostBufSize : Nat) : Int) = 500 := rfl
    have hbufNat : hostBufSize = 500 := rfl
    have hbp := h.bp_eq
    have hpre : flat names ++ name <+: buf := ⟨[Bytes.nul] ++ tail, by rw [← htail]; simp⟩
    obtain ⟨buf', hstore', hlength', hstarts'⟩ :=
      @store_after buf (flat names ++ name) [Bytes.nul] hfilled.length_eq hpre (by
        rw [List.length_append, List.length_singleton]
        omega)
    rw [List.length_append, ← h.bp_eq] at hstore'
    have hfew := h.few
    have htaken := h.taken
    have hentry : setEntry c.pmx (c.bp, pref) = .ok (c.pmx ++ [(c.bp, pref)]) := by
      rw [setEntry, if_pos]
      rw [h.pmx_eq, length_layout]
      have hsize : pmxSize = 62 := rfl
      have hpacket : packetSize = 512 := rfl
      omega
    have hnext : exchanger r answer eom c cp pref = .ok (.next ⟨cp + n, c.bp + name.length + 1,
        c.buflen - (name.length + 1), c.pmx ++ [(c.bp, pref)], buf'⟩) := by
      simp only [exchanger, hstore, hresult, hentry, hlen, hstore', bind, Except.bind, pure,
        Except.pure]
    have hflat : (flat (names ++ [(name, pref)])).length = c.bp + name.length + 1 := by
      rw [flat_append, List.length_append, List.length_append, List.length_singleton, h.bp_eq]
    have hlonger : (names ++ [(name, pref)]).length = names.length + 1 := by
      rw [List.length_append, List.length_singleton]
    have hmore : Filled ⟨cp + n, c.bp + name.length + 1, c.buflen - (name.length + 1),
        c.pmx ++ [(c.bp, pref)], buf'⟩ (names ++ [(name, pref)]) := by
      refine ⟨hlength', ?_, hflat.symm, ?_, ?_, ?_, ?_, ?_, ?_⟩
      · rwa [flat_append]
      · push_cast
        omega
      · dsimp only
        omega
      · rw [layout_append, h.pmx_eq, h.bp_eq, Nat.zero_add]
      · intro e he
        rcases List.mem_append.mp he with he | he
        · exact h.plain e he
        · rw [List.mem_singleton.mp he]
          exact hnul
      · rw [hlonger]
        dsimp only
        omega
      · rw [hlonger]
        omega
    rw [hnext, hname, hcstr]
    exact .add hmore rfl

theorem Follows.of_buflen {d : Cursor} {x : Except Fault (Option (Nat × Option (Bytes × Nat)))}
    {y : Except Fault Next} (h : Follows c names x y) (hbuflen : c.buflen = d.buflen) :
    Follows d names x y := by
  cases h with
  | fault => exact .fault
  | stop hfilled => exact .stop hfilled
  | skip hfilled hroom => exact .skip hfilled (hroom.trans hbuflen)
  | add hfilled hroom => exact .add hfilled (hbuflen ▸ hroom)

/-- A round of the loop does what its record says. -/
theorem record_follows (hr : r.Lawful) (h : Filled c names) (heom : eom ≤ packetSize) :
    Follows c names (plainRecord r answer eom c.cp c.buflen) (record r answer eom c) := by
  -- the first expansion writes the owner of the record where the next name is to go, so that it
  -- does not stay
  obtain ⟨buf, hstore, hfilled, -⟩ := @Filled.expand r answer eom c names hr h c.cp
  cases hresult : (r.expand (answer.take eom) c.cp c.buflen).2 with
  | none =>
    simp only [record, plainRecord, hstore, hresult, bind, Except.bind, pure, Except.pure]
    exact .stop hfilled
  | some n =>
    have hpos := (hr.taken _ _ _ _ hresult).1
    cases htype : getShort answer (c.cp + n) with
    | error f =>
      rw [getShort_error htype] at htype
      simp only [record, plainRecord, hstore, hresult, htype, bind, Except.bind]
      exact .fault
    | ok type =>
      cases hrdlength : getShort answer (c.cp + n + 8) with
      | error f =>
        rw [getShort_error hrdlength] at hrdlength
        simp only [record, plainRecord, hstore, hresult, htype, hrdlength, bind, Except.bind]
        exact .fault
      | ok rdlength =>
        -- a record of another type is skipped, and its owner is left behind as scratch
        by_cases hmx : type ≠ 15
        · simp only [record, plainRecord, hstore, hresult, htype, hrdlength, hmx, bind, Except.bind,
            pure, Except.pure, if_true, ne_eq, not_false_eq_true]
          have htaken := hfilled.taken
          have hlater : Filled { c with hostBuf := buf, cp := c.cp + n + 10 + rdlength } names :=
            ⟨hfilled.length_eq, hfilled.starts, hfilled.bp_eq, hfilled.room_eq,
              hfilled.room_nonneg, hfilled.pmx_eq, hfilled.plain,
              by dsimp only at htaken ⊢; omega, hfilled.few⟩
          exact .skip hlater rfl
        · cases hpref : getShort answer (c.cp + n + 10) with
          | error f =>
            rw [getShort_error hpref] at hpref
            simp only [record, plainRecord, hstore, hresult, htype, hrdlength, hmx, hpref, bind,
              Except.bind, if_false]
            exact .fault
          | ok pref =>
            have hfar : c.cp + 13 ≤ c.cp + n + 12 := by omega
            -- an MX record: the second expansion overwrites the owner with the exchanger
            have hexchanger := @exchanger_follows r answer eom _ names hr hfilled (c.cp + n + 12)
              pref hfar heom
            simp only [record, plainRecord, hstore, hresult, htype, hrdlength, hmx, hpref, bind,
              Except.bind, if_false]
            cases hname : (r.expand (answer.take eom) (c.cp + n + 12) c.buflen).2 with
            | none =>
              simp only [hname, Option.map_none] at hexchanger
              exact hexchanger.of_buflen rfl
            | some n' =>
              simp only [hname, Option.map_some] at hexchanger
              exact hexchanger.of_buflen rfl

/-- The loop gathers the exchangers of the records. -/
theorem records_spec (hr : r.Lawful) (heom : eom ≤ packetSize) (ancount : Nat)
    (h : Filled c names) :
    (∀ f, plainRecords r answer eom ancount c.cp c.buflen = .error f →
      records r answer eom ancount c = .error f) ∧
    (∀ more, plainRecords r answer eom ancount c.cp c.buflen = .ok more →
      ∃ c', records r answer eom ancount c = .ok c' ∧ Filled c' (names ++ more)) := by
  -- the invariant is `Filled`: table and buffer hold the names of the records so far
  induction ancount generalizing c names with
  | zero =>
    refine ⟨fun f hf => (by cases hf), fun more hmore => ⟨c, rfl, ?_⟩⟩
    cases hmore
    rwa [List.append_nil]
  | succ ancount ih =>
    rw [plainRecords, records]
    by_cases hend : eom ≤ c.cp
    · rw [if_pos hend, if_pos hend]
      refine ⟨fun f hf => (by cases hf), fun more hmore => ⟨c, rfl, ?_⟩⟩
      cases hmore
      rwa [List.append_nil]
    · rw [if_neg hend, if_neg hend]
      have hfollows := @record_follows r answer eom c names hr h heom
      generalize plainRecord r answer eom c.cp c.buflen = said at hfollows ⊢
      generalize record r answer eom c = done at hfollows ⊢
      cases hfollows with
      | fault =>
        refine ⟨fun f hf => ?_, fun more hmore => by cases hmore⟩
        cases hf
        rfl
      | @stop c' hfilled =>
        refine ⟨fun f hf => (by cases hf), fun more hmore => ⟨c', rfl, ?_⟩⟩
        cases hmore
        rwa [List.append_nil]
      -- the record gave no name, and the invariant is as it was
      | @skip c' hfilled hbuflen =>
        rw [← hbuflen]
        exact ih hfilled
      -- the record gave the name `e`, which is the last one now
      | @add c' e hfilled hbuflen =>
        obtain ⟨herror, hok⟩ := ih hfilled
        rw [hbuflen] at herror hok
        simp only [bind, Except.bind, pure, Except.pure]
        cases hrest : plainRecords r answer eom ancount c'.cp (c.buflen - (e.1.length + 1)) with
        | error f =>
          simp only [herror f hrest]
          refine ⟨fun f' hf => by cases hf; rfl, fun more hmore => by cases hmore⟩
        | ok rest =>
          obtain ⟨c'', hrecords, hfilled'⟩ := hok rest hrest
          refine ⟨fun f hf => (by cases hf), fun more hmore => ⟨c'', hrecords, ?_⟩⟩
          cases hmore
          rwa [List.append_assoc] at hfilled'

/-! ## The whole answer -/

/-- The table and the buffer hold the exchangers of the answer, in order, and nothing else, and no
write leaves them. -/
theorem getmxrecords_eq (hr : r.Lawful) (answer : Storage.Block packetSize)
    (hostBuf : Storage.Block hostBufSize) (found : Option Nat) :
    (getmxrecords r answer hostBuf found).map (·.map fun t => entries t.1 t.2) =
      plainMx r answer.val found := by
  cases found with
  | none => rfl
  | some n =>
    rw [getmxrecords, plainMx]
    cases hqdcount : getShort answer.val 4 with
    | error f => rfl
    | ok qdcount =>
      simp only [bind, Except.bind, pure, Except.pure]
      cases hquestions : questions r (answer.val.take (min n packetSize)) qdcount headerSize with
      | none => rfl
      | some cp =>
        cases hancount : getShort answer.val 6 with
        | error f => rfl
        | ok ancount =>
          -- before the loop the table is empty, whatever the buffer holds from the call before
          have hempty : Filled ⟨cp, 0, hostBufSize - 1, [], hostBuf.val⟩ [] :=
            ⟨hostBuf.property, List.nil_prefix, rfl, by simp,
              (by decide : (0 : Int) ≤ (hostBufSize : Nat) - 1), rfl, by simp,
              Nat.zero_le _, Nat.zero_le _⟩
          obtain ⟨herror, hok⟩ := @records_spec r answer.val (min n packetSize) _ [] hr
            (Nat.min_le_right ..) ancount hempty
          dsimp only at herror hok ⊢
          cases hplain : plainRecords r answer.val (min n packetSize) ancount cp
              (hostBufSize - 1) with
          | error f =>
            rw [herror f hplain]
            rfl
          | ok names =>
            obtain ⟨c, hrecords, hfilled⟩ := hok names hplain
            rw [List.nil_append] at hfilled
            -- a record takes fourteen bytes of the packet, so that there are fewer of them than
            -- entries
            have hfew := hfilled.few
            have hsize : c.pmx.length < pmxSize := by
              rw [hfilled.pmx_eq, length_layout]
              have hpmx : pmxSize = 62 := rfl
              have hpacket : packetSize = 512 := rfl
              omega
            have hentries : entries c.pmx c.hostBuf = names := by
              rw [hfilled.pmx_eq]
              exact entries_layout hfilled.plain hfilled.starts
            rw [hrecords]
            simp only [setEntry, if_pos hsize, Except.map, Option.map_some, hentries]

/-- A record that lies within what was found is read within the answer if twelve bytes follow. -/
theorem plainRecord_cases (hr : r.Lawful) (answer : Bytes) (eom cp : Nat) (room : Int) :
    (∃ x, plainRecord r answer eom cp room = .ok x) ∨
      (plainRecord r answer eom cp room = .error .read ∧ answer.length < eom + 12) := by
  rw [plainRecord]
  cases hresult : (r.expand (answer.take eom) cp room).2 with
  | none => exact Or.inl ⟨_, rfl⟩
  | some n =>
    have hwithin := (hr.taken _ _ _ _ hresult).2
    rw [List.length_take] at hwithin
    simp only [bind, Except.bind, pure, Except.pure]
    rcases getShort_cases answer (cp + n) with ⟨type, htype⟩ | ⟨hread, hshort⟩
    · rcases getShort_cases answer (cp + n + 8) with ⟨rdlength, hrdlength⟩ | ⟨hread, hshort⟩
      · rw [htype, hrdlength]
        by_cases hmx : type ≠ 15
        · exact Or.inl ⟨_, if_pos hmx⟩
        · rcases getShort_cases answer (cp + n + 10) with ⟨pref, hpref⟩ | ⟨hread, hshort⟩
          · rw [hpref]
            simp only [if_neg hmx]
            cases (r.expand (answer.take eom) (cp + n + 12) room).2 with
            | none => exact Or.inl ⟨_, rfl⟩
            | some n' => exact Or.inl ⟨_, rfl⟩
          · rw [hread]
            exact Or.inr ⟨if_neg hmx, by omega⟩
      · rw [htype, hread]
        exact Or.inr ⟨rfl, by omega⟩
    · rw [hread]
      exact Or.inr ⟨rfl, by omega⟩

theorem plainRecords_cases (hr : r.Lawful) (answer : Bytes) (eom ancount cp : Nat) (room : Int) :
    (∃ names, plainRecords r answer eom ancount cp room = .ok names) ∨
      (plainRecords r answer eom ancount cp room = .error .read ∧ answer.length < eom + 12) := by
  induction ancount generalizing cp room with
  | zero => exact Or.inl ⟨[], rfl⟩
  | succ ancount ih =>
    rw [plainRecords]
    by_cases hend : eom ≤ cp
    · exact Or.inl ⟨[], if_pos hend⟩
    · rw [if_neg hend]
      rcases plainRecord_cases hr answer eom cp room with ⟨x, hx⟩ | ⟨hread, hshort⟩
      · rw [hx]
        rcases x with _ | ⟨cp', _ | e⟩
        · exact Or.inl ⟨[], rfl⟩
        · exact ih cp' room
        · rcases ih cp' (room - (e.1.length + 1)) with ⟨names, hnames⟩ | ⟨hread, hshort⟩
          · refine Or.inl ⟨e :: names, ?_⟩
            simp only [bind, Except.bind, hnames, pure, Except.pure]
          · refine Or.inr ⟨?_, hshort⟩
            simp only [bind, Except.bind, hread]
      · rw [hread]
        exact Or.inr ⟨rfl, hshort⟩

/-- The only access out of bounds there can be is a read beyond the answer, and only for an answer
that ends less than twelve bytes before the end of its array. -/
theorem getmxrecords_error (hr : r.Lawful) {answer : Storage.Block packetSize}
    {hostBuf : Storage.Block hostBufSize} {found : Option Nat} {f : Fault}
    (h : getmxrecords r answer hostBuf found = .error f) :
    f = .read ∧ ∃ n, found = some n ∧ 500 < n := by
  have hplain := getmxrecords_eq hr answer hostBuf found
  rw [h] at hplain
  have hlength := answer.property
  have hpacket : packetSize = 512 := rfl
  cases found with
  | none => cases hplain
  | some n =>
    rw [plainMx] at hplain
    -- each read is of the packet, and can be beyond it only where less than twelve bytes are left
    rcases getShort_cases answer.val 4 with ⟨qdcount, hqdcount⟩ | ⟨-, hshort⟩
    · rw [hqdcount] at hplain
      simp only [bind, Except.bind, pure, Except.pure] at hplain
      cases hquestions : questions r (answer.val.take (min n packetSize)) qdcount headerSize with
      | none =>
        rw [hquestions] at hplain
        cases hplain
      | some cp =>
        rw [hquestions] at hplain
        rcases getShort_cases answer.val 6 with ⟨ancount, hancount⟩ | ⟨-, hshort⟩
        · rw [hancount] at hplain
          rcases plainRecords_cases hr answer.val (min n packetSize) ancount cp
            (hostBufSize - 1) with ⟨names, hnames⟩ | ⟨hread, hshort⟩
          · simp only [hnames] at hplain
            cases hplain
          · simp only [hread] at hplain
            refine ⟨Except.error.inj hplain, n, rfl, ?_⟩
            omega
        · omega
    · omega

/-! ## A resolver library -/

/-- The name at a place of a message, and how many bytes it takes there: labels with their
lengths up to a zero, or up to the place where the rest of the name stands. -/
def nameAt : (fuel : Nat) → (message : Bytes) → (cp : Nat) → Option (Bytes × Nat)
  | 0, _, _ => none
  | fuel + 1, message, cp =>
    let n := (message.getD cp 0).toNat
    if message.length ≤ cp then none
    else if n = 0 then some ([], 1)
    else if 192 ≤ n then
      if message.length ≤ cp + 1 then none
      else (nameAt fuel message ((n - 192) * 256 + (message.getD (cp + 1) 0).toNat)).map fun x =>
        (x.1, 2)
    else
      let label := (message.drop (cp + 1)).take n
      if Bytes.nul ∈ label then none
      else (nameAt fuel message (cp + 1 + n)).map fun x =>
        (label ++ (if x.1 = [] then [] else Bytes.dot :: x.1), 1 + n + x.2)

theorem nameAt_spec {fuel : Nat} {message name : Bytes} {cp n : Nat}
    (h : nameAt fuel message cp = some (name, n)) :
    0 < n ∧ cp + n ≤ message.length ∧ Bytes.nul ∉ name := by
  induction fuel generalizing cp name n with
  | zero => cases h
  | succ fuel ih =>
    rw [nameAt] at h
    dsimp only at h
    split_ifs at h with hend hroot hpointer hshort hnul
    · cases h
      exact ⟨Nat.one_pos, by omega, List.not_mem_nil⟩
    · obtain ⟨x, hx, heq⟩ := Option.map_eq_some_iff.mp h
      cases heq
      exact ⟨Nat.two_pos, by omega, (ih hx).2.2⟩
    · obtain ⟨x, hx, heq⟩ := Option.map_eq_some_iff.mp h
      cases heq
      obtain ⟨hpos, hwithin, hrest⟩ := ih hx
      refine ⟨by omega, by omega, ?_⟩
      rw [List.mem_append, not_or]
      refine ⟨hnul, ?_⟩
      by_cases hlast : x.1 = []
      · rw [if_pos hlast]
        exact List.not_mem_nil
      · rw [if_neg hlast, List.mem_cons, not_or]
        exact ⟨by decide, hrest⟩

/-- A resolver library that follows as many labels as a name of 255 bytes can have. -/
def labelResolver : Resolver where
  skipname message cp := (nameAt 128 message cp).map (·.2)
  expand message cp buflen :=
    match nameAt 128 message cp with
    | none => ([], none)
    | some (name, n) =>
      if name.length + 1 ≤ buflen then (name ++ [Bytes.nul], some n) else ([], none)

/-- What it expands. -/
theorem labelResolver_expand {message : Bytes} {cp : Nat} {buflen : Int} {n : Nat}
    (h : (labelResolver.expand message cp buflen).2 = some n) :
    ∃ name, nameAt 128 message cp = some (name, n) ∧
      (labelResolver.expand message cp buflen).1 = name ++ [Bytes.nul] := by
  cases hname : nameAt 128 message cp with
  | none =>
    simp only [labelResolver, hname] at h
    cases h
  | some x =>
    by_cases hfit : (x.1.length : Int) + 1 ≤ buflen
    · simp only [labelResolver, hname, if_pos hfit, Option.some.injEq] at h ⊢
      exact ⟨x.1, by rw [← h], rfl⟩
    · simp only [labelResolver, hname, if_neg hfit] at h
      cases h

theorem labelResolver_lawful : labelResolver.Lawful where
  room message cp buflen hroom := by
    cases hname : nameAt 128 message cp with
    | none =>
      simp only [labelResolver, hname]
      exact hroom
    | some x =>
      by_cases hfit : (x.1.length : Int) + 1 ≤ buflen
      · simp only [labelResolver, hname, if_pos hfit, List.length_append, List.length_singleton]
        exact_mod_cast hfit
      · simp only [labelResolver, hname, if_neg hfit]
        exact hroom
  taken message cp buflen n hn := by
    obtain ⟨name, hname, -⟩ := labelResolver_expand hn
    exact ⟨(nameAt_spec hname).1, (nameAt_spec hname).2.1⟩
  name message cp buflen n hn := by
    obtain ⟨name, hname, hwritten⟩ := labelResolver_expand hn
    exact ⟨name, hwritten, (nameAt_spec hname).2.2⟩

/-- A name of four labels with 61 letters each. -/
def longLabel : Bytes := 61 :: List.replicate 61 108

/-- The start of a record for the name in the question, and the length of what follows. -/
def recordHead (type rdlength : UInt8) : Bytes :=
  [192, 12, 0, type, 0, 1, 0, 0, 0, 60, 0, rdlength]

set_option maxRecDepth 4000 in
/-- Four records for `a.org`: the exchanger `mx.a.org`, an address, an exchanger with a name of 247
letters, and one whose name is three letters longer, for which the buffer has no room any more. -/
def mxAnswer : Storage.Block packetSize :=
  ⟨[0, 7, 129, 128, 0, 1, 0, 4, 0, 0, 0, 0] ++ (1 :: 97 :: 3 :: Bytes.lit "org") ++
      [0, 0, 15, 0, 1] ++
    recordHead 15 7 ++ (0 :: 20 :: 2 :: Bytes.lit "mx") ++ [192, 12] ++
    recordHead 1 4 ++ [192, 0, 2, 7] ++
    recordHead 15 251 ++ [0, 10] ++ (List.replicate 4 longLabel).flatten ++ [0] ++
    recordHead 15 8 ++ (0 :: 30 :: 3 :: Bytes.lit "mx2") ++ [192, 72] ++
    List.replicate 171 0, by rw [List.length_append, List.length_replicate]; rfl⟩

/-- A record that ends one byte before the end of the array, and the name of the next one. -/
def longAnswer : Storage.Block packetSize :=
  ⟨[0, 0, 0, 0, 0, 0, 0, 2, 0, 0, 0, 0] ++ [0, 0, 1, 0, 1, 0, 0, 0, 0, 1, 232] ++
    List.replicate 489 0, by rw [List.length_append, List.length_replicate]; rfl⟩

/-- `MXHostBuf` of a program that has just started -/
def emptyHostBuf : Storage.Block hostBufSize := ⟨List.replicate 500 0, List.length_replicate⟩

/-- The name of 247 letters. -/
def longName : Bytes := [Bytes.dot].intercalate (List.replicate 4 (List.replicate 61 108))

set_option maxRecDepth 8000 in
theorem getmxrecords_eq_sample :
    (getmxrecords labelResolver mxAnswer emptyHostBuf (some 341)).map
        (·.map fun t => entries t.1 t.2) =
      .ok (some [(Bytes.lit "mx.a.org", 20), (longName, 10)]) :=
  (getmxrecords_eq labelResolver_lawful mxAnswer emptyHostBuf (some 341)).trans (by decide +kernel)

set_option maxRecDepth 8000 in
theorem getmxrecords_error_sample :
    getmxrecords labelResolver longAnswer emptyHostBuf (some 512) = .error .read ∧
      ∃ n, some 512 = some n ∧ 500 < n := by
  have h : getmxrecords labelResolver longAnswer emptyHostBuf (some 512) = .error .read := rfl
  exact ⟨h, (getmxrecords_error labelResolver_lawful h).2⟩

end

end Fetchmail.Dns
