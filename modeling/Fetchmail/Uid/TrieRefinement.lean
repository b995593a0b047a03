import Fetchmail.Uid.TrieInsert

/-!
# The UID Database Refines a List

What the search tree, the lists of records with one UID and the list of all records hold
together stand for: the UIDs in the order of their insertion. An insertion always comes to
an end and appends its UID, and the search functions find the first and the last record of a
UID.
-/

namespace Fetchmail.Uid

open Fetchmail.Lib Patricia

/-! ## Positions in a list -/

/-- The first position of a UID. -/
def IsFirst (ids : List Bytes) (id : Bytes) (j : Nat) : Prop :=
  ids[j]? = some id ∧ ∀ j' < j, ids[j']? ≠ some id

/-- The last position of a UID. -/
def IsLast (ids : List Bytes) (id : Bytes) (j : Nat) : Prop :=
  ids[j]? = some id ∧ ∀ j', j < j' → ids[j']? ≠ some id

/-- The next position of the UID at `j`. -/
def IsNext (ids : List Bytes) (j : Nat) : Option Nat → Prop
  | none => ∀ j', j < j' → ids[j']? ≠ ids[j]?
  | some j' => j < j' ∧ ids[j']? = ids[j]? ∧ ∀ m, j < m → m < j' → ids[m]? ≠ ids[j]?

theorem getElem?_append_of_some {ids : List Bytes} {id id' : Bytes} {j : Nat}
    (h : ids[j]? = some id) : (ids ++ [id'])[j]? = some id := by
  rw [List.getElem?_append_left (List.getElem?_eq_some_iff.mp h).1, h]

theorem IsFirst.append {ids : List Bytes} {id : Bytes} {j : Nat} (h : IsFirst ids id j)
    (id' : Bytes) : IsFirst (ids ++ [id']) id j := by
  obtain ⟨hj, hbefore⟩ := h
  have hlt := (List.getElem?_eq_some_iff.mp hj).1
  refine ⟨getElem?_append_of_some hj, fun j' hj' => ?_⟩
  rw [List.getElem?_append_left (Nat.lt_trans hj' hlt)]
  exact hbefore j' hj'

theorem IsFirst.mem {ids : List Bytes} {id : Bytes} {j : Nat} (h : IsFirst ids id j) : id ∈ ids :=
  List.mem_of_getElem? h.1

theorem IsFirst.unique {ids : List Bytes} {id : Bytes} {i j : Nat} (h : IsFirst ids id i)
    (h' : IsFirst ids id j) : i = j := by
  rcases Nat.lt_trichotomy i j with hlt | heq | hgt
  · exact absurd h.1 (h'.2 i hlt)
  · exact heq
  · exact absurd h'.1 (h.2 j hgt)

theorem IsLast.unique {ids : List Bytes} {id : Bytes} {i j : Nat} (h : IsLast ids id i)
    (h' : IsLast ids id j) : i = j := by
  rcases Nat.lt_trichotomy i j with hlt | heq | hgt
  · exact absurd h'.1 (h.2 j hlt)
  · exact heq
  · exact absurd h.1 (h'.2 i hgt)

/-- A new UID behind does not change the next position, unless it is the first that follows. -/
theorem IsNext.append {ids : List Bytes} {j : Nat} {o : Option Nat} {id : Bytes}
    (h : IsNext ids j o) (hj : j < ids.length) (hid : o = none → ids[j]? ≠ some id) :
    IsNext (ids ++ [id]) j o := by
  have hsame : (ids ++ [id])[j]? = ids[j]? := List.getElem?_append_left hj
  cases o with
  | none =>
    intro j' hj'
    rcases Nat.lt_trichotomy j' ids.length with hlt | rfl | hgt
    · rw [hsame, List.getElem?_append_left hlt]
      exact h j' hj'
    · rw [hsame]
      simpa using (hid rfl).symm
    · rw [hsame, List.getElem?_eq_none (by simp; omega), List.getElem?_eq_getElem hj]
      simp
  | some j' =>
    obtain ⟨hlt, heq, hbetween⟩ := h
    have hj' : j' < ids.length := by
      rw [List.getElem?_eq_getElem hj] at heq
      exact (List.getElem?_eq_some_iff.mp heq).1
    rw [IsNext, hsame, List.getElem?_append_left hj']
    refine ⟨hlt, heq, fun m hm hm' => ?_⟩
    rw [List.getElem?_append_left (by omega)]
    exact hbetween m hm hm'

theorem isNext_end (ids : List Bytes) (id : Bytes) : IsNext (ids ++ [id]) ids.length none := by
  intro j' hj'
  rw [List.getElem?_eq_none (by simp; omega)]
  simp

/-! ## The representation -/

/-- The UID of a node. -/
def nodeId (nodes : List PatNode) (ids : List Bytes) (n : Nat) : Bytes :=
  (nodes[n]?.bind fun np => ids[np.record]?).getD []

/-- The key of an entry: the null pointer stands for zeros. -/
def entryKey (nodes : List PatNode) (ids : List Bytes) (b : Option Nat) : Bits :=
  idBits (b.elim [] (nodeId nodes ids))

/-- The database holds the UIDs. -/
structure Represents (db : TrieDb) (ids : List Bytes) (t : Trie) : Prop where
  heap_ids : db.heap.map (·.id) = ids
  heap : ∀ (j : Nat) (r : UidRecord), db.heap[j]? = some r → r.pos = j ∧ IsNext ids j r.next
  records : db.records = List.range ids.length
  root : db.patRoot = ptr t
  linked : Linked db.nodes none 0 t
  nodes : t.nodes.Perm (List.range db.nodes.length)
  leaves : t.leaves.Perm (none :: t.nodes.map some)
  ordered : t.Ordered (entryKey db.nodes ids)
  first : ∀ (n : Nat) (np : PatNode), db.nodes[n]? = some np →
    ∃ id, IsFirst ids id np.record ∧ nodeId db.nodes ids n = id
  covered : ∀ id ∈ ids, ∃ n < db.nodes.length, nodeId db.nodes ids n = id

theorem represents_init : Represents TrieDb.initUidDb [] (.leaf none) where
  heap_ids := rfl
  heap _ _ h := by cases h
  records := rfl
  root := rfl
  linked _ h := by cases h
  nodes := .refl _
  leaves := .refl _
  ordered := trivial
  first _ _ h := by cases h
  covered _ h := by cases h

section

variable {db : TrieDb} {ids : List Bytes} {t : Trie} {id : Bytes}

theorem Represents.heap_length (h : Represents db ids t) : db.heap.length = ids.length := by
  rw [← h.heap_ids, List.length_map]

theorem Represents.getElem?_heap (h : Represents db ids t) {j : Nat} (hj : ids[j]? = some id) :
    ∃ r, db.heap[j]? = some r ∧ r.id = id := by
  rw [← h.heap_ids, List.getElem?_map] at hj
  cases hr : db.heap[j]? with
  | none => rw [hr] at hj; cases hj
  | some r =>
    rw [hr] at hj
    cases hj
    exact ⟨r, rfl, rfl⟩

theorem Represents.mem_nodes (h : Represents db ids t) {n : Nat} :
    n ∈ t.nodes ↔ n < db.nodes.length := by
  rw [h.nodes.mem_iff, List.mem_range]

theorem Represents.nodup (h : Represents db ids t) : t.nodes.Nodup :=
  h.nodes.nodup_iff.mpr List.nodup_range

theorem Represents.length_nodes (h : Represents db ids t) : t.nodes.length = db.nodes.length := by
  rw [h.nodes.length_eq, List.length_range]

/-- The search for a UID that is there ends at its node. -/
theorem Represents.search_mem (h : Represents db ids t) (hids : ∀ id ∈ ids, IsId id)
    (hid : id ∈ ids) : ∃ c np, t.search (idBits id) = some c ∧ db.nodes[c]? = some np ∧
      IsFirst ids id np.record := by
  obtain ⟨n, hn, hnid⟩ := h.covered id hid
  have hkey : entryKey db.nodes ids (some n) = idBits id := by
    rw [entryKey, Option.elim, hnid]
  have hleaf : some n ∈ t.leaves := by
    rw [h.leaves.mem_iff]
    exact List.mem_cons_of_mem _ (List.mem_map_of_mem (h.mem_nodes.mpr hn))
  have hfound := key_search h.ordered hleaf
  rw [hkey] at hfound
  have hsearch := Patricia.search_mem (idBits id) t
  rw [h.leaves.mem_iff] at hsearch
  rcases List.mem_cons.mp hsearch with hnone | hsome
  · -- no UID has no bits
    rw [hnone] at hfound
    have hdiff := firstDiff_nil (hids id hid)
    exact absurd (congrFun hfound _).symm hdiff.2
  · obtain ⟨c, hc, heq⟩ := List.mem_map.mp hsome
    obtain ⟨np, hnp⟩ := h.linked.exists_node c hc
    obtain ⟨id', hfirst, hcid⟩ := h.first c np hnp
    rw [← heq, entryKey, Option.elim, hcid] at hfound
    have hsame := idBits_inj (hids id' hfirst.mem) (hids id hid) hfound
    exact ⟨c, np, heq.symm, hnp, hsame ▸ hfirst⟩

/-! ## Lists of records with one UID -/

/-- The loop of `last_uid_in_db` ends at the last record. -/
theorem lastLoop_spec {heap : List UidRecord} (hheap : ∀ (j : Nat) (r : UidRecord),
    j < ids.length → heap[j]? = some r → IsNext ids j r.next) (hlength : ids.length ≤ heap.length) (fuel : Nat) :
    ∀ {j : Nat}, ids[j]? = some id → ids.length ≤ j + fuel →
      ∃ q, TrieDb.lastLoop heap fuel j = some q ∧ IsLast ids id q := by
  induction fuel with
  | zero =>
    intro j hj hfuel
    have hlt := (List.getElem?_eq_some_iff.mp hj).1
    omega
  | succ fuel ih =>
    intro j hj hfuel
    have hlt := (List.getElem?_eq_some_iff.mp hj).1
    obtain ⟨r, hr⟩ : ∃ r, heap[j]? = some r :=
      ⟨_, List.getElem?_eq_getElem (hlt.trans_le hlength)⟩
    have hnext := hheap j r hlt hr
    rw [TrieDb.lastLoop, hr]
    simp only [Option.bind_eq_bind, Option.bind_some]
    cases ho : r.next with
    | none =>
      rw [ho] at hnext
      exact ⟨j, rfl, hj, fun j' hj' => hj ▸ hnext j' hj'⟩
    | some j' =>
      rw [ho] at hnext
      obtain ⟨hgt, hsame, -⟩ := hnext
      exact ih (hsame.trans hj) (by omega)

/-- `append_to_list` changes the record where the loop ends. -/
theorem appendToList_spec {heap : List UidRecord} (rec : Nat) (fuel : Nat) : ∀ {j q : Nat},
    TrieDb.lastLoop heap fuel j = some q → TrieDb.appendToList heap rec fuel j =
      some ((heap.modify q fun r => { r with next := some rec }).modify rec
        fun r => { r with next := none }) := by
  induction fuel with
  | zero => exact fun h => by cases h
  | succ fuel ih =>
    intro j q h
    rw [TrieDb.lastLoop] at h
    rw [TrieDb.appendToList]
    cases hr : heap[j]? with
    | none => rw [hr] at h; cases h
    | some r =>
      rw [hr] at h
      simp only [Option.bind_eq_bind, Option.bind_some] at h ⊢
      cases ho : r.next with
      | none =>
        rw [ho] at h
        cases h
        rfl
      | some next =>
        rw [ho] at h
        exact ih h

/-! ## Insertion -/

/-- The record is there, and not yet in the tree. -/
def withRecord (db : TrieDb) (id : Bytes) (status : Mark) (recordsMax : Nat) : TrieDb :=
  { db with
    heap := db.heap ++ [⟨id, 0, status, db.records.length, none⟩]
    records := db.records ++ [db.heap.length]
    recordsMax }

theorem uidDbInsert_eq (db : TrieDb) (id : Bytes) (status : Mark) : ∃ recordsMax,
    db.uidDbInsert id status = (withRecord db id status recordsMax).patInsert db.heap.length := by
  refine ⟨if db.records.length = db.recordsMax then db.recordsMax * 2 else db.recordsMax, ?_⟩
  have hheap : (db.heap ++ [(⟨id, 0, status, 0, none⟩ : UidRecord)]).modify db.heap.length
      (fun r => { r with pos := db.records.length }) =
        db.heap ++ [⟨id, 0, status, db.records.length, none⟩] := modify_concat _ _ _
  simp only [TrieDb.uidDbInsert, TrieDb.getUidDbRecord, TrieDb.insertIntoRecords,
    TrieDb.modifyRecord, hheap]
  rfl

/-- The list of the records with their UIDs goes on as the UIDs do. -/
theorem Represents.entries (h : Represents db ids t) (id' : Bytes) {nodes' : List PatNode}
    (hold : ∀ (n : Nat) (np : PatNode), db.nodes[n]? = some np →
      ∃ np' : PatNode, nodes'[n]? = some np' ∧ np'.record = np.record) {n : Nat}
    (hn : n < db.nodes.length) : nodeId nodes' (ids ++ [id']) n = nodeId db.nodes ids n := by
  have hnp : db.nodes[n]? = some db.nodes[n] := List.getElem?_eq_getElem hn
  obtain ⟨np', hnp', hrec⟩ := hold n _ hnp
  obtain ⟨id₀, hfirst, -⟩ := h.first n _ hnp
  rw [nodeId, nodeId, hnp, hnp']
  simp only [Option.bind_some]
  rw [hrec, hfirst.1, getElem?_append_of_some hfirst.1]

/-- Where the nodes keep their UIDs, the leaves keep their keys. -/
theorem Represents.entryKey_eq (h : Represents db ids t) {nodes' : List PatNode}
    {ids' : List Bytes}
    (hentries : ∀ n < db.nodes.length, nodeId nodes' ids' n = nodeId db.nodes ids n) :
    ∀ b ∈ t.leaves, entryKey nodes' ids' b = entryKey db.nodes ids b := by
  intro b hb
  rw [h.leaves.mem_iff] at hb
  rcases List.mem_cons.mp hb with rfl | hb
  · rfl
  · obtain ⟨n, hn, rfl⟩ := List.mem_map.mp hb
    rw [entryKey, entryKey, Option.elim, Option.elim, hentries n (h.mem_nodes.mp hn)]

/-- A UID that is new gets a branch where its key differs from the one that was found. -/
theorem Represents.grow (h : Represents db ids t) (hids : ∀ id ∈ ids, IsId id)
    {db' : TrieDb} (status : Mark) {d : Nat} {edge : Option (Nat × Bool)} {below : Trie}
    (hdiff : FirstDiff (idBits id) (entryKey db.nodes ids (t.search (idBits id))) d)
    (hplace : t.place (idBits id) d none = (edge, below))
    (hgrafted : Grafted db.nodes db'.nodes edge below (idBits id) d db.nodes.length ids.length)
    (hlength : db'.nodes.length = db.nodes.length + 1)
    (hheap : db'.heap = db.heap ++ [⟨id, 0, status, db.records.length, none⟩])
    (hrecords : db'.records = db.records ++ [db.heap.length])
    (hroot : db'.patRoot = if edge = none then some db.nodes.length else db.patRoot) :
    Represents db' (ids ++ [id])
      (t.insert (idBits id) d db.nodes.length (some db.nodes.length)) := by
  -- the first bit that differs shows that the id is new
  have hnew : id ∉ ids := by
    intro hid
    obtain ⟨c, np, hc, hnp, hfirst⟩ := h.search_mem hids hid
    obtain ⟨id', hfirst', hcid⟩ := h.first c np hnp
    have hsame : id' = id := by
      have heq := hfirst'.1
      rw [hfirst.1] at heq
      exact (Option.some.inj heq).symm
    rw [hc, entryKey, Option.elim, hcid, hsame] at hdiff
    exact hdiff.2 rfl
  have hfresh : db.nodes.length ∉ t.nodes := fun hmem => Nat.lt_irrefl _ (h.mem_nodes.mp hmem)
  have hnone : db.nodes[db.nodes.length]? = none := List.getElem?_eq_none (Nat.le_refl _)
  have hold : ∀ (n : Nat) (np : PatNode), db.nodes[n]? = some np →
      ∃ np' : PatNode, db'.nodes[n]? = some np' ∧ np'.record = np.record := by
    intro n np hn
    have hne : n ≠ db.nodes.length := Nat.ne_of_lt (List.getElem?_eq_some_iff.mp hn).1
    exact ⟨adjust edge below db.nodes.length n np, by rw [hgrafted.old n hne, hn]; rfl, rfl⟩
  have hentries : ∀ n < db.nodes.length, nodeId db'.nodes (ids ++ [id]) n = nodeId db.nodes ids n :=
    fun n hn => h.entries id hold hn
  have hself : nodeId db'.nodes (ids ++ [id]) db.nodes.length = id := by
    rw [nodeId, hgrafted.new]
    simp
  have hkey : ∀ b ∈ t.leaves, entryKey db'.nodes (ids ++ [id]) b = entryKey db.nodes ids b :=
    h.entryKey_eq hentries
  obtain ⟨-, hedge⟩ := place_cases (idBits id) d db.nodes.length t hplace
  have hheaplen := h.heap_length
  constructor
  · rw [hheap, List.map_append, h.heap_ids]
    rfl
  · intro j r hr
    rw [hheap] at hr
    rcases Nat.lt_or_ge j db.heap.length with hlt | hge
    · rw [List.getElem?_append_left hlt] at hr
      obtain ⟨hpos, hnext⟩ := h.heap j r hr
      refine ⟨hpos, hnext.append (by omega) fun _ hj => ?_⟩
      exact hnew (List.mem_of_getElem? hj)
    · have hj : j = ids.length := by
        have hlt := (List.getElem?_eq_some_iff.mp hr).1
        rw [List.length_append, List.length_singleton] at hlt
        omega
      subst hj
      rw [← hheaplen, List.getElem?_concat_length] at hr
      cases hr
      exact ⟨by rw [h.records, List.length_range], isNext_end ids id⟩
  · rw [hrecords, h.records, hheaplen, List.length_append, List.length_singleton, List.range_succ]
  · rw [hroot]
    rcases hedge with ⟨rfl, -, hins⟩ | ⟨p, s, rfl, -, hins⟩
    · rw [hins, ptr_graft, if_pos rfl]
    · rw [hins, if_neg (by simp), h.root]
  · exact Linked.insert (idBits id) t h.linked h.nodup hfresh hnone (Nat.zero_le d) rfl
      (fun p s hp => by cases hp) h.ordered hdiff hplace hgrafted
  · rw [hlength, List.range_succ]
    exact (nodes_insert.trans (h.nodes.cons _)).trans (List.perm_append_singleton _ _).symm
  · have hleaves := (leaves_insert (k := idBits id) (d := d) (a := db.nodes.length)
      (b := some db.nodes.length) (t := t)).trans (h.leaves.cons _)
    refine hleaves.trans ((List.Perm.swap _ _ _).trans (List.Perm.cons _ ?_))
    exact (nodes_insert.map some).symm
  · refine (h.ordered.congr hkey).insert ?_ ?_
    · rw [entryKey, Option.elim, hself]
    · rw [hkey _ (Patricia.search_mem _ _)]
      exact hdiff
  · intro n np hn
    by_cases hne : n = db.nodes.length
    · subst hne
      rw [hgrafted.new] at hn
      cases hn
      refine ⟨id, ⟨by simp, fun j' hj' => ?_⟩, hself⟩
      rw [List.getElem?_append_left hj']
      exact fun heq => hnew (List.mem_of_getElem? heq)
    · rw [hgrafted.old n hne] at hn
      cases hn' : db.nodes[n]? with
      | none => rw [hn'] at hn; cases hn
      | some np' =>
        rw [hn'] at hn
        cases hn
        obtain ⟨id', hfirst, hid'⟩ := h.first n np' hn'
        exact ⟨id', hfirst.append id, by
          rw [hentries n (List.getElem?_eq_some_iff.mp hn').1, hid']⟩
  · intro id' hid'
    rcases List.mem_append.mp hid' with hid' | hid'
    · obtain ⟨n, hn, heq⟩ := h.covered id' hid'
      exact ⟨n, by omega, by rw [hentries n hn, heq]⟩
    · obtain rfl := List.mem_singleton.mp hid'
      exact ⟨db.nodes.length, by omega, hself⟩

/-- A UID that is there already goes behind its last record. -/
theorem Represents.again (h : Represents db ids t) (status : Mark) (recordsMax : Nat) {q : Nat}
    (hlast : IsLast ids id q) :
    Represents { withRecord db id status recordsMax with
      heap := ((withRecord db id status recordsMax).heap.modify q fun r =>
        { r with next := some db.heap.length }).modify db.heap.length
          fun r => { r with next := none } } (ids ++ [id]) t := by
  have hheaplen := h.heap_length
  have hq : q < db.heap.length := hheaplen ▸ (List.getElem?_eq_some_iff.mp hlast.1).1
  have hmem : id ∈ ids := List.mem_of_getElem? hlast.1
  -- no node is added, so the trie and its keys stay
  have hentries : ∀ n < db.nodes.length, nodeId db.nodes (ids ++ [id]) n = nodeId db.nodes ids n :=
    fun n hn => h.entries id (fun n np hnp => ⟨np, hnp, rfl⟩) hn
  have hkey : ∀ b ∈ t.leaves, entryKey db.nodes (ids ++ [id]) b = entryKey db.nodes ids b :=
    h.entryKey_eq hentries
  constructor
  · have hmodify : ∀ (o : Option Nat) (i : Nat) (heap : List UidRecord),
        (heap.modify i fun r => { r with next := o }).map (·.id) = heap.map (·.id) :=
      fun o i heap => map_modify_eq (by exact fun _ => rfl) i heap
    simp only [hmodify, withRecord, List.map_append, h.heap_ids]
    rfl
  · intro j r hr
    simp only [withRecord, List.getElem?_modify] at hr
    rcases Nat.lt_or_ge j db.heap.length with hlt | hge
    · rw [List.getElem?_append_left hlt, List.getElem?_eq_getElem hlt] at hr
      obtain ⟨hpos, hnext⟩ := h.heap j _ (List.getElem?_eq_getElem hlt)
      simp only [Option.map_eq_map, Option.map_some, if_neg (Nat.ne_of_gt hlt), Option.some.injEq] at hr
      by_cases hqj : q = j
      · -- the last record so far
        rw [if_pos hqj] at hr
        subst hqj hr
        refine ⟨hpos, by simpa using hlt, ?_, fun m hm hm' => ?_⟩
        · rw [getElem?_append_of_some hlast.1, hheaplen]
          simp
        · rw [getElem?_append_of_some hlast.1, List.getElem?_append_left (by omega)]
          exact hlast.2 m hm
      · rw [if_neg hqj] at hr
        subst hr
        refine ⟨hpos, hnext.append (by omega) fun hnone hj => hqj ?_⟩
        rw [hnone] at hnext
        exact hlast.unique ⟨hj, fun j' hj' => hj ▸ hnext j' hj'⟩
    -- the record that was added
    · have hj : j = db.heap.length := by
        by_contra hne
        rw [List.getElem?_eq_none (by simp; omega)] at hr
        cases hr
      subst hj
      rw [List.getElem?_concat_length] at hr
      cases hr
      simp only [if_neg (Nat.ne_of_lt hq)]
      rw [h.records, List.length_range, hheaplen]
      exact ⟨rfl, isNext_end ids id⟩
  · simp only [withRecord]
    rw [h.records, hheaplen, List.length_append, List.length_singleton, List.range_succ]
  · exact h.root
  · exact h.linked
  · exact h.nodes
  · exact h.leaves
  · exact h.ordered.congr hkey
  · intro n np hn
    obtain ⟨id', hfirst, hid'⟩ := h.first n np hn
    exact ⟨id', hfirst.append id, by
      rw [← hid']
      exact hentries n (List.getElem?_eq_some_iff.mp hn).1⟩
  · intro id' hid'
    have hold : id' ∈ ids := by
      rcases List.mem_append.mp hid' with hid' | hid'
      · exact hid'
      · exact (List.mem_singleton.mp hid') ▸ hmem
    obtain ⟨n, hn, heq⟩ := h.covered id' hold
    exact ⟨n, hn, by rw [← heq]; exact hentries n hn⟩

/-- The new node is linked, with the bit in which its UID differs from what was found. -/
theorem Represents.link {a i : Nat} {l r : Trie} (h : Represents db ids (.branch a i l r))
    (hids : ∀ id ∈ ids, IsId id) (status : Mark) (recordsMax : Nat) {d n : Nat} {s : Bool}
    (hlast : (branch a i l r).lastEdge (idBits id) none = some (n, s))
    (hdiff : FirstDiff (idBits id)
      (entryKey db.nodes ids ((branch a i l r).search (idBits id))) d) :
    ∃ db', ((withRecord db id status recordsMax).withNode db.heap.length d).linkNode id
        db.nodes.length ((branch a i l r).search (idBits id)) n s = some db' ∧
      Represents db' (ids ++ [id])
        ((branch a i l r).insert (idBits id) d db.nodes.length (some db.nodes.length)) ∧
        db'.heap.map (·.status) = db.heap.map (·.status) ++ [status] := by
  have hheap : (withRecord db id status recordsMax).heap.modify db.heap.length
      (fun r => { r with next := none }) = (withRecord db id status recordsMax).heap :=
    modify_concat _ _ _
  -- the walk of the code ends where the tree says
  obtain ⟨edge, below, hplace, hlink⟩ := linkNode_spec (withRecord db id status recordsMax) id
    db.heap.length d h.linked h.nodup (Nat.le_of_eq h.length_nodes) hlast
  obtain ⟨hbelow, hedge⟩ := place_cases (idBits id) d db.nodes.length _ hplace
  have hgrafted := grafted_splitNodes db.nodes edge below (idBits id) d db.heap.length
    (fun s hs => by
      rcases hedge with ⟨rfl, -⟩ | ⟨p, s', rfl, hp, -⟩
      · cases hs
      · cases hs
        exact Nat.lt_irrefl _ (h.mem_nodes.mp hp))
    (fun hs => Nat.lt_irrefl _ (h.mem_nodes.mp (hbelow _ hs)))
  rw [h.heap_length] at hgrafted
  refine ⟨_, hlink, h.grow hids status hdiff hplace ?_ ?_ ?_ rfl rfl, ?_⟩
  · rw [← h.heap_length] at hgrafted ⊢
    exact hgrafted
  · simp [length_splitNodes, withRecord]
  · exact hheap
  · simp only [TrieDb.withNode, hheap]
    simp [withRecord]

/-- An insertion comes to an end, and appends the UID; the trie stays as it is, or the new node is
inserted in it. -/
theorem Represents.uidDbInsert_trie (h : Represents db ids t) (hids : ∀ id ∈ ids, IsId id)
    (hid : IsId id) (status : Mark) : ∃ db' t', db.uidDbInsert id status = some db' ∧
      (t' = t ∨ ∃ k d np, t' = t.insert k d np (some np)) ∧ Represents db' (ids ++ [id]) t' ∧
        db'.heap.map (·.status) = db.heap.map (·.status) ++ [status] := by
  obtain ⟨recordsMax, hinsert⟩ := uidDbInsert_eq db id status
  rw [hinsert, TrieDb.patInsert]
  have hheaplen := h.heap_length
  have hrecord : (withRecord db id status recordsMax).heap[db.heap.length]? =
      some ⟨id, 0, status, db.records.length, none⟩ := by simp [withRecord]
  have hheap : (withRecord db id status recordsMax).heap.modify db.heap.length
      (fun r => { r with next := none }) = (withRecord db id status recordsMax).heap :=
    modify_concat _ _ _
  have hpatRoot : (withRecord db id status recordsMax).patRoot = ptr t := h.root
  have hnodes : (withRecord db id status recordsMax).nodes = db.nodes := rfl
  rw [hrecord]
  simp only [Option.bind_eq_bind, Option.bind_some, hpatRoot, hnodes]
  cases t with
  | leaf b =>
    -- the first record
    have hb : b = none := by
      cases b with
      | none => rfl
      | some n =>
        obtain ⟨np, -, hlt⟩ := h.linked n rfl
        exact absurd hlt (Nat.not_lt_zero _)
    subst hb
    have hempty : db.nodes = [] := List.length_eq_zero_iff.mp h.length_nodes.symm
    have hdiff := firstDiff_nil hid
    have hbit : idBits id (firstSetBitInChar (Bytes.charAt id 0).toNat) = true := by
      have hne := hdiff.2
      have hzero : ∀ j, idBits [] j = false := fun j => Nat.zero_testBit _
      rw [hzero] at hne
      simpa using hne
    simp only [ptr, TrieDb.getStandaloneNode_eq, TrieDb.withNode, hheap, TrieDb.modifyNode,
      modify_concat]
    refine ⟨_, _, rfl, .inr ⟨_, _, _, rfl⟩, h.grow hids status hdiff rfl ?_ ?_ rfl rfl rfl, ?_⟩
    · constructor
      · simp [hempty, withRecord, hbit, ptr, hheaplen]
      · intro x hx
        rw [hempty] at hx ⊢
        simp [withRecord, hempty]
        omega
    · simp [withRecord]
    · simp [withRecord]
  | branch a i l r =>
    simp only [ptr]
    have hwalk : ∃ n s, (branch a i l r).lastEdge (idBits id) none = some (n, s) ∧
        walkDown db.nodes id db.nodes.length a none =
          some ((branch a i l r).search (idBits id), n, s) :=
      walkDown_spec id _ rfl h.linked (fun _ _ hl => by cases hl) (Nat.le_of_eq h.length_nodes)
    obtain ⟨n, s, hlast, hwalk⟩ := hwalk
    rw [hwalk]
    simp only [Option.bind_some]
    have hsearch := Patricia.search_mem (idBits id) (branch a i l r)
    rw [h.leaves.mem_iff] at hsearch
    rcases List.mem_cons.mp hsearch with hnone | hsome
    · -- nothing to compare with
      have hdiff := firstDiff_nil hid
      obtain ⟨db', hlink, hdb'⟩ := h.link hids status recordsMax hlast (by rw [hnone]; exact hdiff)
      rw [hnone] at hlink ⊢
      simp only [TrieDb.getStandaloneNode_eq]
      exact ⟨db', _, hlink, .inr ⟨_, _, _, rfl⟩, hdb'⟩
    · obtain ⟨c, hc, hfound⟩ := List.mem_map.mp hsome
      obtain ⟨np, hnp⟩ := h.linked.exists_node c hc
      obtain ⟨id', hfirst, hcid⟩ := h.first c np hnp
      obtain ⟨r', hr', hrid⟩ := h.getElem?_heap hfirst.1
      have hrec : (withRecord db id status recordsMax).heap[np.record]? = some r' := by
        rw [withRecord, List.getElem?_append_left (List.getElem?_eq_some_iff.mp hr').1, hr']
      rw [← hfound]
      simp only [hnp, Option.bind_some, hrec, hrid]
      rcases findFirstDiffBit_spec (hids id' hfirst.mem) hid with ⟨hneg, heq⟩ | ⟨hpos, hdiff⟩
      · -- the UID again
        rw [if_pos hneg]
        subst heq
        obtain ⟨q, hq, hlast⟩ := @lastLoop_spec ids id' (withRecord db id' status recordsMax).heap
          (fun j r hj hr => by
            rw [withRecord, List.getElem?_append_left (by omega)] at hr
            exact (h.heap j r hr).2)
          (by simp [withRecord]; omega) (withRecord db id' status recordsMax).heap.length np.record
          hfirst.1
          (by simp [withRecord]; omega)
        rw [appendToList_spec db.heap.length _ hq]
        have hroot : db.patRoot = some a := h.root
        have hagain := h.again status recordsMax hlast
        refine ⟨_, branch a i l r, rfl, .inl rfl, ?_, ?_⟩
        · simp only [withRecord, hroot] at hagain ⊢
          exact hagain
        have hmodify : ∀ (o : Option Nat) (i : Nat) (heap : List UidRecord),
            (heap.modify i fun r => { r with next := o }).map (·.status) = heap.map (·.status) :=
          fun o i heap => map_modify_eq (by exact fun _ => rfl) i heap
        simp only [hmodify]
        simp [withRecord]
      · rw [if_neg (by omega)]
        obtain ⟨db', hlink, hdb'⟩ := h.link hids status recordsMax hlast (by
          rw [← hfound, entryKey, Option.elim, hcid]
          exact hdiff.symm)
        rw [← hfound] at hlink
        obtain ⟨-, hdb⟩ := TrieDb.getPatNode_setBitNdx (withRecord db id status recordsMax)
          db.heap.length (findFirstDiffBit id' id).toNat
        rw [← hdb] at hlink
        exact ⟨db', _, hlink, .inr ⟨_, _, _, rfl⟩, hdb'⟩

/-- **An insertion comes to an end, and appends the UID.** -/
theorem Represents.uidDbInsert (h : Represents db ids t) (hids : ∀ id ∈ ids, IsId id)
    (hid : IsId id) (status : Mark) : ∃ db' t', db.uidDbInsert id status = some db' ∧
      Represents db' (ids ++ [id]) t' ∧
        db'.heap.map (·.status) = db.heap.map (·.status) ++ [status] := by
  obtain ⟨db', t', hinsert, -, hrest⟩ := h.uidDbInsert_trie hids hid status
  exact ⟨db', t', hinsert, hrest⟩

/-! ## Search -/

/-- `find_uid_by_id` finds the first record of a UID. -/
theorem Represents.findUidById (h : Represents db ids t) (hids : ∀ id ∈ ids, IsId id) (id : Bytes) :
    (∃ j, db.findUidById id = some (some j) ∧ IsFirst ids id j) ∨
      (db.findUidById id = some none ∧ id ∉ ids) := by
  unfold TrieDb.findUidById
  rw [h.root]
  cases t with
  | leaf b =>
    refine .inr ⟨?_, fun hid => ?_⟩
    · cases b with
      | none => rfl
      | some n =>
        obtain ⟨np, -, hlt⟩ := h.linked n rfl
        exact absurd hlt (Nat.not_lt_zero _)
    · obtain ⟨n, hn, -⟩ := h.covered id hid
      rw [← h.length_nodes] at hn
      exact absurd hn (Nat.not_lt_zero _)
  | branch a i l r =>
    have hwalk : ∃ n s, (branch a i l r).lastEdge (idBits id) none = some (n, s) ∧
        walkDown db.nodes id db.nodes.length a none =
          some ((branch a i l r).search (idBits id), n, s) :=
      walkDown_spec id _ rfl h.linked (fun _ _ hl => by cases hl) (Nat.le_of_eq h.length_nodes)
    obtain ⟨n, s, -, hwalk⟩ := hwalk
    simp only [ptr, findLoop_eq, hwalk, Option.map_some, Option.bind_eq_bind, Option.bind_some]
    cases hsearch : (branch a i l r).search (idBits id) with
    | none =>
      refine .inr ⟨rfl, fun hid => ?_⟩
      obtain ⟨c, -, hc, -⟩ := h.search_mem hids hid
      rw [hsearch] at hc
      cases hc
    | some c =>
      -- the search ends at a node, which need not have this id
      have hmem := Patricia.search_mem (idBits id) (branch a i l r)
      rw [hsearch, h.leaves.mem_iff] at hmem
      obtain ⟨c', hc', heq⟩ : ∃ c' ∈ (branch a i l r).nodes, some c' = some c := by simpa using hmem
      cases heq
      obtain ⟨np, hnp⟩ := h.linked.exists_node c hc'
      obtain ⟨id', hfirst, -⟩ := h.first c np hnp
      obtain ⟨r', hr', hrid⟩ := h.getElem?_heap hfirst.1
      simp only [hnp, Option.bind_some, hr', hrid]
      by_cases hsame : id' = id
      · subst hsame
        exact .inl ⟨np.record, by simp, hfirst⟩
      -- the ids differ, and the id would have been found at this node
      · right
        have hdiffer : ¬ (id'.length = id.length ∧ id.take id.length = id'.take id.length) := by
          rintro ⟨hlen, htake⟩
          rw [List.take_length, ← hlen, List.take_length] at htake
          exact hsame htake.symm
        refine ⟨by rw [if_neg hdiffer]; rfl, fun hid => hsame ?_⟩
        obtain ⟨c', np', hc', hnp', hfirst'⟩ := h.search_mem hids hid
        rw [hsearch] at hc'
        cases hc'
        rw [hnp] at hnp'
        cases hnp'
        exact Option.some.inj (hfirst.1.symm.trans hfirst'.1)

/-- `last_uid_in_db` finds the last. -/
theorem Represents.lastUidInDb (h : Represents db ids t) (hids : ∀ id ∈ ids, IsId id) (id : Bytes) :
    (∃ j, db.lastUidInDb id = some (some j) ∧ IsLast ids id j) ∨
      (db.lastUidInDb id = some none ∧ id ∉ ids) := by
  unfold TrieDb.lastUidInDb
  rcases h.findUidById hids id with ⟨j, hfind, hfirst⟩ | ⟨hfind, hnot⟩
  · left
    rw [hfind]
    have hheaplen := h.heap_length
    obtain ⟨q, hq, hlast⟩ := lastLoop_spec (fun j r _ hr => (h.heap j r hr).2) (by omega)
      db.heap.length hfirst.1 (by omega)
    simp only [Option.bind_eq_bind, Option.bind_some, hq]
    exact ⟨q, rfl, hlast⟩
  · right
    rw [hfind]
    exact ⟨rfl, hnot⟩

end

/-! ## Runs -/

/-- Insertions one after the other. -/
def TrieDb.insertAll (db : TrieDb) (records : List (Bytes × Mark)) : Option TrieDb :=
  records.foldlM (fun db record => db.uidDbInsert record.1 record.2) db

theorem Represents.insertAll {db : TrieDb} {ids : List Bytes} {t : Trie}
    {records : List (Bytes × Mark)} (h : Represents db ids t) (hids : ∀ id ∈ ids, IsId id)
    (hrecords : ∀ record ∈ records, IsId record.1) : ∃ db' t', db.insertAll records = some db' ∧
      Represents db' (ids ++ records.map (·.1)) t' ∧
        db'.heap.map (·.status) = db.heap.map (·.status) ++ records.map (·.2) := by
  induction records generalizing db ids t with
  | nil => exact ⟨db, t, rfl, by simpa using h, by simp⟩
  | cons record records ih =>
    have hid := hrecords record (by simp)
    obtain ⟨db₁, t₁, hinsert, h₁, hstatus⟩ := h.uidDbInsert hids hid record.2
    have hids₁ : ∀ id ∈ ids ++ [record.1], IsId id := by
      intro id hmem
      rcases List.mem_append.mp hmem with hmem | hmem
      · exact hids id hmem
      · exact (List.mem_singleton.mp hmem) ▸ hid
    obtain ⟨db₂, t₂, hrun, h₂, hstatus₂⟩ := ih h₁ hids₁ fun r hr => hrecords r (by simp [hr])
    refine ⟨db₂, t₂, ?_, by simpa using h₂, by rw [hstatus₂, hstatus]; simp⟩
    unfold TrieDb.insertAll
    rw [List.foldlM_cons, hinsert]
    exact hrun

/-- What `traverse_uid_db` hands to its routine, in this order. -/
def TrieDb.traversed (db : TrieDb) : List Nat :=
  (db.traverseUidDb (fun rec seen => (0, seen ++ [rec])) []).2

/-- The database is the list of the records that were inserted: the record number `j` has the
UID and the mark that were inserted there. -/
structure RefinesList (db : TrieDb) (records : List (Bytes × Mark)) : Prop where
  heap : db.heap.map (fun r => (r.id, r.status)) = records
  find : ∀ id j, db.findUidById id = some (some j) ↔ IsFirst (records.map (·.1)) id j
  find_none : ∀ id, db.findUidById id = some none ↔ id ∉ records.map (·.1)
  last : ∀ id j, db.lastUidInDb id = some (some j) ↔ IsLast (records.map (·.1)) id j
  last_none : ∀ id, db.lastUidInDb id = some none ↔ id ∉ records.map (·.1)
  pos : ∀ j, db.findUidByPos j = if j < records.length then some j else none
  traverse : db.traversed = List.range records.length

/-- **Whatever is inserted, the database is the list.** -/
theorem insertAll_refinesList (records : List (Bytes × Mark))
    (hrecords : ∀ record ∈ records, IsId record.1) :
    ∃ db, TrieDb.initUidDb.insertAll records = some db ∧ RefinesList db records := by
  obtain ⟨db, t, hrun, h, hstatus⟩ := represents_init.insertAll (by simp) hrecords
  rw [List.nil_append] at h
  have hids : ∀ id ∈ records.map (·.1), IsId id := by
    intro id hid
    obtain ⟨record, hrecord, rfl⟩ := List.mem_map.mp hid
    exact hrecords record hrecord
  -- ids and marks are kept one by one
  have hzip : ∀ (xs : List UidRecord) (ys : List (Bytes × Mark)),
      xs.map (·.id) = ys.map (·.1) → xs.map (·.status) = ys.map (·.2) →
        xs.map (fun r => (r.id, r.status)) = ys := by
    intro xs
    induction xs with
    | nil => intro ys hys _; simpa using hys.symm
    | cons r xs ih =>
      intro ys hys hys'
      cases ys with
      | nil => cases hys
      | cons y ys =>
        simp only [List.map_cons, List.cons.injEq] at hys hys' ⊢
        exact ⟨Prod.ext hys.1 hys'.1, ih ys hys.2 hys'.2⟩
  refine ⟨db, hrun, ?_⟩
  constructor
  · exact hzip _ _ h.heap_ids hstatus
  · intro id j
    rcases h.findUidById hids id with ⟨j', hfind, hfirst⟩ | ⟨hfind, hnot⟩
    · rw [hfind]
      constructor
      · intro heq
        cases heq
        exact hfirst
      · exact fun hj => by rw [hfirst.unique hj]
    · rw [hfind]
      exact ⟨fun heq => (by cases heq), fun hj => absurd hj.mem hnot⟩
  · intro id
    rcases h.findUidById hids id with ⟨j', hfind, hfirst⟩ | ⟨hfind, hnot⟩
    · rw [hfind]
      exact ⟨fun heq => (by cases heq), fun hnot => absurd hfirst.mem hnot⟩
    · exact ⟨fun _ => hnot, fun _ => hfind⟩
  · intro id j
    rcases h.lastUidInDb hids id with ⟨j', hfind, hlast⟩ | ⟨hfind, hnot⟩
    · rw [hfind]
      constructor
      · intro heq
        cases heq
        exact hlast
      · exact fun hj => by rw [hlast.unique hj]
    · rw [hfind]
      exact ⟨fun heq => (by cases heq), fun hj => absurd (List.mem_of_getElem? hj.1) hnot⟩
  · intro id
    rcases h.lastUidInDb hids id with ⟨j', hfind, hlast⟩ | ⟨hfind, hnot⟩
    · rw [hfind]
      exact ⟨fun heq => (by cases heq), fun hnot => absurd (List.mem_of_getElem? hlast.1) hnot⟩
    · exact ⟨fun _ => hnot, fun _ => hfind⟩
  · intro j
    rw [TrieDb.findUidByPos, h.records, List.length_range, List.length_map]
    split
    · next hj => simp [hj]
    · rfl
  · have hloop : ∀ (recs seen : List Nat), (TrieDb.traverseLoop
        (fun rec seen => (0, seen ++ [rec])) recs seen).2 = seen ++ recs := by
      intro recs
      induction recs with
      | nil => simp [TrieDb.traverseLoop]
      | cons rec recs ih =>
        intro seen
        simp [TrieDb.traverseLoop, ih]
    rw [TrieDb.traversed, TrieDb.traverseUidDb, hloop, h.records, List.length_map]
    rfl

/-- UIDs that start alike, a UID again, and a byte above 0x7f. -/
theorem insertAll_refinesList_alike : ∃ db, TrieDb.initUidDb.insertAll
      [(Bytes.lit "ab", .seen), (Bytes.lit "a", .unseen), (Bytes.lit "ab", .unseen), ([255], .seen)] =
        some db ∧ RefinesList db
      [(Bytes.lit "ab", .seen), (Bytes.lit "a", .unseen), (Bytes.lit "ab", .unseen), ([255], .seen)] :=
  insertAll_refinesList _ (by unfold IsId; decide)

end Fetchmail.Uid
