import Fetchmail.Uid.TrieRefinement

/-!
# The Search Tree Under the List

`Database` has the records in a list and takes the search tree by what it finds. Here the two
run side by side: each operation leads from a tree that holds the records of the list to one
that holds the new records, and what the tree finds is what the list finds. UIDs are not
empty and have no zero byte; the index by number does not look at the tree.
-/

namespace Fetchmail.Uid

open Fetchmail.Lib

/-- The tree and its lists hold the records of the database. -/
structure Stores (t : TrieDb) (db : Db) : Prop where
  tree : ∃ trie, Represents t (db.records.map Record.id) trie
  status : t.heap.map UidRecord.status = db.records.map Record.status
  isId : ∀ id ∈ db.records.map Record.id, IsId id

variable {t : TrieDb} {db db' : Db} {id : Bytes} {mark : Mark}

/-! ## Operations -/

theorem stores_init : Stores TrieDb.initUidDb Db.initUidDb where
  tree := ⟨_, represents_init⟩
  status := rfl
  isId _ hid := absurd hid List.not_mem_nil

/-- The index by number is beside the tree. -/
theorem Stores.of_records (h : Stores t db) (heq : db'.records = db.records) : Stores t db' where
  tree := heq ▸ h.tree
  status := heq ▸ h.status
  isId := heq ▸ h.isId

/-- **`uid_db_insert`** comes to an end, with the record behind the others. -/
theorem Stores.uidDbInsert (h : Stores t db) (hid : IsId id) (mark : Mark) :
    ∃ t', t.uidDbInsert id mark = some t' ∧ Stores t' (db.uidDbInsert id mark) := by
  obtain ⟨trie, htree⟩ := h.tree
  obtain ⟨t', trie', hinsert, htree', hstatus⟩ := htree.uidDbInsert h.isId hid mark
  refine ⟨t', hinsert, ⟨trie', by simpa using htree'⟩, by simp [hstatus, h.status], ?_⟩
  intro id' hid'
  rw [Db.records_uidDbInsert, List.map_append] at hid'
  rcases List.mem_append.mp hid' with hold | hnew
  · exact h.isId id' hold
  · rw [List.mem_singleton.mp hnew]
    exact hid

/-- **`rec->status = mark`**: neither the tree nor the lists look at the status. -/
theorem Stores.setStatus (h : Stores t db) (p : Nat) (mark : Mark) :
    Stores (t.modifyRecord p fun r => { r with status := mark }) (db.setStatus p mark) := by
  obtain ⟨trie, htree⟩ := h.tree
  have hids : (t.heap.modify p fun r => { r with status := mark }).map UidRecord.id =
      t.heap.map UidRecord.id := map_modify_eq (by exact fun _ => rfl) p t.heap
  have hheap : ∀ (j : Nat) (r : UidRecord),
      (t.heap.modify p fun r => { r with status := mark })[j]? = some r →
        r.pos = j ∧ IsNext (db.records.map Record.id) j r.next := by
    intro j r hr
    rw [List.getElem?_modify] at hr
    obtain ⟨r', hr', rfl⟩ := Option.map_eq_some_iff.mp hr
    have hold := htree.heap j r' hr'
    by_cases hj : p = j <;> simpa [hj] using hold
  have hstatus : (t.heap.modify p fun r => { r with status := mark }).map UidRecord.status =
      (db.setStatus p mark).records.map Record.status :=
    calc (t.heap.modify p fun r => { r with status := mark }).map UidRecord.status
      _ = (t.heap.map UidRecord.status).modify p fun _ => mark := map_modify (by exact fun _ => rfl) p t.heap
      _ = (db.records.map Record.status).modify p fun _ => mark := by rw [h.status]
      _ = _ := (map_modify (by exact fun _ => rfl) p db.records).symm
  refine ⟨⟨trie, ?_⟩, hstatus, ?_⟩
  · rw [Db.map_id_setStatus]
    exact ⟨hids.trans htree.heap_ids, hheap, htree.records, htree.root, htree.linked, htree.nodes,
      htree.leaves, htree.ordered, htree.first, htree.covered⟩
  · rw [Db.map_id_setStatus]
    exact h.isId

/-! ## Searches -/

/-- A UID that is there has its first record. -/
theorem findUidById_of_isFirst {p : Nat} (hid : id ≠ [])
    (h : IsFirst (db.records.map Record.id) id p) : db.findUidById id = some p := by
  obtain ⟨hp, hbefore⟩ := h
  rw [Db.findUidById_of_ne_nil hid, List.findIdx?_eq_some_iff_getElem]
  rw [List.getElem?_map, Option.map_eq_some_iff] at hp
  obtain ⟨r, hr, rfl⟩ := hp
  obtain ⟨hlt, rfl⟩ := List.getElem?_eq_some_iff.mp hr
  refine ⟨hlt, by simp, fun j hj hsame => hbefore j hj ?_⟩
  rw [List.getElem?_map, List.getElem?_eq_getElem (Nat.lt_trans hj hlt)]
  simpa using hsame

/-- One that is not there is not found, and neither is the empty one. -/
theorem findUidById_of_not_mem (h : id ∉ db.records.map Record.id) : db.findUidById id = none := by
  cases hfind : db.findUidById id with
  | none => rfl
  | some p =>
    obtain ⟨r, hr, rfl⟩ := Db.findUidById_spec hfind
    exact absurd (List.mem_map_of_mem (List.mem_of_getElem? hr)) h

/-- **`find_uid_by_id`** finds the record that the list finds. -/
theorem Stores.findUidById (h : Stores t db) (id : Bytes) :
    t.findUidById id = some (db.findUidById id) := by
  obtain ⟨trie, htree⟩ := h.tree
  rcases htree.findUidById h.isId id with ⟨p, hfind, hfirst⟩ | ⟨hfind, hnot⟩
  · rw [hfind, findUidById_of_isFirst (h.isId id hfirst.mem).1 hfirst]
  · rw [hfind, findUidById_of_not_mem hnot]

/-- The last number of a kind. -/
theorem getLastD_filter_range {keep : Nat → Bool} {n q d : Nat} (hq : q < n) (hkeep : keep q = true)
    (hlast : ∀ j, q < j → keep j = false) : ((List.range n).filter keep).getLastD d = q := by
  obtain ⟨m, rfl⟩ := Nat.exists_eq_add_of_lt hq
  have hbehind : ((List.range m).map (q + 1 + ·)).filter keep = [] := by
    rw [List.filter_eq_nil_iff]
    intro j hj
    obtain ⟨k, -, rfl⟩ := List.mem_map.mp hj
    simp [hlast (q + 1 + k) (by omega)]
  have hrange : List.range (q + m + 1) = List.range (q + 1) ++ (List.range m).map (q + 1 + ·) := by
    rw [← List.range_add]
    congr 1
    omega
  rw [hrange, List.filter_append, hbehind, List.append_nil, List.range_succ, List.filter_append]
  simp [hkeep]

/-- The list has the last record of a UID as the last that comes at or behind the first. -/
theorem lastUidInDb_of_isLast {p q : Nat} (hfind : db.findUidById id = some p)
    (hfirst : IsFirst (db.records.map Record.id) id p)
    (h : IsLast (db.records.map Record.id) id q) : db.lastUidInDb id = some q := by
  obtain ⟨hq, hbehind⟩ := h
  have hlt : q < db.records.length := by
    simpa using (List.getElem?_eq_some_iff.mp hq).1
  have hle : p ≤ q := by
    by_contra hgt
    exact hfirst.2 q (by omega) hq
  rw [List.getElem?_map] at hq
  rw [Db.lastUidInDb, hfind, Option.map_some, getLastD_filter_range hlt (by simp [hle, hq])]
  intro j hj
  have hne := hbehind j hj
  rw [List.getElem?_map] at hne
  simp [hne]

/-- **`last_uid_in_db`** -/
theorem Stores.lastUidInDb (h : Stores t db) (id : Bytes) :
    t.lastUidInDb id = some (db.lastUidInDb id) := by
  obtain ⟨trie, htree⟩ := h.tree
  rcases htree.lastUidInDb h.isId id with ⟨q, hlast, hq⟩ | ⟨hlast, hnot⟩
  · have hmem : id ∈ db.records.map Record.id := List.mem_of_getElem? hq.1
    rcases htree.findUidById h.isId id with ⟨p, hp, hfirst⟩ | ⟨-, hnot⟩
    · have hlist : db.findUidById id = some p := findUidById_of_isFirst (h.isId id hmem).1 hfirst
      rw [hlast, lastUidInDb_of_isLast hlist hfirst hq]
    · exact absurd hmem hnot
  · rw [hlast, Db.lastUidInDb, findUidById_of_not_mem hnot]
    rfl

/-- **`uid_db_n_records`** -/
theorem Stores.length_records (h : Stores t db) : t.records.length = db.uidDbNRecords := by
  obtain ⟨trie, htree⟩ := h.tree
  rw [htree.records, List.length_range, List.length_map]
  rfl

/-! ## Any database -/

/-- **Each database of the list model is held by a tree**, the one that its records lead to. -/
theorem exists_stores (db : Db) (hids : ∀ r ∈ db.records, IsId r.id) :
    ∃ t, TrieDb.initUidDb.insertAll (db.records.map fun r => (r.id, r.status)) = some t ∧
      Stores t db := by
  have hrecords : ∀ record ∈ db.records.map fun r => (r.id, r.status), IsId record.1 := by
    simpa using hids
  have hnone : ∀ id ∈ ([] : List Bytes), IsId id := by simp
  obtain ⟨t, trie, hrun, htree, hstatus⟩ := represents_init.insertAll hnone hrecords
  refine ⟨t, hrun, ⟨trie, ?_⟩, ?_, by simpa using hids⟩
  · simpa [Function.comp_def] using htree
  · simpa [Function.comp_def, TrieDb.initUidDb] using hstatus

end Fetchmail.Uid
