import Fetchmail.Uid.TrieRefinement

/-!
# Freeing the Search Tree

`free_pat_trie` of `uid_db.c`, which visits the nodes without a stack: it goes down the pointers that
lead to a node with a later bit, clears every pointer on its way, and frees a node on the way up. A
read of something that has been freed has no result, and so has a second release.

Pointers that lead back lead to a node above, which is freed later than all nodes below.
-/

namespace Fetchmail.Uid

open Fetchmail.Lib Patricia

/-! ## The routines -/

/-- The nodes with the pointers that are left, and what has been freed so far. -/
structure Freeing where
  nodes : List PatNode
  freedNodes : List Nat
  freedRecs : List Nat
  deriving DecidableEq, Repr

namespace Freeing

/-- Read a node. -/
def node (s : Freeing) (np : Nat) : Option PatNode :=
  if np ∈ s.freedNodes then none else s.nodes[np]?

/-- `ptrs(np)[1] = NULL` or `ptrs(np)[-1] = NULL` -/
def clear (s : Freeing) (np : Nat) (side : Bool) : Freeing :=
  { s with nodes := s.nodes.modify np fun node => node.setChild side none }

/-- Steps 1 and 2, or 3 and 4: the child to go down to, if there is one. -/
def descend (s : Freeing) (np : Nat) (side : Bool) : Option (Option Nat × Freeing) := do
  let node ← s.node np
  match node.child side with
  | none => return (none, s)
  | some next =>
    let s := s.clear np side
    let nextNode ← s.node next
    return (if node.bitNdx < nextNode.bitNdx then some next else none, s)

end Freeing

/-- `free_uid_list`: the records that have been freed then. -/
def freeUidList (heap : List UidRecord) : (fuel : Nat) → (freed : List Nat) → (rec : Nat) →
    Option (List Nat)
  | 0, _, _ => none
  | fuel + 1, freed, rec => do
    if rec ∈ freed then none
    let record ← heap[rec]?
    let freed ← match record.next with
      | none => some freed
      | some next => freeUidList heap fuel freed next
    if rec ∈ freed then none else some (freed ++ [rec])

/-- The loop of `free_pat_trie`. -/
def freePatTrie (heap : List UidRecord) : (fuel : Nat) → Freeing → (np : Nat) → Option Freeing
  | 0, _, _ => none
  | fuel + 1, s, np => do
    match ← s.descend np false with
    | (some next, s) => freePatTrie heap fuel s next
    | (none, s) =>
      match ← s.descend np true with
      | (some next, s) => freePatTrie heap fuel s next
      | (none, s) =>
        let node ← s.node np
        let freedRecs ← freeUidList heap heap.length s.freedRecs node.record
        let s := { s with freedNodes := s.freedNodes ++ [np], freedRecs }
        match node.parent with
        | none => return s
        | some next => freePatTrie heap fuel s next

/-- `free_uid_db`, as far as nodes and records go. A node is visited once for each node below it
and once again. -/
def freeUidDb (db : TrieDb) : Option Freeing :=
  match db.patRoot with
  | none => some ⟨db.nodes, [], []⟩
  | some root => freePatTrie db.heap (2 * db.nodes.length) ⟨db.nodes, [], []⟩ root

/-! ## Entries above -/

/-- Every entry stands below its node; `above` are the nodes above the trie. -/
def Anchored : (above : List Nat) → Trie → Prop
  | above, .leaf b => ∀ n, b = some n → n ∈ above
  | above, .branch a _ l r => Anchored (a :: above) l ∧ Anchored (a :: above) r

section

variable {t l r : Trie} {above above' xs ys : List Nat} {k : Bits} {a d i np : Nat}

theorem Anchored.mono (h : Anchored above t) (hsub : above ⊆ above') : Anchored above' t := by
  induction t generalizing above above' with
  | leaf b => exact fun n hn => hsub (h n hn)
  | branch a i l r ihl ihr =>
    exact ⟨ihl h.1 (List.cons_subset_cons a hsub), ihr h.2 (List.cons_subset_cons a hsub)⟩

theorem Anchored.side (h : Anchored above (.branch a i l r)) (s : Bool) :
    Anchored (a :: above) (Patricia.side s l r) := by
  cases s
  · exact h.1
  · exact h.2

theorem Anchored.graft (h : Anchored above t) : Anchored above (t.graft k d np (some np)) := by
  have hself : Anchored (np :: above) (.leaf (some np)) := by
    intro n hn
    cases hn
    exact List.mem_cons_self
  have hbelow := h.mono (List.subset_cons_self np above)
  unfold Patricia.graft
  split
  · exact ⟨hbelow, hself⟩
  · exact ⟨hself, hbelow⟩

/-- An insertion puts a node above its own entry, and leaves every node above what it was above. -/
theorem Anchored.insert (h : Anchored above t) : Anchored above (t.insert k d np (some np)) := by
  induction t generalizing above with
  | leaf b => exact h.graft
  | branch a i l r ihl ihr =>
    unfold Patricia.insert
    split
    · exact h.graft
    · split
      · exact ⟨h.1, ihr h.2⟩
      · exact ⟨ihl h.1, h.2⟩

/-! ## One side of a node -/

/-- What stays of a node while it is in use. -/
def PatNode.core (np : PatNode) : PatNode := { np with left := none, right := none }

@[simp] theorem PatNode.core_setChild (np : PatNode) (side : Bool) (p : Option Nat) :
    (np.setChild side p).core = np.core := by
  cases side <;> rfl

variable {s s' s'' : Freeing} {parent : Option Nat} {bound rec : Nat} {heap : List UidRecord}
  {belongs : Nat → Nat → Prop}

theorem Freeing.node_eq {x : Nat} (h : x ∉ s.freedNodes) : s.node x = s.nodes[x]? := if_neg h

theorem Freeing.getElem?_clear (s : Freeing) (np : Nat) (side : Bool) (x : Nat) :
    (s.clear np side).nodes[x]? =
      (s.nodes[x]?).map fun node => if np = x then node.setChild side none else node := by
  rw [Freeing.clear, List.getElem?_modify]
  split <;> simp [*]

/-- The nodes `xs` and their records have been freed, the records being told by `belongs`. -/
structure Freed (belongs : Nat → Nat → Prop) (s s' : Freeing) (xs : List Nat) : Prop where
  nodes : ∃ order, s'.freedNodes = s.freedNodes ++ order ∧ order.Perm xs
  records : ∃ recs, s'.freedRecs = s.freedRecs ++ recs ∧ recs.Nodup ∧
    ∀ m, m ∈ recs ↔ ∃ n ∈ xs, belongs n m
  core : ∀ x : Nat, (s'.nodes[x]?).map PatNode.core = (s.nodes[x]?).map PatNode.core

theorem Freed.mem_nodes (h : Freed belongs s s' xs) {x : Nat} :
    x ∈ s'.freedNodes ↔ x ∈ s.freedNodes ∨ x ∈ xs := by
  obtain ⟨order, heq, hperm⟩ := h.nodes
  rw [heq, List.mem_append, hperm.mem_iff]

theorem Freed.mem_recs (h : Freed belongs s s' xs) {m : Nat} :
    m ∈ s'.freedRecs ↔ m ∈ s.freedRecs ∨ ∃ n ∈ xs, belongs n m := by
  obtain ⟨recs, heq, -, hrecs⟩ := h.records
  rw [heq, List.mem_append, hrecs]

theorem Freed.trans (h : Freed belongs s s' xs) (h' : Freed belongs s' s'' ys)
    (hbelongs : ∀ n ∈ xs, ∀ n' ∈ ys, ∀ m, belongs n m → ¬belongs n' m) :
    Freed belongs s s'' (xs ++ ys) := by
  obtain ⟨order, heq, hperm⟩ := h.nodes
  obtain ⟨order', heq', hperm'⟩ := h'.nodes
  obtain ⟨recs, hrecs, hnodup, hmem⟩ := h.records
  obtain ⟨recs', hrecs', hnodup', hmem'⟩ := h'.records
  refine ⟨⟨order ++ order', by rw [heq', heq, List.append_assoc], hperm.append hperm'⟩,
    ⟨recs ++ recs', by rw [hrecs', hrecs, List.append_assoc], ?_, fun m => ?_⟩,
    fun x => (h'.core x).trans (h.core x)⟩
  · rw [List.nodup_append]
    refine ⟨hnodup, hnodup', fun m hm m' hm' heq => ?_⟩
    subst heq
    obtain ⟨n, hn, hb⟩ := (hmem m).mp hm
    obtain ⟨n', hn', hb'⟩ := (hmem' m).mp hm'
    exact hbelongs n hn n' hn' m hb hb'
  · rw [List.mem_append, hmem, hmem']
    simp only [List.mem_append]
    constructor
    · rintro (⟨n, hn, hb⟩ | ⟨n, hn, hb⟩)
      · exact ⟨n, .inl hn, hb⟩
      · exact ⟨n, .inr hn, hb⟩
    · rintro ⟨n, hn | hn, hb⟩
      · exact .inl ⟨n, hn, hb⟩
      · exact .inr ⟨n, hn, hb⟩

theorem freed_clear (belongs : Nat → Nat → Prop) (s : Freeing) (np : Nat) (side : Bool) :
    Freed belongs s (s.clear np side) [] where
  nodes := ⟨[], (List.append_nil _).symm, .refl _⟩
  records := ⟨[], (List.append_nil _).symm, List.nodup_nil, fun m => by simp⟩
  core x := by
    rw [Freeing.getElem?_clear, Option.map_map]
    congr 1
    funext node
    simp only [Function.comp_apply]
    split
    · exact PatNode.core_setChild node side none
    · rfl

/-- What is assumed of the records: the list of a node frees what belongs to the node, and nothing
belongs to two nodes. -/
structure Records (heap : List UidRecord) (belongs : Nat → Nat → Prop) (recOf : Nat → Nat) :
    Prop where
  frees : ∀ n (freed : List Nat), belongs n (recOf n) → (∀ m, belongs n m → m ∉ freed) → ∃ recs,
    freeUidList heap heap.length freed (recOf n) = some (freed ++ recs) ∧ recs.Nodup ∧
      ∀ m, m ∈ recs ↔ belongs n m
  apart : ∀ n n' m, belongs n m → belongs n' m → n = n'

/-- The trie is there and nothing of it has been freed, nor have the nodes above it. -/
structure Standing (belongs : Nat → Nat → Prop) (recOf : Nat → Nat) (s : Freeing)
    (parent : Option Nat) (bound : Nat) (above : List Nat) (t : Trie) : Prop where
  linked : Linked s.nodes parent bound t
  anchored : Anchored above t
  nodup : t.nodes.Nodup
  apart : ∀ n ∈ above, n ∉ t.nodes
  above : ∀ n ∈ above, n ∉ s.freedNodes
  nodes : ∀ n ∈ t.nodes, n ∉ s.freedNodes
  records : ∀ n ∈ t.nodes, ∀ m, belongs n m → m ∉ s.freedRecs
  own : ∀ n ∈ t.nodes, belongs n (recOf n)
  recOf : ∀ n ∈ t.nodes, ∀ np, s.nodes[n]? = some np → np.record = recOf n

/-- The loop goes on with a node, or ends above the root. -/
def returnTo (heap : List UidRecord) (fuel : Nat) (parent : Option Nat) (s : Freeing) :
    Option Freeing :=
  match parent with
  | none => some s
  | some next => freePatTrie heap fuel s next

/-- From the root of the trie on, the loop frees the trie and goes on above it. -/
def Frees (heap : List UidRecord) (belongs : Nat → Nat → Prop) (recOf : Nat → Nat) (t : Trie) :
    Prop :=
  ∀ s parent bound above fuel root, Standing belongs recOf s parent bound above t →
    root? t = some root →
    ∃ s', freePatTrie heap (fuel + (2 * t.nodes.length - 1)) s root = returnTo heap fuel parent s' ∧
      Freed belongs s s' t.nodes ∧ ∀ x ∉ t.nodes, s'.nodes[x]? = s.nodes[x]?

variable {recOf : Nat → Nat} {node : PatNode} {side : Bool} {c : Trie}

theorem Freed.perm (h : Freed belongs s s' xs) (hperm : xs.Perm ys) : Freed belongs s s' ys where
  nodes := by
    obtain ⟨order, heq, horder⟩ := h.nodes
    exact ⟨order, heq, horder.trans hperm⟩
  records := by
    obtain ⟨recs, heq, hnodup, hmem⟩ := h.records
    exact ⟨recs, heq, hnodup, fun m => by rw [hmem]; simp only [hperm.mem_iff]⟩
  core := h.core

theorem Freed.bits (h : Freed belongs s s' xs) (n : Nat) (np : PatNode)
    (hnp : s.nodes[n]? = some np) : ∃ np', s'.nodes[n]? = some np' ∧ np'.bitNdx = np.bitNdx := by
  have hcore := h.core n
  rw [hnp, Option.map_some] at hcore
  obtain ⟨np', hnp', heq⟩ := Option.map_eq_some_iff.mp hcore
  exact ⟨np', hnp', (congrArg PatNode.bitNdx heq :)⟩

/-- What is not touched stands as before. -/
theorem Standing.frame (h : Standing belongs recOf s parent bound above t)
    (hfreed : Freed belongs s s' xs) (hsame : ∀ x ∈ t.nodes, s'.nodes[x]? = s.nodes[x]?)
    (habove : ∀ n ∈ above, n ∉ xs) (hnodes : ∀ n ∈ t.nodes, n ∉ xs)
    (hrecords : ∀ n ∈ t.nodes, ∀ m, belongs n m → ∀ n' ∈ xs, ¬belongs n' m) :
    Standing belongs recOf s' parent bound above t where
  linked := h.linked.frame hsame hfreed.bits
  anchored := h.anchored
  nodup := h.nodup
  apart := h.apart
  above n hn := by
    rw [hfreed.mem_nodes]
    exact not_or.mpr ⟨h.above n hn, habove n hn⟩
  nodes n hn := by
    rw [hfreed.mem_nodes]
    exact not_or.mpr ⟨h.nodes n hn, hnodes n hn⟩
  records n hn m hm := by
    rw [hfreed.mem_recs]
    rintro (hmem | ⟨n', hn', hb⟩)
    · exact h.records n hn m hm hmem
    · exact hrecords n hn m hm n' hn' hb
  recOf n hn np hnp := h.recOf n hn np (by rw [← hsame n hn]; exact hnp)
  own := h.own

theorem descend_none (hfree : a ∉ s.freedNodes) (hnode : s.nodes[a]? = some node)
    (hchild : node.child side = none) : s.descend a side = some (none, s) := by
  rw [Freeing.descend, Freeing.node_eq hfree, hnode]
  simp [hchild]

/-- The pointer to a trie is cleared, and followed if it leads down. -/
theorem descend_eq (hstand : Standing belongs recOf s (some a) (node.bitNdx + 1) (a :: above) c)
    (hnode : s.nodes[a]? = some node) (hchild : node.child side = ptr c) :
    s.descend a side = some (root? c, s.clear a side) := by
  have hfree : a ∉ s.freedNodes := hstand.above a List.mem_cons_self
  -- what is read of the next node is as before
  have hread : ∀ {next : Nat} {np : PatNode}, next ∉ s.freedNodes → s.nodes[next]? = some np →
      ∃ np', (s.clear a side).node next = some np' ∧ np'.bitNdx = np.bitNdx := by
    intro next np hnext hnp
    obtain ⟨np', hnp', hbit⟩ := (freed_clear belongs s a side).bits next np hnp
    exact ⟨np', (if_neg hnext).trans hnp', hbit⟩
  cases c with
  | leaf b =>
    cases b with
    | none =>
      have hself : s.clear a side = s := by
        have hnodes : (s.clear a side).nodes = s.nodes := by
          refine List.ext_getElem? fun x => ?_
          rw [Freeing.getElem?_clear]
          by_cases hx : a = x
          · subst hx
            have hsame : node.setChild side none = node := by
              cases side
              · exact congrArg (fun p => { node with left := p }) hchild.symm
              · exact congrArg (fun p => { node with right := p }) hchild.symm
            simp [hnode, hsame]
          · simp [hx]
        exact congrArg (fun nodes => { s with nodes := nodes }) hnodes
      rw [hself]
      exact descend_none hfree hnode hchild
    | some n =>
      obtain ⟨np, hnp, hlt⟩ := hstand.linked n rfl
      obtain ⟨np', hnp', hbit⟩ := hread (hstand.above n (hstand.anchored n rfl)) hnp
      have hup : ¬node.bitNdx < np'.bitNdx := by omega
      rw [Freeing.descend, Freeing.node_eq hfree, hnode]
      simp [hchild, ptr, hnp', hup, root?]
  | branch a' i' l' r' =>
    obtain ⟨hle, ⟨rec, hnp⟩, -, -⟩ := hstand.linked
    obtain ⟨np', hnp', hbit⟩ := hread (hstand.nodes a' List.mem_cons_self) hnp
    have hdown : node.bitNdx < np'.bitNdx := by
      rw [hbit]
      exact hle
    rw [Freeing.descend, Freeing.node_eq hfree, hnode]
    simp [hchild, ptr, hnp', hdown, root?]

/-- **One side of a node**: the loop comes back to the node, with the trie on this side freed. -/
theorem freePatTrie_side (side : Bool) (hrun : Frees heap belongs recOf c)
    (hstand : Standing belongs recOf s (some a) (node.bitNdx + 1) (a :: above) c)
    (hnode : s.nodes[a]? = some node) (hchild : node.child side = ptr c)
    (hleft : side = true → node.left = none) (fuel : Nat) :
    ∃ s', freePatTrie heap (fuel + 2 * c.nodes.length + 1) s a = freePatTrie heap (fuel + 1) s' a ∧
      Freed belongs s s' c.nodes ∧ s'.nodes[a]? = some (node.setChild side none) ∧
      ∀ x ∉ c.nodes, x ≠ a → s'.nodes[x]? = s.nodes[x]? := by
  have hfree : a ∉ s.freedNodes := hstand.above a List.mem_cons_self
  have hclear : (s.clear a side).nodes[a]? = some (node.setChild side none) := by
    rw [Freeing.getElem?_clear, hnode]
    simp
  have hother : ∀ x, x ≠ a → (s.clear a side).nodes[x]? = s.nodes[x]? := by
    intro x hx
    rw [Freeing.getElem?_clear]
    simp [Ne.symm hx]
  have hdescend := descend_eq hstand hnode hchild
  -- the first side has been cleared before the second is looked at
  have hfirst : side = true → s.descend a false = some (none, s) :=
    fun hside => descend_none hfree hnode (hleft hside)
  cases hroot : root? c with
  | none =>
    have hnil : c.nodes = [] := by
      cases c with
      | leaf b => rfl
      | branch a' i' l' r' => cases hroot
    rw [hroot] at hdescend
    refine ⟨s.clear a side, ?_, ?_, hclear, fun x _ hx => hother x hx⟩
    · have hagain : (s.clear a side).descend a side = some (none, s.clear a side) :=
        descend_none hfree hclear (by cases side <;> rfl)
      rw [hnil, List.length_nil, Nat.mul_zero, Nat.add_zero, freePatTrie, freePatTrie]
      cases side with
      | false => rw [hdescend, hagain]
      | true =>
        have hstill : (s.clear a true).descend a false = some (none, s.clear a true) :=
          descend_none hfree hclear (hleft rfl)
        rw [hfirst rfl, hstill]
        simp only [Option.bind_eq_bind, Option.bind_some, hdescend, hagain]
    · rw [hnil]
      exact freed_clear belongs s a side
  | some root =>
    have hmem : a ∉ c.nodes := hstand.apart a List.mem_cons_self
    have hpos : 0 < c.nodes.length := by
      cases c with
      | leaf b => cases hroot
      | branch a' i' l' r' => exact Nat.succ_pos _
    have hcleared := hstand.frame (freed_clear belongs s a side)
      (fun x hx => hother x fun heq => hmem (heq ▸ hx)) (fun _ _ => List.not_mem_nil)
      (fun _ _ => List.not_mem_nil) (fun _ _ _ _ _ hn => absurd hn List.not_mem_nil)
    obtain ⟨s', hloop, hfreed, hsame⟩ := hrun _ _ _ _ (fuel + 1) root hcleared hroot
    have hfuel : fuel + 1 + (2 * c.nodes.length - 1) = fuel + 2 * c.nodes.length := by omega
    rw [hfuel] at hloop
    rw [hroot] at hdescend
    refine ⟨s', ?_, ?_, ?_, fun x hx hne => (hsame x hx).trans (hother x hne)⟩
    · rw [freePatTrie]
      cases side with
      | false =>
        rw [hdescend]
        exact hloop
      | true =>
        rw [hfirst rfl]
        simp only [Option.bind_eq_bind, Option.bind_some, hdescend]
        exact hloop
    · exact (freed_clear belongs s a side).trans hfreed fun n hn => absurd hn List.not_mem_nil
    · rw [hsame a hmem, hclear]

/-! ## The whole trie -/

/-- A node without children is freed with its records. -/
theorem freePatTrie_end (parent : Option Nat) (hrecords : Records heap belongs recOf)
    (hfree : a ∉ s.freedNodes)
    (hnode : s.nodes[a]? = some ⟨none, parent, none, i, d, recOf a⟩)
    (hown : belongs a (recOf a)) (hrecs : ∀ m, belongs a m → m ∉ s.freedRecs) (fuel : Nat) :
    ∃ s', freePatTrie heap (fuel + 1) s a = returnTo heap fuel parent s' ∧
      Freed belongs s s' [a] ∧ s'.nodes = s.nodes := by
  obtain ⟨recs, hlist, hnodup, hmem⟩ := hrecords.frees a s.freedRecs hown hrecs
  have hfirst : s.descend a false = some (none, s) := descend_none hfree hnode rfl
  have hsecond : s.descend a true = some (none, s) := descend_none hfree hnode rfl
  refine ⟨{ s with freedNodes := s.freedNodes ++ [a], freedRecs := s.freedRecs ++ recs }, ?_,
    ⟨⟨[a], rfl, .refl _⟩, ⟨recs, rfl, hnodup, fun m => by rw [hmem]; simp⟩, fun x => rfl⟩, rfl⟩
  rw [freePatTrie, hfirst]
  simp only [Option.bind_eq_bind, Option.bind_some, hsecond, Freeing.node_eq hfree, hnode, hlist]
  cases parent <;> rfl

/-- **The loop frees a trie**: first what is left of its root, then what is right, then the root. -/
theorem frees_trie (hrecords : Records heap belongs recOf) (t : Trie) :
    Frees heap belongs recOf t := by
  induction t with
  | leaf b => exact fun _ _ _ _ _ _ _ hroot => by cases hroot
  | branch a i l r ihl ihr =>
    intro s parent bound above fuel root hstand hroot
    cases hroot
    obtain ⟨-, ⟨rec, hnode⟩, hl, hr⟩ := hstand.linked
    obtain ⟨ha, hlr⟩ := List.nodup_cons.mp hstand.nodup
    obtain ⟨hnl, hnr, hne⟩ := List.nodup_append.mp hlr
    have hdisjoint : List.Disjoint l.nodes r.nodes := fun n hn hn' => hne n hn n hn' rfl
    rw [List.mem_append, not_or] at ha
    have hrec : rec = recOf a := hstand.recOf a List.mem_cons_self _ hnode
    subst hrec
    have hinl : ∀ n ∈ l.nodes, n ∈ (branch a i l r).nodes := fun n hn =>
      List.mem_cons_of_mem a (List.mem_append_left _ hn)
    have hinr : ∀ n ∈ r.nodes, n ∈ (branch a i l r).nodes := fun n hn =>
      List.mem_cons_of_mem a (List.mem_append_right _ hn)
    have hfree := hstand.nodes a List.mem_cons_self
    have habove : ∀ n ∈ a :: above, n ∉ s.freedNodes := by
      intro n hn
      rcases List.mem_cons.mp hn with rfl | hn
      · exact hfree
      · exact hstand.above n hn
    have hapart : ∀ n ∈ a :: above, n ∉ l.nodes ∧ n ∉ r.nodes := by
      intro n hn
      rcases List.mem_cons.mp hn with rfl | hn
      · exact ha
      · exact ⟨fun hmem => hstand.apart n hn (hinl n hmem),
          fun hmem => hstand.apart n hn (hinr n hmem)⟩
    have hbelongs : ∀ {xs ys : List Nat}, List.Disjoint xs ys →
        ∀ n ∈ xs, ∀ n' ∈ ys, ∀ m, belongs n m → ¬belongs n' m := by
      intro xs ys hxy n hn n' hn' m hb hb'
      exact hxy hn (hrecords.apart n n' m hb hb' ▸ hn')
    have hstandl : Standing belongs recOf s (some a) (i + 1) (a :: above) l :=
      ⟨hl, hstand.anchored.1, hnl, fun n hn => (hapart n hn).1, habove,
        fun n hn => hstand.nodes n (hinl n hn), fun n hn => hstand.records n (hinl n hn),
        fun n hn => hstand.own n (hinl n hn), fun n hn => hstand.recOf n (hinl n hn)⟩
    have hstandr : Standing belongs recOf s (some a) (i + 1) (a :: above) r :=
      ⟨hr, hstand.anchored.2, hnr, fun n hn => (hapart n hn).2, habove,
        fun n hn => hstand.nodes n (hinr n hn), fun n hn => hstand.records n (hinr n hn),
        fun n hn => hstand.own n (hinr n hn), fun n hn => hstand.recOf n (hinr n hn)⟩
    -- left
    obtain ⟨s₁, hloop₁, hfreed₁, hnode₁, hsame₁⟩ := freePatTrie_side false ihl hstandl
      hnode rfl (fun h => by cases h) (fuel + 2 * r.nodes.length)
    -- right
    have hstandr₁ := hstandr.frame hfreed₁
      (fun x hx => hsame₁ x (fun hx' => hdisjoint hx' hx) fun heq => ha.2 (heq ▸ hx))
      (fun n hn => (hapart n hn).1) (fun n hn hn' => hdisjoint hn' hn)
      (fun n hn m hb n' hn' => hbelongs (List.disjoint_symm hdisjoint) n hn n' hn' m hb)
    obtain ⟨s₂, hloop₂, hfreed₂, hnode₂, hsame₂⟩ := freePatTrie_side true ihr hstandr₁
      hnode₁ rfl (fun _ => rfl) fuel
    -- the root
    have hfreed := hfreed₁.trans hfreed₂ (hbelongs hdisjoint)
    have hlone : List.Disjoint (l.nodes ++ r.nodes) [a] := by
      intro n hn hn'
      rw [List.mem_singleton.mp hn', List.mem_append] at hn
      exact hn.elim ha.1 ha.2
    have hfree₂ : a ∉ s₂.freedNodes := by
      rw [hfreed.mem_nodes, List.mem_append]
      exact not_or.mpr ⟨hfree, not_or.mpr ha⟩
    have hrecs₂ : ∀ m, belongs a m → m ∉ s₂.freedRecs := by
      intro m hm
      rw [hfreed.mem_recs]
      rintro (hmem | ⟨n, hn, hb⟩)
      · exact hstand.records a List.mem_cons_self m hm hmem
      · exact hbelongs hlone n hn a (List.mem_singleton_self a) m hb hm
    obtain ⟨s₃, hloop₃, hfreed₃, hnodes₃⟩ := freePatTrie_end parent hrecords hfree₂
      hnode₂ (hstand.own a List.mem_cons_self) hrecs₂ fuel
    refine ⟨s₃, ?_, ?_, fun x hx => ?_⟩
    · rw [← hloop₃, ← hloop₂, ← hloop₁]
      congr 1
      simp only [Patricia.nodes, List.length_cons, List.length_append]
      omega
    · exact (hfreed.trans hfreed₃ (hbelongs hlone)).perm List.perm_append_comm
    · simp only [Patricia.nodes, List.mem_cons, List.mem_append, not_or] at hx
      rw [hnodes₃, hsame₂ x hx.2.2 hx.1, hsame₁ x hx.2.1 hx.1]

/-! ## The records of a node -/

variable {ids : List Bytes} {id : Bytes}

/-- `free_uid_list` frees the records with one UID, from a place on. -/
theorem freeUidList_spec
    (hheap : ∀ (j : Nat) (r : UidRecord), heap[j]? = some r → IsNext ids j r.next)
    (hlength : heap.length = ids.length) (fuel : Nat) :
    ∀ {j : Nat} {freed : List Nat}, ids[j]? = some id → ids.length ≤ j + fuel →
      (∀ m, j ≤ m → ids[m]? = some id → m ∉ freed) →
      ∃ recs, freeUidList heap fuel freed j = some (freed ++ recs) ∧ recs.Nodup ∧
        ∀ m, m ∈ recs ↔ j ≤ m ∧ ids[m]? = some id := by
  induction fuel with
  | zero =>
    intro j freed hj hfuel
    have hlt := (List.getElem?_eq_some_iff.mp hj).1
    omega
  | succ fuel ih =>
    intro j freed hj hfuel hfresh
    have hlt := (List.getElem?_eq_some_iff.mp hj).1
    obtain ⟨r, hr⟩ : ∃ r, heap[j]? = some r := ⟨_, List.getElem?_eq_getElem (hlength ▸ hlt)⟩
    have hnext := hheap j r hr
    have hmem := hfresh j (Nat.le_refl j) hj
    rw [freeUidList, if_neg hmem, hr]
    simp only [Option.bind_eq_bind, Option.bind_some]
    cases ho : r.next with
    | none =>
      rw [ho] at hnext
      refine ⟨[j], by simp [hmem], (List.nodup_cons.mpr ⟨List.not_mem_nil, List.nodup_nil⟩), fun m => ?_⟩
      rw [List.mem_singleton]
      constructor
      · rintro rfl
        exact ⟨Nat.le_refl _, hj⟩
      · rintro ⟨hle, hm⟩
        by_contra hne
        exact hnext m (by omega) (hm.trans hj.symm)
    | some j' =>
      rw [ho] at hnext
      obtain ⟨hgt, hsame, hbetween⟩ := hnext
      obtain ⟨recs, hlist, hnodup, hrecs⟩ := ih (hsame.trans hj) (by omega)
        fun m hle hm => hfresh m (by omega) hm
      have hnot : j ∉ freed ++ recs := by
        rw [List.mem_append, hrecs, not_or]
        exact ⟨hmem, fun h => by omega⟩
      -- the record is freed behind those that follow it in its list
      refine ⟨recs ++ [j], by simp [hlist, hnot], ?_, fun m => ?_⟩
      · refine List.nodup_append.mpr ⟨hnodup,
          List.nodup_cons.mpr ⟨List.not_mem_nil, List.nodup_nil⟩, fun m hm m' hm' heq => ?_⟩
        rw [List.mem_singleton.mp hm'] at heq
        exact hnot (List.mem_append_right _ (heq ▸ hm))
      · rw [List.mem_append, List.mem_singleton, hrecs]
        constructor
        · rintro (⟨hle, hm⟩ | rfl)
          · exact ⟨by omega, hm⟩
          · exact ⟨Nat.le_refl _, hj⟩
        · rintro ⟨hle, hm⟩
          rcases Nat.lt_or_ge m j' with hlt' | hge
          · rcases Nat.eq_or_lt_of_le hle with rfl | hgt'
            · exact .inr rfl
            · exact absurd (hm.trans hj.symm) (hbetween m hgt' hlt')
          · exact .inl ⟨hge, hm⟩

/-- The record that the node leads to. -/
def recordOf (nodes : List PatNode) (n : Nat) : Nat := (nodes[n]?.map PatNode.record).getD 0

variable {db : TrieDb}

/-- A record belongs to the node with its UID. -/
theorem Represents.records_apart (h : Represents db ids t) {n n' m : Nat}
    (hn : n < db.nodes.length) (hn' : n' < db.nodes.length)
    (hm : ids[m]? = some (nodeId db.nodes ids n)) (hm' : ids[m]? = some (nodeId db.nodes ids n')) :
    n = n' := by
  have hleaf : ∀ n < db.nodes.length, some n ∈ t.leaves := by
    intro n hn
    rw [h.leaves.mem_iff]
    exact List.mem_cons_of_mem _ (List.mem_map_of_mem (h.mem_nodes.mpr hn))
  have hkey : entryKey db.nodes ids (some n) = entryKey db.nodes ids (some n') := by
    rw [entryKey, entryKey, Option.elim, Option.elim, Option.some.inj (hm.symm.trans hm')]
  exact Option.some.inj (h.ordered.key_inj (hleaf n hn) (hleaf n' hn') hkey)

theorem Represents.freeing (h : Represents db ids t) :
    Records db.heap (fun n m => n < db.nodes.length ∧ ids[m]? = some (nodeId db.nodes ids n))
      (recordOf db.nodes) where
  apart _ _ _ hb hb' := h.records_apart hb.1 hb'.1 hb.2 hb'.2
  frees n freed hown hfresh := by
    obtain ⟨hn, hid⟩ := hown
    have hnp : db.nodes[n]? = some db.nodes[n] := List.getElem?_eq_getElem hn
    have hrec : recordOf db.nodes n = db.nodes[n].record := by
      rw [recordOf, hnp]
      rfl
    obtain ⟨id, hfirst, heq⟩ := h.first n _ hnp
    rw [hrec]
    obtain ⟨recs, hlist, hnodup, hrecs⟩ := freeUidList_spec (fun j r hr => (h.heap j r hr).2)
      h.heap_length db.heap.length hfirst.1 (by rw [h.heap_length]; omega)
      fun m _ hm => hfresh m ⟨hn, by rw [heq]; exact hm⟩
    refine ⟨recs, hlist, hnodup, fun m => ?_⟩
    rw [hrecs, heq]
    constructor
    · exact fun hm => ⟨hn, hm.2⟩
    · rintro ⟨-, hm⟩
      refine ⟨?_, hm⟩
      by_contra hlt
      exact hfirst.2 m (by omega) hm

/-! ## Every run -/

/-- The trie of an empty database has no nodes and no entries. -/
theorem Represents.freeUidDb_empty (h : Represents db ids t) (hanchored : Anchored [] t)
    (hroot : root? t = none) : freeUidDb db = some ⟨db.nodes, [], []⟩ ∧ db.nodes.length = 0 ∧
      db.heap.length = 0 := by
  cases t with
  | branch a i l r => cases hroot
  | leaf b =>
    have hb : b = none := by
      cases b with
      | none => rfl
      | some n => exact absurd (hanchored n rfl) List.not_mem_nil
    subst hb
    have hnodes : db.nodes.length = 0 := h.length_nodes.symm
    refine ⟨?_, hnodes, ?_⟩
    · rw [Uid.freeUidDb, h.root]
      rfl
    · rw [h.heap_length, List.length_eq_zero_iff]
      refine List.eq_nil_iff_forall_not_mem.mpr fun id hid => ?_
      obtain ⟨n, hn, -⟩ := h.covered id hid
      omega

/-- Before anything is freed, all of the trie stands. -/
theorem Represents.standing (h : Represents db ids t) (hanchored : Anchored [] t) :
    Standing (fun n m => n < db.nodes.length ∧ ids[m]? = some (nodeId db.nodes ids n))
      (recordOf db.nodes) ⟨db.nodes, [], []⟩ none 0 [] t where
  linked := h.linked
  anchored := hanchored
  nodup := h.nodup
  apart n hn := absurd hn List.not_mem_nil
  above n hn := absurd hn List.not_mem_nil
  nodes n _ := List.not_mem_nil
  records n _ m _ := List.not_mem_nil
  recOf n _ np hnp := by
    rw [recordOf, hnp]
    rfl
  own n hn := by
    obtain ⟨np, hnp⟩ := h.linked.exists_node n hn
    obtain ⟨id, hfirst, heq⟩ := h.first n np hnp
    have hrec : recordOf db.nodes n = np.record := by
      rw [recordOf, hnp]
      rfl
    refine ⟨h.mem_nodes.mp hn, ?_⟩
    rw [hrec, heq]
    exact hfirst.1

/-- **A database that holds UIDs is freed, node by node and record by record, once each.** -/
theorem Represents.freeUidDb (h : Represents db ids t) (hanchored : Anchored [] t) :
    ∃ s, freeUidDb db = some s ∧ s.freedNodes.Perm (List.range db.nodes.length) ∧
      s.freedRecs.Perm (List.range db.heap.length) := by
  cases hroot : root? t with
  | none =>
    obtain ⟨hfree, hnodes, hrecs⟩ := h.freeUidDb_empty hanchored hroot
    exact ⟨_, hfree, by rw [hnodes]; exact .refl _, by rw [hrecs]; exact .refl _⟩
  | some root =>
    have hptr : db.patRoot = some root := by
      rw [h.root, ← hroot]
      cases t with
      | leaf b => cases hroot
      | branch a i l r => rfl
    obtain ⟨s, hloop, hfreed, -⟩ :=
      frees_trie h.freeing t _ _ _ _ 1 root (h.standing hanchored) hroot
    obtain ⟨order, horder, hperm⟩ := hfreed.nodes
    obtain ⟨recs, hrecs, hnodup, hmem⟩ := hfreed.records
    have hpos : 0 < t.nodes.length := by
      cases t with
      | leaf b => cases hroot
      | branch a i l r => exact Nat.succ_pos _
    -- a round goes into each node, and one back from each but the root
    have hfuel : 1 + (2 * t.nodes.length - 1) = 2 * db.nodes.length := by
      rw [← h.length_nodes]
      omega
    refine ⟨s, ?_, ?_, ?_⟩
    · rw [hfuel] at hloop
      rw [Uid.freeUidDb, hptr]
      exact hloop
    · rw [horder]
      exact hperm.trans h.nodes
    · rw [hrecs]
      -- a record is freed with the node in whose list it is, and it is in one list only
      refine (List.perm_ext_iff_of_nodup hnodup List.nodup_range).mpr fun m => ?_
      rw [hmem, List.mem_range, h.heap_length]
      constructor
      · rintro ⟨n, -, -, hm⟩
        exact (List.getElem?_eq_some_iff.mp hm).1
      · intro hm
        obtain ⟨n, hn, heq⟩ := h.covered _ (List.getElem_mem hm)
        exact ⟨n, h.mem_nodes.mpr hn, hn, by rw [heq]; exact List.getElem?_eq_getElem hm⟩

/-- A run keeps every entry below its node. -/
theorem Represents.insertAll_anchored {records : List (Bytes × Mark)} (h : Represents db ids t)
    (hanchored : Anchored [] t) (hids : ∀ id ∈ ids, IsId id)
    (hrecords : ∀ record ∈ records, IsId record.1) : ∃ db' ids' t',
      db.insertAll records = some db' ∧ Represents db' ids' t' ∧ Anchored [] t' := by
  induction records generalizing db ids t with
  | nil => exact ⟨db, ids, t, rfl, h, hanchored⟩
  | cons record records ih =>
    have hid := hrecords record List.mem_cons_self
    obtain ⟨db₁, t₁, hinsert, htrie, h₁, -⟩ := h.uidDbInsert_trie hids hid record.2
    have hanchored₁ : Anchored [] t₁ := by
      rcases htrie with rfl | ⟨k, d, np, rfl⟩
      · exact hanchored
      · exact hanchored.insert
    have hids₁ : ∀ id ∈ ids ++ [record.1], IsId id := by
      intro id hmem
      rcases List.mem_append.mp hmem with hmem | hmem
      · exact hids id hmem
      · exact (List.mem_singleton.mp hmem) ▸ hid
    obtain ⟨db₂, ids₂, t₂, hrun, h₂⟩ := ih h₁ hanchored₁ hids₁
      fun r hr => hrecords r (List.mem_cons_of_mem record hr)
    refine ⟨db₂, ids₂, t₂, ?_, h₂⟩
    rw [TrieDb.insertAll, List.foldlM_cons, hinsert]
    exact hrun

/-- **Freeing is exact**: whatever is inserted, every node and every record is freed once, and
nothing is read that has been freed. -/
theorem freeUidDb_exact (records : List (Bytes × Mark))
    (hrecords : ∀ record ∈ records, IsId record.1) :
    ∃ db s, TrieDb.initUidDb.insertAll records = some db ∧ freeUidDb db = some s ∧
      s.freedNodes.Perm (List.range db.nodes.length) ∧
      s.freedRecs.Perm (List.range db.heap.length) := by
  obtain ⟨db, ids, t, hrun, h, hanchored⟩ :=
    represents_init.insertAll_anchored (fun _ h => by cases h) (by simp) hrecords
  obtain ⟨s, hfree, hnodes, hrecs⟩ := h.freeUidDb hanchored
  exact ⟨db, s, hrun, hfree, hnodes, hrecs⟩

/-- UIDs that start alike, and a UID again. -/
theorem freeUidDb_exact_alike : ∃ db s, TrieDb.initUidDb.insertAll
      [(Bytes.lit "ab", .seen), (Bytes.lit "a", .unseen), (Bytes.lit "ab", .unseen), ([255], .seen)] =
        some db ∧ freeUidDb db = some s ∧ s.freedNodes.Perm (List.range db.nodes.length) ∧
      s.freedRecs.Perm (List.range db.heap.length) :=
  freeUidDb_exact _ (by unfold IsId; decide)

end

end Fetchmail.Uid
