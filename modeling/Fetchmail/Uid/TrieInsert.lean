import Fetchmail.Uid.TrieLinks

/-!
# Insertion into the Nodes

`pat_insert` changes the nodes as the insertion into the trie asks for: whether `walk_up` is
needed or the last edge is split, the new node is the branch on the edge of its key.
-/

namespace Fetchmail.Uid

open Fetchmail.Lib Patricia

/-- The last element is changed. -/
theorem modify_concat {α : Type} (xs : List α) (x : α) (f : α → α) :
    (xs ++ [x]).modify xs.length f = xs ++ [f x] := by
  refine List.ext_getElem? fun i => ?_
  rw [List.getElem?_modify]
  rcases Nat.lt_trichotomy i xs.length with hlt | rfl | hgt
  · rw [List.getElem?_append_left hlt, List.getElem?_append_left hlt]
    simp [Nat.ne_of_gt hlt]
  · simp
  · rw [List.getElem?_eq_none (by simp; omega), List.getElem?_eq_none (by simp; omega)]
    rfl

namespace TrieDb

/-- A new node is there, with its bit. -/
def withNode (db : TrieDb) (rec d : Nat) : TrieDb :=
  { db with
    nodes := db.nodes ++ [⟨none, none, none, d, bitMask d, rec⟩]
    heap := db.heap.modify rec fun r => { r with next := none } }

/-- A node from `get_pat_node`, with its bit set. -/
theorem getPatNode_setBitNdx (db : TrieDb) (rec d : Nat) :
    (db.getPatNode rec).1 = db.nodes.length ∧
      (db.getPatNode rec).2.setBitNdx db.nodes.length d = db.withNode rec d := by
  refine ⟨rfl, ?_⟩
  simp only [getPatNode, modifyRecord, setBitNdx, modifyNode, modify_concat]
  rfl

/-- A node from `get_standalone_node` has the first bit in which its UID differs from zeros. -/
theorem getStandaloneNode_eq (db : TrieDb) (rec : Nat) (id : Bytes) :
    db.getStandaloneNode rec id = (db.nodes.length,
      db.withNode rec (firstSetBitInChar (Bytes.charAt id 0).toNat)) := by
  obtain ⟨hnp, hdb⟩ := db.getPatNode_setBitNdx rec (firstSetBitInChar (Bytes.charAt id 0).toNat)
  exact Prod.ext hnp hdb

end TrieDb

/-- The nodes after an edge has been split: the node below gets a new parent, the edge leads to
the new node, and the new node gets its pointers. -/
def splitNodes (nodes : List PatNode) (edge : Option (Nat × Bool)) (below : Trie) (k : Bits)
    (d np : Nat) : List PatNode :=
  let nodes := match root? below with
    | some q => nodes.modify q fun node => { node with parent := some np }
    | none => nodes
  let nodes := match edge with
    | some (p, side) => nodes.modify p fun node => node.setChild side (some np)
    | none => nodes
  let nodes := nodes.modify np fun node => { node with parent := edge.map (·.1) }
  nodes.modify np fun node => (node.setChild (k d) (some np)).setChild (!k d) (ptr below)

/-- No node is added here. -/
theorem length_splitNodes (nodes : List PatNode) (edge : Option (Nat × Bool)) (below : Trie)
    (k : Bits) (d np : Nat) : (splitNodes nodes edge below k d np).length = nodes.length := by
  unfold splitNodes
  cases root? below <;> rcases edge with _ | ⟨p, s⟩ <;> simp

/-- The pointer is set first, then the parent. -/
theorem adjust_eq (edge : Option (Nat × Bool)) (below : Trie) (np x : Nat) :
    adjust edge below np x = fun node =>
      let node := match edge with
        | some (p, side) => if p = x then node.setChild side (some np) else node
        | none => node
      if root? below = some x then { node with parent := some np } else node := by
  funext node
  rcases edge with _ | ⟨p, s⟩
  · by_cases hq : root? below = some x <;> simp [adjust, hq]
  · cases s <;> by_cases hq : root? below = some x <;> by_cases hpx : p = x <;>
      simp [adjust, hq, hpx, PatNode.setChild]

/-- The nodes are linked as the insertion into the trie asks for. -/
theorem grafted_splitNodes (nodes : List PatNode) (edge : Option (Nat × Bool)) (below : Trie)
    (k : Bits) (d rec : Nat) (hedge : ∀ s, edge ≠ some (nodes.length, s))
    (hbelow : root? below ≠ some nodes.length) :
    Grafted nodes (splitNodes (nodes ++ [⟨none, none, none, d, bitMask d, rec⟩]) edge below k d
      nodes.length) edge below k d nodes.length rec where
  new := by
    have hnew : (nodes ++ [(⟨none, none, none, d, bitMask d, rec⟩ : PatNode)])[nodes.length]? =
        some ⟨none, none, none, d, bitMask d, rec⟩ := by simp
    have hq : ∀ q, root? below = some q → q ≠ nodes.length := fun q h heq => hbelow (heq ▸ h)
    have hp : ∀ p s, edge = some (p, s) → p ≠ nodes.length := fun p s h heq => hedge s (heq ▸ h)
    unfold splitNodes
    cases hroot : root? below with
    | none =>
      rcases edge with _ | ⟨p, s⟩
      · cases k d <;> simp [PatNode.setChild]
      · have hpn := hp p s rfl
        cases k d <;> simp [PatNode.setChild, hpn]
    | some q =>
      have hqn := hq q hroot
      rcases edge with _ | ⟨p, s⟩
      · cases k d <;> simp [PatNode.setChild, hqn]
      · have hpn := hp p s rfl
        cases k d <;> simp [PatNode.setChild, hqn, hpn]
  old x hx := by
    have hsame : (nodes ++ [(⟨none, none, none, d, bitMask d, rec⟩ : PatNode)])[x]? = nodes[x]? := by
      rcases Nat.lt_or_gt_of_ne hx with hlt | hgt
      · exact List.getElem?_append_left hlt
      · rw [List.getElem?_eq_none (by simp; omega), List.getElem?_eq_none (by omega)]
    have hxn : nodes.length ≠ x := Ne.symm hx
    rw [adjust_eq]
    unfold splitNodes
    generalize root? below = q
    simp only [List.getElem?_modify, if_neg hxn]
    -- the pointers and the parent are set one after the other
    have hcomm : ∀ (p q : Nat) (s : Bool) (node : PatNode),
        (if p = x then (if q = x then { node with parent := some nodes.length } else node).setChild s
            (some nodes.length) else if q = x then { node with parent := some nodes.length } else node) =
          (if q = x then { (if p = x then node.setChild s (some nodes.length) else node) with
            parent := some nodes.length }
            else if p = x then node.setChild s (some nodes.length) else node) := by
      intro p q s node
      by_cases hp : p = x <;> by_cases hq : q = x <;> cases s <;> simp [hp, hq, PatNode.setChild]
    rcases edge with _ | ⟨p, s⟩ <;> cases q <;>
      simp [List.getElem?_modify, hsame, Function.comp_def, hcomm]

/-- The nodes of a trie are there. -/
theorem Linked.exists_node {nodes : List PatNode} {t : Trie} : ∀ {parent : Option Nat} {bound : Nat},
    Linked nodes parent bound t → ∀ x ∈ t.nodes, ∃ node, nodes[x]? = some node := by
  induction t with
  | leaf b => exact fun _ x hx => by cases hx
  | branch a i l r ihl ihr =>
    intro parent bound h x hx
    obtain ⟨-, ⟨rec, hnode⟩, hl, hr⟩ := h
    rcases List.mem_cons.mp hx with rfl | hx
    · exact ⟨_, hnode⟩
    · rcases List.mem_append.mp hx with hx | hx
      · exact ihl hl x hx
      · exact ihr hr x hx

/-- The nodes of a trie are among those there are. -/
theorem Linked.lt_length {nodes : List PatNode} {t : Trie} {parent : Option Nat} {bound : Nat}
    (h : Linked nodes parent bound t) {x : Nat} (hx : x ∈ t.nodes) : x < nodes.length := by
  obtain ⟨node, hnode⟩ := h.exists_node x hx
  exact (List.getElem?_eq_some_iff.mp hnode).1

/-- Further nodes do not disturb the links. -/
theorem Linked.append {nodes : List PatNode} {t : Trie} {parent : Option Nat} {bound : Nat}
    (h : Linked nodes parent bound t) (new : PatNode) : Linked (nodes ++ [new]) parent bound t :=
  h.frame (fun x hx => List.getElem?_append_left (h.lt_length hx)) fun n np hn =>
    ⟨np, by rw [List.getElem?_append_left (List.getElem?_eq_some_iff.mp hn).1, hn], rfl⟩

/-- Wherever the branch goes, the nodes are split there. -/
theorem linkNode_spec (db : TrieDb) {a i : Nat} {l r : Trie} (id : Bytes) (rec d : Nat)
    (h : Linked db.nodes none 0 (.branch a i l r)) (hnodup : (branch a i l r).nodes.Nodup)
    (hcount : (branch a i l r).nodes.length ≤ db.nodes.length) {n : Nat} {s : Bool}
    (hlast : (branch a i l r).lastEdge (idBits id) none = some (n, s)) :
    ∃ edge below, (branch a i l r).place (idBits id) d none = (edge, below) ∧
      (db.withNode rec d).linkNode id db.nodes.length ((branch a i l r).search (idBits id)) n s =
        some { db.withNode rec d with
          nodes := splitNodes (db.nodes ++ [⟨none, none, none, d, bitMask d, rec⟩]) edge below
            (idBits id) d db.nodes.length
          patRoot := if edge = none then some db.nodes.length else db.patRoot } := by
  have hlinked := h.append ⟨none, none, none, d, bitMask d, rec⟩
  have hn : n ∈ (branch a i l r).nodes := by
    rcases lastEdge_mem hlast with hn | hn
    · cases hn
    · exact hn
  obtain ⟨np, hnp⟩ := hlinked.exists_node n hn
  have hnew : (db.nodes ++ [(⟨none, none, none, d, bitMask d, rec⟩ : PatNode)])[db.nodes.length]? =
      some ⟨none, none, none, d, bitMask d, rec⟩ := by simp
  have hnodes : (db.withNode rec d).nodes =
      db.nodes ++ [⟨none, none, none, d, bitMask d, rec⟩] := rfl
  have hlength : (branch a i l r).nodes.length ≤
      (db.nodes ++ [(⟨none, none, none, d, bitMask d, rec⟩ : PatNode)]).length := by
    simp only [List.length_append, List.length_cons, List.length_nil]
    omega
  unfold TrieDb.linkNode
  rw [hnodes, hnp, hnew]
  simp only [Option.bind_eq_bind, Option.bind_some]
  by_cases hbit : d < np.bitNdx
  · rw [if_pos hbit]
    by_cases hd : d < i
    · -- up to the root
      obtain ⟨j, hj, hclimb⟩ := walkUp_climb (idBits id) _ rfl hlinked hlast hd
      obtain ⟨rec', ha⟩ := hlinked.2.1
      obtain ⟨f, hf⟩ := Nat.exists_eq_add_of_lt (Nat.lt_of_lt_of_le hj hlength)
      have hfuel : j + f + 1 = f + 1 + j := by omega
      have hwalk : walkUp (db.nodes ++ [⟨none, none, none, d, bitMask d, rec⟩]) d (f + 1) a =
          some (a, none) := by
        rw [walkUp, ha]
        rfl
      refine ⟨none, branch a i l r, by rw [place_branch, if_pos hd], ?_⟩
      rw [hf, hfuel, hclimb, hwalk]
      simp only [Option.bind_some, TrieDb.splitEdge, bitSet_eq]
      rfl
    -- up to the edge that the bit belongs on
    · obtain ⟨p, side, q, below, hplace, ⟨i', l', r', rfl⟩, ⟨node, hp, hside⟩, hwalk⟩ :=
        walkUp_place (idBits id) _ rfl hlinked hnodup hlast hnp hbit (Nat.not_lt.mp hd)
      refine ⟨some (p, side), _, hplace, ?_⟩
      rw [hwalk _ hlength]
      simp only [Option.bind_some, hp]
      have hsame : (if node.left = some q then false else true) = side := by
        cases side <;> simp [hside]
      simp only [hsame, TrieDb.splitEdge, bitSet_eq]
      rfl
  -- below the last node, on the edge that was followed last
  · rw [if_neg hbit]
    obtain ⟨-, hplace⟩ := place_last (d := d) (idBits id) _ rfl hlinked hlast hnp
    refine ⟨some (n, s), _, hplace (Nat.not_lt.mp hbit), ?_⟩
    simp only [TrieDb.splitEdge, bitSet_eq]
    rfl

end Fetchmail.Uid
