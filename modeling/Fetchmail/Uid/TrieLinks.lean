import Fetchmail.Uid.TrieBits

/-!
# The Nodes as a Tree

The nodes of the UID database hold a PATRICIA trie: a branch for each node, and an entry for
each pointer that goes back up, or for the null pointer that stands for no UID. `walk_down`
and `walk_up` move in the trie, and `pat_insert` puts a new branch on an edge of it.
-/

namespace Fetchmail.Uid

open Fetchmail.Lib Patricia

/-- The trie in the nodes. -/
abbrev Trie := Patricia Nat (Option Nat)

/-- The pointer to a trie. -/
def ptr : Trie → Option Nat
  | .leaf b => b
  | .branch a _ _ _ => some a

/-- The nodes hold the trie below the node `parent`, with bits from `bound` on; an entry is a
node with a bit before. -/
def Linked (nodes : List PatNode) : Option Nat → Nat → Trie → Prop
  | _, bound, .leaf b => ∀ n, b = some n → ∃ np, nodes[n]? = some np ∧ np.bitNdx < bound
  | parent, bound, .branch a i l r => bound ≤ i ∧
      (∃ rec, nodes[a]? = some ⟨ptr l, parent, ptr r, i, bitMask i, rec⟩) ∧
      Linked nodes (some a) (i + 1) l ∧ Linked nodes (some a) (i + 1) r

section

variable {nodes : List PatNode} {parent : Option Nat} {bound : Nat} {id : Bytes} {d : Nat}

theorem Linked.side {a i : Nat} {l r : Trie} (h : Linked nodes parent bound (.branch a i l r))
    (s : Bool) : Linked nodes (some a) (i + 1) (Patricia.side s l r) := by
  obtain ⟨-, -, hl, hr⟩ := h
  cases s
  · exact hl
  · exact hr

/-! ## Down -/

theorem walkDown_succ {a i rec : Nat} {l r : Trie}
    (hnode : nodes[a]? = some ⟨ptr l, parent, ptr r, i, bitMask i, rec⟩)
    {loaded : Loaded} (hloaded : loaded.Valid id) (fuel : Nat) :
    walkDown nodes id (fuel + 1) a loaded =
      (match ptr (Patricia.side (idBits id i) l r) with
        | none => some (none, a, idBits id i)
        | some next => do
          let nextNode ← nodes[next]?
          if i < nextNode.bitNdx then
            walkDown nodes id fuel next (some (bitOfs i, byteAt id (bitOfs i)))
          else return (some next, a, idBits id i)) := by
  have hchild : (PatNode.mk (ptr l) parent (ptr r) i (bitMask i) rec).child (idBits id i) =
      ptr (Patricia.side (idBits id i) l r) := by
    cases idBits id i <;> rfl
  rw [walkDown, hnode]
  simp only [Option.bind_eq_bind, Option.bind_some, hloaded.load, edge_eq, hchild]
  rfl

theorem walkDown_step {a i rec : Nat} {l r : Trie}
    (hnode : nodes[a]? = some ⟨ptr l, parent, ptr r, i, bitMask i, rec⟩)
    (hlinked : Linked nodes (some a) (i + 1) (Patricia.side (idBits id i) l r))
    {loaded : Loaded} (hloaded : loaded.Valid id) (fuel : Nat) :
    ∃ loaded' : Loaded, loaded'.Valid id ∧ walkDown nodes id (fuel + 1) a loaded =
      match Patricia.side (idBits id i) l r with
      | .leaf b => some (b, a, idBits id i)
      | .branch a' _ _ _ => walkDown nodes id fuel a' loaded' := by
  refine ⟨some (bitOfs i, byteAt id (bitOfs i)), ?_, ?_⟩
  · intro ofs v h
    cases h
    rfl
  rw [walkDown_succ hnode hloaded]
  cases hside : Patricia.side (idBits id i) l r with
  | leaf b =>
    rw [hside] at hlinked
    cases b with
    | none => rfl
    | some n =>
      -- the entry is above
      obtain ⟨np, hnp, hbit⟩ := hlinked n rfl
      have hup : ¬ i < np.bitNdx := by omega
      simp [ptr, hnp, hup]
  | branch a' i' l' r' =>
    rw [hside] at hlinked
    obtain ⟨hle, ⟨rec', hnp⟩, -, -⟩ := hlinked
    have hdown : i < i' := hle
    simp [ptr, hnp, hdown]

/-- `walk_down` ends where the search does. -/
theorem walkDown_spec (id : Bytes) (t : Trie) : ∀ {parent : Option Nat} {bound : Nat}
    {e : Option (Nat × Bool)} {a i : Nat} {l r : Trie}, t = .branch a i l r →
    Linked nodes parent bound t → ∀ {loaded : Loaded}, loaded.Valid id → ∀ {fuel : Nat},
    t.nodes.length ≤ fuel → ∃ n s, t.lastEdge (idBits id) e = some (n, s) ∧
      walkDown nodes id fuel a loaded = some (t.search (idBits id), n, s) := by
  induction t using Patricia.rec_side (idBits id) with
  | leaf b => exact fun h => by cases h
  | branch a i l r ih =>
    intro parent bound e a' i' l' r' heq h loaded hloaded fuel hfuel
    cases heq
    obtain ⟨rec, hnode⟩ := h.2.1
    have hside := h.side (idBits id i)
    have hlen := length_nodes_side (idBits id i) a i l r
    obtain ⟨fuel, rfl⟩ : ∃ f, fuel = f + 1 := ⟨fuel - 1, by omega⟩
    obtain ⟨loaded', hloaded', hwalk⟩ := walkDown_step hnode hside hloaded fuel
    rw [lastEdge_branch, search_branch, hwalk]
    cases hs : Patricia.side (idBits id i) l r with
    | leaf b => exact ⟨a, idBits id i, rfl, rfl⟩
    | branch b j l' r' =>
      rw [hs] at hside ih hlen
      exact ih rfl hside hloaded' (by omega)

/-- `find_uid_by_id` has a copy of the loop. -/
theorem findLoop_eq (nodes : List PatNode) (id : Bytes) (fuel cur : Nat) (loaded : Loaded) :
    TrieDb.findLoop nodes id fuel cur loaded = (walkDown nodes id fuel cur loaded).map (·.1) := by
  induction fuel generalizing cur loaded with
  | zero => rfl
  | succ fuel ih =>
    rw [TrieDb.findLoop, walkDown]
    cases nodes[cur]? with
    | none => rfl
    | some np =>
      simp only [Option.bind_eq_bind, Option.bind_some]
      cases np.child _ with
      | none => rfl
      | some next =>
        simp only
        cases nodes[next]? with
        | none => rfl
        | some nextNode =>
          simp only [Option.bind_some]
          split
          · exact ih _ _
          · rfl

/-! ## Up -/

theorem walkUp_step {a b i : Nat} {np : PatNode} {node : PatNode} (hb : nodes[b]? = some np)
    (hparent : np.parent = some a) (ha : nodes[a]? = some node) (hbit : node.bitNdx = i)
    (fuel : Nat) : walkUp nodes d (fuel + 1) b =
      if d < i then walkUp nodes d fuel a else some (b, some a) := by
  rw [walkUp, hb]
  simp only [Option.bind_eq_bind, Option.bind_some, hparent, ha, hbit]
  rfl

/-- From the last edge up to a branch, as long as the bits are behind `d`. -/
theorem walkUp_climb (k : Bits) (t : Trie) : ∀ {parent : Option Nat} {bound : Nat}
    {e : Option (Nat × Bool)} {n : Nat} {s : Bool} {a i : Nat} {l r : Trie}, t = .branch a i l r →
    Linked nodes parent bound t → t.lastEdge k e = some (n, s) → d < i →
    ∃ j < t.nodes.length, ∀ fuel, walkUp nodes d (fuel + 1 + j) n = walkUp nodes d (fuel + 1) a := by
  induction t using Patricia.rec_side k with
  | leaf b => exact fun h => by cases h
  | branch a i l r ih =>
    intro parent bound e n s a' i' l' r' heq h hlast hd
    cases heq
    obtain ⟨rec, hnode⟩ := h.2.1
    have hside := h.side (k i)
    have hlen := length_nodes_side (k i) a i l r
    rw [lastEdge_branch] at hlast
    cases hs : Patricia.side (k i) l r with
    | leaf b =>
      rw [hs] at hlast
      cases hlast
      exact ⟨0, by omega, fun fuel => rfl⟩
    | branch b i' l' r' =>
      rw [hs] at hside ih hlen hlast
      obtain ⟨hle, ⟨rec', hb⟩, -, -⟩ := id hside
      obtain ⟨j, hj, hclimb⟩ := ih rfl hside hlast (by omega)
      refine ⟨j + 1, by omega, fun fuel => ?_⟩
      have hfuel : fuel + 1 + (j + 1) = fuel + 1 + 1 + j := by omega
      rw [hfuel, hclimb, walkUp_step hb rfl hnode rfl, if_pos hd]

/-- `walk_up` finds the edge that the new branch goes to, and the sides of its node are told
apart by the pointer. -/
theorem walkUp_place (k : Bits) (t : Trie) : ∀ {parent : Option Nat} {bound : Nat}
    {e : Option (Nat × Bool)} {n : Nat} {s : Bool} {np : PatNode} {a i : Nat} {l r : Trie},
    t = .branch a i l r → Linked nodes parent bound t → t.nodes.Nodup →
    t.lastEdge k e = some (n, s) → nodes[n]? = some np → d < np.bitNdx → i ≤ d →
    ∃ p side q below, t.place k d e = (some (p, side), below) ∧ (∃ i' l' r', below = .branch q i' l' r') ∧
      (∃ node, nodes[p]? = some node ∧ (node.left = some q ↔ side = false)) ∧
      ∀ fuel, t.nodes.length ≤ fuel → walkUp nodes d fuel n = some (q, some p) := by
  induction t using Patricia.rec_side k with
  | leaf b => exact fun h => by cases h
  | branch a i l r ih =>
    intro parent bound e n s np a' i' l' r' heq h hnodup hlast hn hbit hle
    cases heq
    obtain ⟨rec, hnode⟩ := h.2.1
    have hside := h.side (k i)
    have hlen := length_nodes_side (k i) a i l r
    have hnodups := nodup_side (k i) hnodup
    rw [lastEdge_branch] at hlast
    rw [place_branch, if_neg (by omega)]
    cases hs : Patricia.side (k i) l r with
    | leaf b =>
      -- the last edge starts here
      rw [hs] at hlast
      cases hlast
      rw [hnode] at hn
      cases hn
      exact absurd hbit (by simp only; omega)
    | branch b i' l' r' =>
      rw [hs] at hside ih hlen hlast hnodups
      obtain ⟨hle', ⟨rec', hb⟩, -, -⟩ := id hside
      by_cases hd : d < i'
      · -- the edge to this branch
        refine ⟨a, k i, b, .branch b i' l' r', ?_, ⟨i', l', r', rfl⟩, ⟨_, hnode, ?_⟩, ?_⟩
        · rw [place, if_pos hd]
        · simp only
          cases hk : k i with
          | false =>
            rw [hk] at hs
            have hl : l = .branch b i' l' r' := hs
            simp [hl, ptr]
          | true =>
            rw [hk] at hs
            have hr : r = .branch b i' l' r' := hs
            simp only [reduceCtorEq, iff_false]
            intro hptr
            cases l with
            | leaf c =>
              obtain ⟨np', hnp', hlt⟩ := h.2.2.1 b hptr
              rw [hb] at hnp'
              cases hnp'
              simp only at hlt
              omega
            | branch c _ _ _ =>
              cases hptr
              rw [hr] at hnodup
              simp [Patricia.nodes, List.nodup_append] at hnodup
        · intro fuel hfuel
          obtain ⟨j, hj, hclimb⟩ := walkUp_climb k _ rfl hside hlast hd
          obtain ⟨f, rfl⟩ : ∃ f, fuel = f + 1 + j := ⟨fuel - 1 - j, by omega⟩
          rw [hclimb, walkUp_step hb rfl hnode rfl, if_neg (Nat.not_lt.mpr hle)]
      · obtain ⟨p, side, q, below, hplace, hbelow, hsides, hwalk⟩ :=
          ih (e := some (a, k i)) rfl hside hnodups hlast hn hbit (by omega)
        exact ⟨p, side, q, below, hplace, hbelow, hsides, fun fuel hfuel => hwalk fuel (by omega)⟩

/-- The new branch goes to the last edge, if its bit is not behind `d`. -/
theorem place_last (k : Bits) (t : Trie) : ∀ {parent : Option Nat} {bound : Nat}
    {e : Option (Nat × Bool)} {n : Nat} {s : Bool} {np : PatNode} {a i : Nat} {l r : Trie},
    t = .branch a i l r → Linked nodes parent bound t →
    t.lastEdge k e = some (n, s) → nodes[n]? = some np → i ≤ np.bitNdx ∧
      (np.bitNdx ≤ d → t.place k d e = (some (n, s), .leaf (t.search k))) := by
  induction t using Patricia.rec_side k with
  | leaf b => exact fun h => by cases h
  | branch a i l r ih =>
    intro parent bound e n s np a' i' l' r' heq h hlast hn
    cases heq
    obtain ⟨rec, hnode⟩ := h.2.1
    have hside := h.side (k i)
    rw [lastEdge_branch] at hlast
    rw [place_branch, search_branch]
    cases hs : Patricia.side (k i) l r with
    | leaf b =>
      rw [hs] at hlast
      cases hlast
      rw [hnode] at hn
      cases hn
      exact ⟨Nat.le_refl _, fun hle => by rw [if_neg (Nat.not_lt.mpr hle)]; rfl⟩
    | branch b i' l' r' =>
      rw [hs] at hside ih hlast
      obtain ⟨hle, hplace⟩ := ih (e := some (a, k i)) rfl hside hlast hn
      have hlt := hside.1
      refine ⟨by omega, fun hbit => ?_⟩
      rw [if_neg (by omega), hplace hbit]

/-! ## A new branch -/

/-- The node that a pointer to the trie leads to and that is its branch. -/
def root? : Trie → Option Nat
  | .leaf _ => none
  | .branch a _ _ _ => some a

/-- A node after the branch `np` has been put on an edge. -/
def adjust (edge : Option (Nat × Bool)) (below : Trie) (np x : Nat) (node : PatNode) : PatNode :=
  { node with
    left := if edge = some (x, false) then some np else node.left
    right := if edge = some (x, true) then some np else node.right
    parent := if root? below = some x then some np else node.parent }

/-- The branch `np` has been put on an edge. -/
structure Grafted (nodes nodes' : List PatNode) (edge : Option (Nat × Bool)) (below : Trie)
    (k : Bits) (d np rec : Nat) : Prop where
  new : nodes'[np]? = some ⟨if k d then ptr below else some np, edge.map (·.1),
    if k d then some np else ptr below, d, bitMask d, rec⟩
  old : ∀ x, x ≠ np → nodes'[x]? = (nodes[x]?).map (adjust edge below np x)

/-- A trie of which no node is touched. -/
theorem Linked.frame {nodes' : List PatNode} {t : Trie} (h : Linked nodes parent bound t)
    (hsame : ∀ x ∈ t.nodes, nodes'[x]? = nodes[x]?)
    (hbits : ∀ (n : Nat) (np : PatNode), nodes[n]? = some np →
      ∃ np' : PatNode, nodes'[n]? = some np' ∧ np'.bitNdx = np.bitNdx) :
    Linked nodes' parent bound t := by
  induction t generalizing parent bound with
  | leaf b =>
    intro n hn
    obtain ⟨np, hnp, hlt⟩ := h n hn
    obtain ⟨np', hnp', hbit⟩ := hbits n np hnp
    exact ⟨np', hnp', hbit ▸ hlt⟩
  | branch a i l r ihl ihr =>
    obtain ⟨hle, ⟨rec, hnode⟩, hl, hr⟩ := h
    simp only [Patricia.nodes, List.mem_cons, List.mem_append] at hsame
    refine ⟨hle, ⟨rec, ?_⟩, ihl hl (fun x hx => hsame x (.inr (.inl hx))),
      ihr hr (fun x hx => hsame x (.inr (.inr hx)))⟩
    rw [hsame a (.inl rfl), hnode]

variable {nodes' : List PatNode} {edge : Option (Nat × Bool)} {below : Trie} {k : Bits} {np rec : Nat}

/-- The nodes that are neither at the edge nor below it are not touched. -/
theorem Grafted.same (h : Grafted nodes nodes' edge below k d np rec) {x : Nat} (hx : x ≠ np)
    (hedge : ∀ s, edge ≠ some (x, s)) (hbelow : root? below ≠ some x) : nodes'[x]? = nodes[x]? := by
  have hid : adjust edge below np x = fun node => node := by
    funext node
    simp [adjust, hedge, hbelow]
  rw [h.old x hx, hid]
  exact congrFun Option.map_id _

theorem Grafted.bits (h : Grafted nodes nodes' edge below k d np rec) (hnp : nodes[np]? = none) :
    ∀ (n : Nat) (node : PatNode), nodes[n]? = some node →
      ∃ node' : PatNode, nodes'[n]? = some node' ∧ node'.bitNdx = node.bitNdx := by
  intro n node hn
  have hne : n ≠ np := by
    rintro rfl
    rw [hnp] at hn
    cases hn
  exact ⟨adjust edge below np n node, by rw [h.old n hne, hn]; rfl, rfl⟩

/-- The edge is the one to the trie, or it starts at a branch of the trie. -/
theorem place_cases (k : Bits) (d np : Nat) (t : Trie) : ∀ {e edge : Option (Nat × Bool)}
    {below : Trie}, t.place k d e = (edge, below) →
    (∀ q, root? below = some q → q ∈ t.nodes) ∧
      (edge = e ∧ below = t ∧ t.insert k d np (some np) = t.graft k d np (some np) ∨
        ∃ p s, edge = some (p, s) ∧ p ∈ t.nodes ∧ ptr (t.insert k d np (some np)) = ptr t) := by
  induction t using Patricia.rec_side k with
  | leaf b =>
    intro e edge below h
    cases h
    exact ⟨(fun q hq => by cases hq), .inl ⟨rfl, rfl, rfl⟩⟩
  | branch a i l r ih =>
    intro e edge below h
    rw [place_branch] at h
    -- the new branch goes above this one, or further down on the side of the key
    by_cases hd : d < i
    · rw [if_pos hd] at h
      cases h
      refine ⟨fun q hq => ?_, .inl ⟨rfl, rfl, by rw [Patricia.insert, if_pos hd]⟩⟩
      cases hq
      exact List.mem_cons_self
    · rw [if_neg hd] at h
      obtain ⟨hbelow, hedge⟩ := ih h
      refine ⟨fun q hq => mem_nodes_side (hbelow q hq), .inr ?_⟩
      have hptr : ptr ((branch a i l r).insert k d np (some np)) = ptr (branch a i l r) := by
        rw [Patricia.insert, if_neg hd]
        split <;> rfl
      rcases hedge with ⟨rfl, -, -⟩ | ⟨p, s, rfl, hp, -⟩
      · exact ⟨a, k i, rfl, List.mem_cons_self, hptr⟩
      · exact ⟨p, s, rfl, mem_nodes_side hp, hptr⟩

theorem ptr_graft (k : Bits) (d np : Nat) (t : Trie) : ptr (t.graft k d np (some np)) = some np := by
  unfold graft
  split <;> rfl

/-- A branch over a trie of which the root, if it is a branch, has got a new parent. -/
theorem Linked.graft {t : Trie} (h : Grafted nodes nodes' edge t k d np rec) (hbound : bound ≤ d)
    (hedge : edge.map (·.1) = parent) (ht : Linked nodes' (some np) (d + 1) t) :
    Linked nodes' parent bound (t.graft k d np (some np)) := by
  have hnew := h.new
  have hself : Linked nodes' (some np) (d + 1) (.leaf (some np)) := by
    intro n hn
    cases hn
    exact ⟨_, hnew, Nat.lt_succ_self d⟩
  rw [hedge] at hnew
  unfold Patricia.graft
  cases hk : k d with
  | false =>
    rw [hk] at hnew
    exact ⟨hbound, ⟨rec, hnew⟩, hself, ht⟩
  | true =>
    rw [hk] at hnew
    exact ⟨hbound, ⟨rec, hnew⟩, ht, hself⟩

/-- The links after the insertion of a key. By induction along its way: at the branches above
the edge only the pointer to the new branch may change. -/
theorem Linked.insert {key : Option Nat → Bits} (k : Bits) (t : Trie) :
    ∀ {parent : Option Nat} {bound : Nat} {e : Option (Nat × Bool)}, Linked nodes parent bound t →
    t.nodes.Nodup → np ∉ t.nodes → nodes[np]? = none → bound ≤ d → e.map (·.1) = parent →
    (∀ p s, e = some (p, s) → p ∉ t.nodes) → t.Ordered key → FirstDiff k (key (t.search k)) d →
    t.place k d e = (edge, below) → Grafted nodes nodes' edge below k d np rec →
    Linked nodes' parent bound (t.insert k d np (some np)) := by
  induction t using Patricia.rec_side k with
  | leaf b =>
    intro parent bound e h _ _ hnp hbound he _ _ _ hplace hgrafted
    cases hplace
    refine Linked.graft hgrafted hbound he fun n hn => ?_
    obtain ⟨node, hnode, hlt⟩ := h n hn
    obtain ⟨node', hnode', hbit⟩ := hgrafted.bits hnp n node hnode
    exact ⟨node', hnode', by omega⟩
  | branch a i l r ih =>
    intro parent bound e h hnodup hfresh hnp hbound he habove hordered hdiff hplace hgrafted
    obtain ⟨hle, ⟨rec, hnode⟩, hl, hr⟩ := id h
    have hane : a ≠ np := by
      rintro rfl
      rw [hnp] at hnode
      cases hnode
    obtain ⟨ha, hlr⟩ := List.nodup_cons.mp hnodup
    simp only [List.mem_append, not_or] at ha
    simp only [Patricia.nodes, List.mem_cons, List.mem_append, not_or] at hfresh
    rw [place_branch] at hplace
    by_cases hd : d < i
    · -- the new branch is over this one
      rw [if_pos hd] at hplace
      cases hplace
      rw [Patricia.insert, if_pos hd]
      refine Linked.graft hgrafted hbound he ⟨hd, ⟨rec, ?_⟩, ?_, ?_⟩
      · have hedge : ∀ s, edge ≠ some (a, s) := fun s hs => habove a s hs List.mem_cons_self
        rw [hgrafted.old a hane, hnode]
        simp [adjust, hedge, root?]
      · refine hl.frame (fun x hx => hgrafted.same ?_ (fun s hs => ?_) fun hx' => ?_)
          (hgrafted.bits hnp)
        · exact fun heq => hfresh.2.1 (heq ▸ hx)
        · exact habove x s hs (List.mem_cons_of_mem _ (List.mem_append_left _ hx))
        · cases hx'
          exact ha.1 hx
      · refine hr.frame (fun x hx => hgrafted.same ?_ (fun s hs => ?_) fun hx' => ?_)
          (hgrafted.bits hnp)
        · exact fun heq => hfresh.2.2 (heq ▸ hx)
        · exact habove x s hs (List.mem_cons_of_mem _ (List.mem_append_right _ hx))
        · cases hx'
          exact ha.2 hx
    · rw [if_neg hd] at hplace
      obtain ⟨hbelow, hedge⟩ := place_cases k d np _ hplace
      rw [search_branch] at hdiff
      have hmem : ∀ s x, x ∈ (Patricia.side s l r).nodes → x ≠ a ∧ x ≠ np := by
        intro s x hx
        cases s
        · exact ⟨fun heq => ha.1 (heq ▸ hx), fun heq => hfresh.2.1 (heq ▸ hx)⟩
        · exact ⟨fun heq => ha.2 (heq ▸ hx), fun heq => hfresh.2.2 (heq ▸ hx)⟩
      have hdi : i + 1 ≤ d := by
        -- the key that was found has the bit of this side
        have hbit : key ((Patricia.side (k i) l r).search k) i = k i := hordered.bit (search_mem k _)
        have hne : d ≠ i := by
          rintro rfl
          exact hdiff.2 hbit.symm
        omega
      have hsub := ih (h.side (k i)) (nodup_side (k i) hnodup)
        (fun hx => (hmem _ _ hx).2 rfl) hnp hdi rfl
        (fun p s hp => by cases hp; exact fun hx => (hmem _ _ hx).1 rfl) (hordered.side (k i)) hdiff
        hplace hgrafted
      have hother : Linked nodes' (some a) (i + 1) (Patricia.side (!k i) l r) := by
        have hapart : ∀ x ∈ (Patricia.side (!k i) l r).nodes, x ∉ (Patricia.side (k i) l r).nodes := by
          intro x hx hx'
          have hdisjoint := (List.nodup_append.mp hlr).2.2
          cases hk : k i <;> rw [hk] at hx hx'
          · exact hdisjoint x hx' x hx rfl
          · exact hdisjoint x hx x hx' rfl
        refine (h.side (!k i)).frame (fun x hx => hgrafted.same (hmem _ _ hx).2 (fun s hs => ?_)
          fun hx' => hapart x hx (hbelow x hx')) (hgrafted.bits hnp)
        rcases hedge with ⟨rfl, -⟩ | ⟨p, s', rfl, hp, -⟩
        · cases hs
          exact (hmem _ _ hx).1 rfl
        · cases hs
          exact hapart _ hx hp
      have hroot : root? below ≠ some a := fun heq => (hmem _ _ (hbelow a heq)).1 rfl
      have hnode' : nodes'[a]? = some ⟨if k i then ptr l else
          ptr ((Patricia.side (k i) l r).insert k d np (some np)), parent, if k i then
          ptr ((Patricia.side (k i) l r).insert k d np (some np)) else ptr r, i, bitMask i, rec⟩ := by
        rw [hgrafted.old a hane, hnode]
        rcases hedge with ⟨rfl, -, hins⟩ | ⟨p, s, rfl, hp, hins⟩
        · rw [hins, ptr_graft]
          cases hk : k i <;> simp [adjust, hroot]
        · have hpa : p ≠ a := (hmem _ _ hp).1
          rw [hins]
          cases hk : k i <;> simp [adjust, hroot, hpa, Patricia.side]
      rw [Patricia.insert, if_neg hd]
      cases hk : k i with
      | false =>
        rw [hk] at hsub hother hnode'
        exact ⟨hle, ⟨rec, hnode'⟩, hsub, hother⟩
      | true =>
        rw [hk] at hsub hother hnode'
        exact ⟨hle, ⟨rec, hnode'⟩, hother, hsub⟩

end

end Fetchmail.Uid
