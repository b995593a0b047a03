import Mathlib.Data.List.Perm.Basic
import Mathlib.Tactic.Common

/-!
# PATRICIA Tries

A trie over keys that are sequences of bits. A branch tests one bit and skips those before,
in which all keys below agree. A search looks at no other bits, so it ends at the only key
that may be the one it is for, and that key has to be compared.
-/

namespace Fetchmail.Lib

/-- A key, bit by bit. -/
abbrev Bits := Nat → Bool

/-- A trie with the nodes `α` as branches and the entries `β` as leaves. -/
inductive Patricia (α β : Type) where
  | leaf (b : β)
  | branch (a : α) (bit : Nat) (left right : Patricia α β)

namespace Patricia

variable {α β : Type}

/-- The entries, from the left. -/
def leaves : Patricia α β → List β
  | leaf b => [b]
  | branch _ _ l r => l.leaves ++ r.leaves

/-- The nodes, each before those below it. -/
def nodes : Patricia α β → List α
  | leaf _ => []
  | branch a _ l r => a :: (l.nodes ++ r.nodes)

/-- The child on one side. -/
def side (s : Bool) (l r : Patricia α β) : Patricia α β := if s then r else l

/-- The entry that the bits of `k` lead to. -/
def search (k : Bits) : Patricia α β → β
  | leaf b => b
  | branch _ i l r => if k i then r.search k else l.search k

/-- The last branch on the way to that entry and the side that is taken there, `e` if there
is none. -/
def lastEdge (k : Bits) (e : Option (α × Bool)) : Patricia α β → Option (α × Bool)
  | leaf _ => e
  | branch a i l r => if k i then r.lastEdge k (some (a, true)) else l.lastEdge k (some (a, false))

/-- A new branch over `t` that tests the bit `d`, with the new entry at the side of its key. -/
def graft (k : Bits) (d : Nat) (a : α) (b : β) (t : Patricia α β) : Patricia α β :=
  if k d then branch a d t (leaf b) else branch a d (leaf b) t

/-- Insertion of a key that differs first at `d` from the one it was searched for. -/
def insert (k : Bits) (d : Nat) (a : α) (b : β) : Patricia α β → Patricia α β
  | leaf c => graft k d a b (leaf c)
  | branch a' i l r =>
    if d < i then graft k d a b (branch a' i l r)
    else if k i then branch a' i l (r.insert k d a b)
    else branch a' i (l.insert k d a b) r

/-- Where the new branch goes: the edge to it, `e` for the edge to the trie, and what is below. -/
def place (k : Bits) (d : Nat) (e : Option (α × Bool)) :
    Patricia α β → Option (α × Bool) × Patricia α β
  | leaf b => (e, leaf b)
  | branch a i l r =>
    if d < i then (e, branch a i l r)
    else if k i then r.place k d (some (a, true))
    else l.place k d (some (a, false))

/-! ## The way of a key -/

/-- Induction along the way of a key. -/
theorem rec_side (k : Bits) {motive : Patricia α β → Prop} (leaf : ∀ b, motive (leaf b))
    (branch : ∀ a i l r, motive (side (k i) l r) → motive (branch a i l r)) (t : Patricia α β) :
    motive t := by
  induction t with
  | leaf b => exact leaf b
  | branch a i l r ihl ihr =>
    refine branch a i l r ?_
    cases k i
    · exact ihl
    · exact ihr

variable {k : Bits} {d : Nat} {a : α} {b : β} {t : Patricia α β} {l r : Patricia α β} {i : Nat}

theorem search_branch : (branch a i l r).search k = (side (k i) l r).search k := by
  rw [search]
  cases k i <;> rfl

theorem lastEdge_branch {e : Option (α × Bool)} :
    (branch a i l r).lastEdge k e = (side (k i) l r).lastEdge k (some (a, k i)) := by
  rw [lastEdge]
  cases k i <;> rfl

theorem place_branch {e : Option (α × Bool)} : (branch a i l r).place k d e =
    if d < i then (e, branch a i l r) else (side (k i) l r).place k d (some (a, k i)) := by
  rw [place]
  cases k i <;> rfl

theorem length_nodes_side (s : Bool) (a : α) (i : Nat) (l r : Patricia α β) :
    (side s l r).nodes.length + 1 ≤ (branch a i l r).nodes.length := by
  simp only [nodes, List.length_cons, List.length_append]
  cases s <;> simp only [side, Bool.false_eq_true, if_true, if_false] <;> omega

theorem mem_nodes_side {s : Bool} {x : α} (h : x ∈ (side s l r).nodes) :
    x ∈ (branch a i l r).nodes := by
  refine List.mem_cons_of_mem a ?_
  cases s
  · exact List.mem_append_left _ h
  · exact List.mem_append_right _ h

theorem nodup_side (s : Bool) (h : (branch a i l r).nodes.Nodup) : (side s l r).nodes.Nodup := by
  obtain ⟨-, h⟩ := List.nodup_cons.mp h
  cases s
  · exact (List.nodup_append.mp h).1
  · exact (List.nodup_append.mp h).2.1

/-! ## Membership -/

theorem search_mem (k : Bits) (t : Patricia α β) : t.search k ∈ t.leaves := by
  induction t with
  | leaf b => exact List.mem_singleton_self b
  | branch a i l r ihl ihr =>
    unfold search leaves
    split
    · exact List.mem_append_right _ ihr
    · exact List.mem_append_left _ ihl

theorem leaves_graft : (graft k d a b t).leaves.Perm (b :: t.leaves) := by
  unfold graft
  split
  · exact List.perm_append_comm
  · exact List.Perm.refl _

theorem nodes_graft : (graft k d a b t).nodes.Perm (a :: t.nodes) := by
  unfold graft
  split
  · simp [nodes]
  · simp [nodes]

theorem leaves_insert : (t.insert k d a b).leaves.Perm (b :: t.leaves) := by
  induction t with
  | leaf c => exact leaves_graft
  | branch a' i l r ihl ihr =>
    unfold insert
    split
    · exact leaves_graft
    · split
      · exact (ihr.append_left l.leaves).trans List.perm_middle
      · exact ihl.append_right r.leaves

theorem nodes_insert : (t.insert k d a b).nodes.Perm (a :: t.nodes) := by
  induction t with
  | leaf c => exact nodes_graft
  | branch a' i l r ihl ihr =>
    unfold insert
    split
    · exact nodes_graft
    · split
      · have hright : (l.nodes ++ (r.insert k d a b).nodes).Perm (a :: (l.nodes ++ r.nodes)) :=
          (ihr.append_left l.nodes).trans List.perm_middle
        exact (hright.cons a').trans (List.Perm.swap a a' _)
      · have hleft : ((l.insert k d a b).nodes ++ r.nodes).Perm (a :: (l.nodes ++ r.nodes)) :=
          ihl.append_right r.nodes
        exact (hleft.cons a').trans (List.Perm.swap a a' _)

theorem lastEdge_mem {e : Option (α × Bool)} {x : α} {s : Bool}
    (h : t.lastEdge k e = some (x, s)) : e = some (x, s) ∨ x ∈ t.nodes := by
  induction t using rec_side k generalizing e with
  | leaf b => exact .inl h
  | branch a i l r ih =>
    right
    rw [lastEdge_branch] at h
    rcases ih h with hx | hx
    · cases hx
      exact List.mem_cons_self
    · exact mem_nodes_side hx

/-! ## The order -/

variable (key : β → Bits)

/-- Left of a branch its bit is zero, right of it one; the bits before it are the same. -/
def Ordered : Patricia α β → Prop
  | leaf _ => True
  | branch _ i l r =>
    (∀ b ∈ l.leaves, key b i = false) ∧ (∀ b ∈ r.leaves, key b i = true) ∧
      (∀ b ∈ l.leaves ++ r.leaves, ∀ b' ∈ l.leaves ++ r.leaves, ∀ j < i, key b j = key b' j) ∧
      l.Ordered ∧ r.Ordered

/-- The bit `d` is the first in which the keys differ. -/
def FirstDiff (k k' : Bits) (d : Nat) : Prop := (∀ j < d, k j = k' j) ∧ k d ≠ k' d

theorem FirstDiff.symm {k k' : Bits} (h : FirstDiff k k' d) : FirstDiff k' k d :=
  ⟨fun j hj => (h.1 j hj).symm, h.2.symm⟩

variable {key}

/-- Only the keys of the entries matter. -/
theorem Ordered.congr {key' : β → Bits} (ht : t.Ordered key) (h : ∀ b ∈ t.leaves, key' b = key b) :
    t.Ordered key' := by
  induction t with
  | leaf b => exact trivial
  | branch a i l r ihl ihr =>
    obtain ⟨hl, hr, hsame, hol, hor⟩ := ht
    have hleft : ∀ b ∈ l.leaves, key' b = key b := fun b hb => h b (List.mem_append_left _ hb)
    have hright : ∀ b ∈ r.leaves, key' b = key b := fun b hb => h b (List.mem_append_right _ hb)
    refine ⟨fun b hb => ?_, fun b hb => ?_, fun b hb b' hb' j hj => ?_, ihl hol hleft, ihr hor hright⟩
    · rw [hleft b hb, hl b hb]
    · rw [hright b hb, hr b hb]
    · rw [h b hb, h b' hb', hsame b hb b' hb' j hj]

theorem Ordered.side (h : (branch a i l r).Ordered key) (s : Bool) :
    (Patricia.side s l r).Ordered key := by
  cases s
  · exact h.2.2.2.1
  · exact h.2.2.2.2

/-- The side of an entry is its bit. -/
theorem Ordered.bit (h : (branch a i l r).Ordered key) {s : Bool} {c : β}
    (hc : c ∈ (Patricia.side s l r).leaves) : key c i = s := by
  cases s
  · exact h.1 c hc
  · exact h.2.1 c hc

/-- Different entries have different keys. -/
theorem Ordered.key_inj (h : t.Ordered key) {c : β} (hb : b ∈ t.leaves) (hc : c ∈ t.leaves)
    (heq : key b = key c) : b = c := by
  induction t with
  | leaf e => rw [List.mem_singleton.mp hb, List.mem_singleton.mp hc]
  | branch a i l r ihl ihr =>
    obtain ⟨hl, hr, -, hol, hor⟩ := h
    rcases List.mem_append.mp hb with hb | hb <;> rcases List.mem_append.mp hc with hc | hc
    · exact ihl hol hb hc
    · have hbit := congrFun heq i
      rw [hl b hb, hr c hc] at hbit
      cases hbit
    · have hbit := congrFun heq i
      rw [hr b hb, hl c hc] at hbit
      cases hbit
    · exact ihr hor hb hc

/-- **A key is found if it is there**: the search takes its side at every branch. -/
theorem key_search (h : t.Ordered key) (hb : b ∈ t.leaves) : key (t.search (key b)) = key b := by
  induction t with
  | leaf c =>
    obtain rfl := List.mem_singleton.mp hb
    rfl
  | branch a i l r ihl ihr =>
    obtain ⟨hl, hr, -, hol, hor⟩ := h
    unfold search
    rcases List.mem_append.mp hb with hb | hb
    · rw [hl b hb, if_neg Bool.false_ne_true]
      exact ihl hol hb
    · rw [hr b hb, if_pos rfl]
      exact ihr hor hb

/-- A branch over keys that agree up to its bit. -/
theorem Ordered.graft (h : t.Ordered key) (hkey : key b = k)
    (hbefore : ∀ c ∈ t.leaves, ∀ j < d, key c j = k j) (hbit : ∀ c ∈ t.leaves, key c d ≠ k d) :
    (t.graft k d a b).Ordered key := by
  have hmem : ∀ c ∈ b :: t.leaves, ∀ j < d, key c j = k j := by
    intro c hc j hj
    rcases List.mem_cons.mp hc with rfl | hc
    · rw [hkey]
    · exact hbefore c hc j hj
  unfold Patricia.graft
  split
  next hk =>
    refine ⟨fun c hc => ?_, fun c hc => ?_, fun c hc c' hc' j hj => ?_, h, trivial⟩
    · simpa [hk] using hbit c hc
    · rw [List.mem_singleton.mp hc, hkey, hk]
    · have hperm : (t.leaves ++ [b]).Perm (b :: t.leaves) := List.perm_append_comm
      rw [hmem c (hperm.mem_iff.mp hc) j hj, hmem c' (hperm.mem_iff.mp hc') j hj]
  next hk =>
    rw [Bool.not_eq_true] at hk
    refine ⟨fun c hc => ?_, fun c hc => ?_, fun c hc c' hc' j hj => ?_, trivial, h⟩
    · rw [List.mem_singleton.mp hc, hkey, hk]
    · simpa [hk] using hbit c hc
    · rw [hmem c hc j hj, hmem c' hc' j hj]

/-- **Insertion keeps the order.** By induction along the way of the key: as long as a branch
tests a bit before `d`, the new key has the bits of the one that was found. -/
theorem Ordered.insert (h : t.Ordered key) (hkey : key b = k)
    (hdiff : FirstDiff k (key (t.search k)) d) : (t.insert k d a b).Ordered key := by
  induction t with
  | leaf c =>
    refine h.graft hkey (fun c' hc j hj => ?_) fun c' hc => ?_
    · rw [List.mem_singleton.mp hc]
      exact (hdiff.1 j hj).symm
    · rw [List.mem_singleton.mp hc]
      exact hdiff.2.symm
  | branch a' i l r ihl ihr =>
    have hfound := search_mem k (branch a' i l r)
    obtain ⟨hl, hr, hsame, hol, hor⟩ := h
    unfold Patricia.insert
    split
    next hlt =>
      -- all keys below have the bits of the one that was found, up to `d` and further
      refine Ordered.graft ⟨hl, hr, hsame, hol, hor⟩ hkey (fun c hc j hj => ?_) fun c hc => ?_
      · rw [hsame c hc _ hfound j (by omega), hdiff.1 j hj]
      · rw [hsame c hc _ hfound d hlt]
        exact hdiff.2.symm
    next hge =>
      -- the new key has the bits before `i` of all keys below
      have hbefore : ∀ c ∈ l.leaves ++ r.leaves, ∀ j < i, key b j = key c j := by
        intro c hc j hj
        rw [hkey, hdiff.1 j (by omega), hsame _ hfound c hc j hj]
      have hnew : ∀ {s : List β}, s.Perm (b :: (l.leaves ++ r.leaves)) →
          ∀ c ∈ s, ∀ c' ∈ s, ∀ j < i, key c j = key c' j := by
        intro s hs c hc c' hc' j hj
        have heq : ∀ c ∈ b :: (l.leaves ++ r.leaves), key c j = key b j := by
          intro c hc
          rcases List.mem_cons.mp hc with rfl | hc
          · rfl
          · exact (hbefore c hc j hj).symm
        rw [heq c (hs.mem_iff.mp hc), heq c' (hs.mem_iff.mp hc')]
      split
      next hk =>
        have hd : FirstDiff k (key (r.search k)) d := by
          simpa only [search, if_pos hk] using hdiff
        refine ⟨hl, fun c hc => ?_,
          hnew ((leaves_insert.append_left l.leaves).trans List.perm_middle), hol, ihr hor hd⟩
        rcases List.mem_cons.mp (leaves_insert.mem_iff.mp hc) with rfl | hc
        · rw [hkey, hk]
        · exact hr c hc
      next hk =>
        have hd : FirstDiff k (key (l.search k)) d := by
          simpa only [search, if_neg hk] using hdiff
        refine ⟨fun c hc => ?_, hr, hnew (leaves_insert.append_right r.leaves), ihl hol hd, hor⟩
        rcases List.mem_cons.mp (leaves_insert.mem_iff.mp hc) with rfl | hc
        · rw [hkey]
          exact Bool.not_eq_true _ ▸ hk
        · exact hl c hc

end Patricia

end Fetchmail.Lib
