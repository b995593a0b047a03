import Mathlib.Data.List.Chain

/-!
# Searching for Two Neighbours

The first place of a list where two given elements stand next to each other. Elements that
differ from each other cannot overlap with a second occurrence, so the search is determined by
what is in front of it.
-/

namespace Fetchmail.Lib.Pairs

variable {α : Type} [DecidableEq α]

/-- What is before the first two such neighbours, and what is behind them. -/
def cut (a b : α) : List α → Option (List α × List α)
  | c :: d :: s =>
    if c = a ∧ d = b then some ([], s) else (cut a b (d :: s)).map fun r => (c :: r.1, r.2)
  | _ => none

/-- Nowhere are the two neighbours. -/
def Free (a b : α) (s : List α) : Prop := s.IsChain fun c d => ¬ (c = a ∧ d = b)

variable {a b c : α} {s t : List α}

instance : Decidable (Free a b s) := inferInstanceAs (Decidable (List.IsChain _ _))

omit [DecidableEq α] in
theorem free_nil : Free a b [] := List.IsChain.nil

omit [DecidableEq α] in
theorem Free.tail (h : Free a b (c :: s)) : Free a b s := List.IsChain.tail h

omit [DecidableEq α] in
theorem free_append :
    Free a b (s ++ t) ↔ Free a b s ∧ Free a b t ∧ ¬ (s.getLast? = some a ∧ t.head? = some b) := by
  unfold Free
  rw [List.isChain_append]
  refine and_congr_right' (and_congr_right' ⟨fun h hlast => ?_, fun h x hx y hy hxy => ?_⟩)
  · exact h a hlast.1 b hlast.2 ⟨rfl, rfl⟩
  · obtain ⟨rfl, rfl⟩ := hxy
    exact h ⟨hx, hy⟩

omit [DecidableEq α] in
/-- Without one of the two elements there are no such neighbours. -/
theorem free_of_notMem (h : b ∉ s) : Free a b s := by
  induction s with
  | nil => exact free_nil
  | cons c s ih =>
    rw [List.mem_cons, not_or] at h
    refine List.isChain_cons.mpr ⟨fun y hy hcy => ?_, ih h.2⟩
    obtain ⟨-, rfl⟩ := hcy
    exact h.2 (List.mem_of_mem_head? hy)

omit [DecidableEq α] in
theorem free_of_notMem_left (h : a ∉ s) : Free a b s := by
  induction s with
  | nil => exact free_nil
  | cons c s ih =>
    rw [List.mem_cons, not_or] at h
    exact List.isChain_cons.mpr ⟨fun y _ hcy => h.1 hcy.1.symm, ih h.2⟩

theorem cut_of_free (h : Free a b s) : cut a b s = none := by
  induction s with
  | nil => rfl
  | cons c s ih =>
    cases s with
    | nil => rfl
    | cons d s =>
      rw [cut, if_neg (List.isChain_cons_cons.mp h).1, ih h.tail]
      rfl

/-- What the search finds is the first occurrence. -/
theorem eq_of_cut {r : List α} (h : cut a b s = some (t, r)) : s = t ++ a :: b :: r := by
  induction s generalizing t with
  | nil => cases h
  | cons c s ih =>
    cases s with
    | nil => cases h
    | cons d s =>
      by_cases hcd : c = a ∧ d = b
      · rw [cut, if_pos hcd] at h
        cases h
        rw [hcd.1, hcd.2]
        rfl
      · rw [cut, if_neg hcd] at h
        obtain ⟨⟨t', r'⟩, hcut, heq⟩ := Option.map_eq_some_iff.mp h
        cases heq
        rw [ih hcut]
        rfl

theorem cut_eq_none : cut a b s = none ↔ Free a b s := by
  refine ⟨fun h => ?_, cut_of_free⟩
  induction s with
  | nil => exact free_nil
  | cons c s ih =>
    cases s with
    | nil => exact List.IsChain.singleton c
    | cons d s =>
      by_cases hcd : c = a ∧ d = b
      · rw [cut, if_pos hcd] at h
        cases h
      · rw [cut, if_neg hcd, Option.map_eq_none_iff] at h
        exact List.isChain_cons_cons.mpr ⟨hcd, ih h⟩

/-- The search stops at the end of a list without such neighbours. -/
theorem cut_append (hab : a ≠ b) (h : Free a b t) : cut a b (t ++ a :: b :: s) = some (t, s) := by
  induction t with
  | nil => rw [List.nil_append, cut, if_pos ⟨rfl, rfl⟩]
  | cons c t ih =>
    cases t with
    | nil =>
      have hca : ¬ (c = a ∧ a = b) := fun hca => hab hca.2
      rw [List.cons_append, List.nil_append, cut, if_neg hca, cut, if_pos ⟨rfl, rfl⟩]
      rfl
    | cons d t =>
      have hcd := (List.isChain_cons_cons.mp h).1
      rw [List.cons_append, List.cons_append, cut, if_neg hcd, ← List.cons_append, ih h.tail]
      rfl

/-- Nothing is found among other elements. -/
theorem cut_skip (h : ∀ x ∈ t, x ≠ a) :
    cut a b (t ++ s) = (cut a b s).map fun r => (t ++ r.1, r.2) := by
  induction t with
  | nil => simp
  | cons c t ih =>
    have hc := h c (List.mem_cons_self ..)
    have hrest := ih fun x hx => h x (List.mem_cons_of_mem _ hx)
    cases hts : t ++ s with
    | nil =>
      obtain ⟨rfl, rfl⟩ := List.append_eq_nil_iff.mp hts
      rfl
    | cons d u =>
      rw [List.cons_append, hts, cut, if_neg fun hcd => hc hcd.1, ← hts, hrest, Option.map_map]
      rfl

end Fetchmail.Lib.Pairs
