import Fetchmail.Lib.Bytes

/-!
# Absorbing Blocks

A function that takes a stream block by block, given to it in pieces that need not end at a
block's end: what is left of a piece waits for the next one. The stream decides the state,
not the pieces.
-/

namespace Fetchmail.Lib.Chunks

variable {α σ : Type}

/-- Whole blocks of `n` go through `f`; the rest waits. -/
def absorb (n : Nat) (f : σ → List α → σ) (s : σ) (xs : List α) : σ × List α :=
  if 0 < n ∧ n ≤ xs.length then absorb n f (f s (xs.take n)) (xs.drop n) else (s, xs)
termination_by xs.length
decreasing_by
  rw [List.length_drop]
  omega

variable {n : Nat} {f : σ → List α → σ}

theorem absorb_short {xs : List α} (h : xs.length < n) (s : σ) : absorb n f s xs = (s, xs) := by
  rw [absorb, if_neg (by omega)]

theorem absorb_block {b : List α} (hn : 0 < n) (hb : b.length = n) (s : σ) (xs : List α) :
    absorb n f s (b ++ xs) = absorb n f (f s b) xs := by
  rw [absorb, if_pos ⟨hn, by simp [hb]⟩]
  subst hb
  rw [List.take_left, List.drop_left]

theorem absorb_take_drop {xs : List α} (hn : 0 < n) (h : n ≤ xs.length) (s : σ) :
    absorb n f s xs = absorb n f (f s (xs.take n)) (xs.drop n) := by
  rw [absorb, if_pos ⟨hn, h⟩]

/-- What waits is shorter than a block. -/
theorem length_rest (hn : 0 < n) (s : σ) (xs : List α) :
    (absorb n f s xs).2.length = xs.length % n := by
  induction s, xs using absorb.induct (n := n) (f := f) with
  | case1 s xs h ih =>
    rw [absorb_take_drop hn h.2, ih, List.length_drop]
    exact (Nat.mod_eq_sub_mod h.2).symm
  | case2 s xs h =>
    have hlt : xs.length < n := by omega
    rw [absorb_short hlt, Nat.mod_eq_of_lt hlt]

/-- The second piece finds what the first one left waiting. -/
theorem absorb_append (hn : 0 < n) (s : σ) (xs ys : List α) :
    absorb n f s (xs ++ ys) = absorb n f (absorb n f s xs).1 ((absorb n f s xs).2 ++ ys) := by
  induction s, xs using absorb.induct (n := n) (f := f) with
  | case1 s xs h ih =>
    have hb : (xs.take n).length = n := by
      rw [List.length_take]
      omega
    calc absorb n f s (xs ++ ys)
        = absorb n f s (xs.take n ++ (xs.drop n ++ ys)) := by
          rw [← List.append_assoc, List.take_append_drop]
      _ = absorb n f (f s (xs.take n)) (xs.drop n ++ ys) := absorb_block hn hb s _
      _ = _ := by rw [ih, absorb_take_drop hn h.2 s]
  | case2 s xs h =>
    have hlt : xs.length < n := by omega
    rw [absorb_short hlt]

end Fetchmail.Lib.Chunks
