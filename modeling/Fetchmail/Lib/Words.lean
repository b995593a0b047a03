import Mathlib.Data.List.Basic

/-!
# Words between Separators

The words of a text are its longest parts without separators. Whatever is proved of them goes by
induction on how many separators there are: a text without any, or such a text, a separator, and
a text again.
-/

namespace Fetchmail.Lib

variable {α β : Type*} {p : α → Bool} {a s : List α} {b : α}

/-- Nothing in the text separates. -/
def Unbroken (p : α → Bool) (a : List α) : Prop := ∀ c ∈ a, p c = false

/-- The longest parts without separators, the empty ones left out. -/
def words [DecidableEq α] (p : α → Bool) (s : List α) : List (List α) :=
  (s.splitOnP p).filter (· ≠ [])

/-- A text is taken apart at its separators, the first one first. -/
theorem words_induction {motive : List α → Prop} (unbroken : ∀ a, Unbroken p a → motive a)
    (broken : ∀ a b s, Unbroken p a → p b = true → motive s → motive (a ++ b :: s))
    (s : List α) : motive s := by
  have hrun : ∀ s a, Unbroken p a → motive (a ++ s) := by
    intro s
    induction s with
    | nil =>
      intro a ha
      rw [List.append_nil]
      exact unbroken a ha
    | cons c s ih =>
      intro a ha
      cases hc : p c with
      | true => exact broken a c s ha hc (ih [] fun c hc => absurd hc List.not_mem_nil)
      | false =>
        have haccum : Unbroken p (a ++ [c]) := by
          intro d hd
          rcases List.mem_append.mp hd with hd | hd
          · exact ha d hd
          · rw [List.mem_singleton.mp hd, hc]
        have hmotive := ih (a ++ [c]) haccum
        rwa [List.append_assoc] at hmotive
  exact hrun s [] fun c hc => absurd hc List.not_mem_nil

section

variable [DecidableEq α] [DecidableEq β]

theorem words_unbroken (ha : Unbroken p a) : words p a = if a = [] then [] else [a] := by
  rw [words, List.splitOnP_eq_singleton fun c hc => ha c hc]
  by_cases hnil : a = [] <;> simp [hnil]

theorem words_broken (ha : Unbroken p a) (hb : p b = true) :
    words p (a ++ b :: s) = (if a = [] then [] else [a]) ++ words p s := by
  rw [words, List.splitOnP_append_cons a s hb, List.filter_append]
  rw [← words_unbroken ha]
  rfl

/-- Separators alone are no words. -/
theorem words_separators (h : ∀ c ∈ s, p c = true) : words p s = [] := by
  induction s with
  | nil => rfl
  | cons b s ih =>
    have hnil : Unbroken p ([] : List α) := fun c hc => absurd hc List.not_mem_nil
    exact (words_broken hnil (h b List.mem_cons_self)).trans
      (ih fun c hc => h c (List.mem_cons_of_mem b hc))

/-- Separators at the end add no words. -/
theorem words_append_separators {t : List α} (s : List α) (h : ∀ c ∈ t, p c = true) :
    words p (s ++ t) = words p s := by
  induction s using words_induction (p := p) with
  | unbroken a ha =>
    cases t with
    | nil => rw [List.append_nil]
    | cons b t =>
      rw [words_broken ha (h b List.mem_cons_self), words_unbroken ha,
        words_separators fun c hc => h c (List.mem_cons_of_mem b hc), List.append_nil]
  | broken a b s ha hb ih =>
    rw [List.append_assoc, List.cons_append, words_broken ha hb, words_broken ha hb, ih]

theorem ne_nil_of_mem_words {w : List α} (h : w ∈ words p s) : w ≠ [] :=
  of_decide_eq_true (List.mem_filter.mp h).2

/-- What is in the words is what does not separate. -/
theorem flatten_words (s : List α) : (words p s).flatten = s.filter fun c => !p c := by
  have hself : ∀ a, Unbroken p a → a.filter (fun c => !p c) = a := fun a ha =>
    List.filter_eq_self.mpr fun c hc => by rw [ha c hc]; rfl
  have hflat : ∀ a : List α, (if a = [] then [] else [a]).flatten = a := by
    intro a
    by_cases hnil : a = [] <;> simp [hnil]
  induction s using words_induction (p := p) with
  | unbroken a ha => rw [words_unbroken ha, hflat, hself a ha]
  | broken a b s ha hb ih =>
    rw [words_broken ha hb, List.flatten_append, hflat, ih, List.filter_append, hself a ha,
      List.filter_cons_of_neg (by rw [hb]; decide)]

/-- A function that keeps separators apart from the rest goes word by word. -/
theorem words_map {q : β → Bool} (f : List α → List β) (g : α → β)
    (hunbroken : ∀ a, Unbroken p a → Unbroken q (f a)) (hsep : ∀ b, p b = true → q (g b) = true)
    (hf : ∀ a b s, p b = true → f (a ++ b :: s) = f a ++ g b :: f s) (hnil : f [] = [])
    (s : List α) : words q (f s) = ((words p s).map f).filter (· ≠ []) := by
  have hword : ∀ a, (if f a = [] then ([] : List (List β)) else [f a]) =
      ((if a = [] then [] else [a]).map f).filter (· ≠ []) := by
    intro a
    by_cases ha : a = []
    · simp [ha, hnil]
    · by_cases hfa : f a = [] <;> simp [ha, hfa]
  induction s using words_induction (p := p) with
  | unbroken a ha => rw [words_unbroken (hunbroken a ha), words_unbroken ha, hword]
  | broken a b s ha hb ih =>
    rw [hf a b s hb, words_broken (hunbroken a ha) (hsep b hb), words_broken ha hb, ih, hword,
      List.map_append, List.filter_append]

end

end Fetchmail.Lib
